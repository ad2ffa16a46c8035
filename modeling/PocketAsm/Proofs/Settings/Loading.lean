/-
  Proofs/Settings/Loading.lean --- what is loaded from a settings file.

  A file holds settings, or something else that stands for the standard ones,
  or something that no settings are loaded from at all: values that nest too
  deep, or a list or an object for the target (`loads_stored_or_standard`).
  What is loaded is valid in each case.
-/
import PocketAsm.Proofs.Json.Values
import PocketAsm.Proofs.Settings.Values

set_option autoImplicit false

namespace PocketAsm

/-- The content is a text with a property. -/
def Content.IsTextWith (content : Content) (P : String → Prop) : Prop :=
  ∃ text ∈ content.lines?, P text

namespace Settings

variable {fs : Files} {path text : String} {content : Content} {s : Settings}

/-! ## Texts -/

/-- The text holds the settings: an object of this version that has their members, except for some
that are standard. -/
def IsHeldBy (s : Settings) (text : String) : Prop :=
  ∃ ms, Json.parse text = .ok (.obj ms) ∧ Json.member? "version" ms = some (.str version) ∧
    s.members = standard.overlaid ms ∧ s.Valid

/-- The text holds settings: an object of this version whose values are known. -/
def HoldsSettings (text : String) : Prop :=
  ∃ ms, Json.parse text = .ok (.obj ms) ∧ Json.member? "version" ms = some (.str version) ∧
    HasKnownValues ms

theorem exists_isHeldBy_iff : (∃ s : Settings, s.IsHeldBy text) ↔ HoldsSettings text := by
  simp only [IsHeldBy, HoldsSettings]
  rw [exists_comm]
  refine exists_congr fun ms => ?_
  rw [exists_and_left, ← exists_ofMembers_iff]
  simp only [ofMembers_eq_ok_iff]

/-- No settings come from the text, neither its own nor the standard ones: it nests too deep, or a
list or an object stands for the target. -/
def Breaks (text : String) : Prop :=
  Json.parse text = .error .tooDeep ∨
    ∃ ms, Json.parse text = .ok (.obj ms) ∧ Json.member? "version" ms = some (.str version) ∧
      HasCompoundTarget ms

theorem ofText_of_isHeldBy (h : s.IsHeldBy text) : ofText text = .ok s := by
  obtain ⟨ms, hparse, hversion, hmembers, hvalid⟩ := h
  simp only [ofText, hparse, ofMembers_eq_ok_iff.mpr ⟨hversion, hmembers, hvalid⟩]

theorem ofText_of_breaks (h : Breaks text) :
    ofText text = .error .tooDeep ∨ ofText text = .error .compoundTarget := by
  rcases h with hparse | ⟨ms, hparse, hversion, hmeets⟩
  · left
    simp only [ofText, hparse]
  · right
    simp only [ofText, hparse, ofMembers_eq_compoundTarget_iff.mpr ⟨hversion, hmeets⟩]

theorem ofText_of_not_breaks (hbreaks : ¬Breaks text) (hholds : ¬HoldsSettings text) :
    ofText text = .ok standard := by
  unfold ofText
  split
  · rename_i ms hparse
    split
    · rename_i hcompound
      exact absurd (Or.inr ⟨ms, hparse, ofMembers_eq_compoundTarget_iff.mp hcompound⟩) hbreaks
    · rfl
    · rename_i s hmembers
      exact absurd ⟨ms, hparse, exists_ofMembers_iff.mp ⟨s, hmembers⟩⟩ hholds
  · rename_i hparse
    exact absurd (Or.inl hparse) hbreaks
  · rfl

theorem not_breaks_of_ofText (h : ofText text = .ok s) : ¬Breaks text := by
  intro hbreaks
  rcases ofText_of_breaks hbreaks with herror | herror
  · cases herror.symm.trans h
  · cases herror.symm.trans h

theorem IsHeldBy.valid (h : s.IsHeldBy text) : s.Valid := by
  obtain ⟨ms, -, -, -, hvalid⟩ := h
  exact hvalid

theorem isHeldBy_or_eq_standard (h : ofText text = .ok s) : s.IsHeldBy text ∨ s = standard := by
  by_cases hholds : HoldsSettings text
  · obtain ⟨s', hs'⟩ := exists_isHeldBy_iff.mpr hholds
    cases (ofText_of_isHeldBy hs').symm.trans h
    exact .inl hs'
  · cases (ofText_of_not_breaks (not_breaks_of_ofText h) hholds).symm.trans h
    exact .inr rfl

theorem valid_of_ofText (h : ofText text = .ok s) : s.Valid := by
  rcases isHeldBy_or_eq_standard h with hheld | rfl
  · exact hheld.valid
  · exact standard_valid

/-- Settings come from every text that does not break. -/
theorem exists_ofText_iff : (∃ s, ofText text = .ok s) ↔ ¬Breaks text := by
  constructor
  · rintro ⟨s, hs⟩
    exact not_breaks_of_ofText hs
  · intro hbreaks
    by_cases hholds : HoldsSettings text
    · obtain ⟨s, hs⟩ := exists_isHeldBy_iff.mpr hholds
      exact ⟨s, ofText_of_isHeldBy hs⟩
    · exact ⟨standard, ofText_of_not_breaks hbreaks hholds⟩

/-! ## Files -/

/-- What is loaded from a file that is there hangs on its text; without one there is nothing to
load. -/
theorem load_of_read (h : fs.read path = .ok content) :
    load fs path = (content.lines?.map ofText).getD (.ok standard) := by
  simp only [load, h]
  cases content.lines? <;> rfl

/-- A file with settings is loaded as they are, and any other one as the standard settings.  Only
where values nest too deep, or a list or an object stands for the target, nothing is loaded. -/
theorem loads_stored_or_standard (h : fs.read path = .ok content) :
    ((∃ s, load fs path = .ok s) ↔ ¬content.IsTextWith Breaks) ∧
    (content.IsTextWith HoldsSettings → ∃ s : Settings, content.IsTextWith s.IsHeldBy ∧
      load fs path = .ok s) ∧
    (¬content.IsTextWith HoldsSettings → ¬content.IsTextWith Breaks → load fs path = .ok standard) ∧
    ∀ s, load fs path = .ok s → s.Valid := by
  rw [load_of_read h]
  cases hlines : content.lines? with
  | none =>
    have hno (P : String → Prop) : ¬content.IsTextWith P := by
      simp [Content.IsTextWith, hlines]
    refine ⟨iff_of_true ⟨standard, rfl⟩ (hno _), fun hholds => absurd hholds (hno _),
      fun _ _ => rfl, fun s hs => ?_⟩
    cases hs
    exact standard_valid
  | some text =>
    have htext (P : String → Prop) : content.IsTextWith P ↔ P text := by
      simp [Content.IsTextWith, hlines]
    simp only [htext, Option.map_some, Option.getD_some]
    refine ⟨exists_ofText_iff, fun hholds => ?_,
      fun hholds hbreaks => ofText_of_not_breaks hbreaks hholds, fun s => valid_of_ofText⟩
    obtain ⟨s, hs⟩ := exists_isHeldBy_iff.mpr hholds
    exact ⟨s, hs, ofText_of_isHeldBy hs⟩

/-- A settings file with the given text. -/
def fileWith (text : String) : Files := ⟨[(["settings.json"], .text text)], []⟩

/-- A file that gives the target and the delay and leaves the rest as it is. -/
def partialText : String := "\x7b\"version\": \"1\", \"targetArch\": \"v8\", \"sendDelay\": 20\x7d"

/-- A file with a list for the target. -/
def listText : String := "\x7b\"version\": \"1\", \"targetArch\": []\x7d"

theorem parse_partialText : Json.parse partialText =
    .ok (.obj [("version", .str "1"), ("targetArch", .str "v8"), ("sendDelay", .int 20)]) := by
  have htext : partialText = (Json.obj [("version", .str "1"), ("targetArch", .str "v8"),
      ("sendDelay", .int 20)]).write := by decide +kernel
  have hkeys : [WideText.ofString "version", .ofString "targetArch", .ofString "sendDelay"].Nodup :=
    by decide
  rw [htext]
  refine Json.parse_write (.obj hkeys ?_ ?_)
  · simp [WideText.isApart_ofString]
  · simp only [List.forall_mem_cons]
    exact ⟨.str (WideText.isApart_ofString _), .str (WideText.isApart_ofString _),
      .int (by decide +kernel), nofun⟩

theorem ofMembers_partial :
    ofMembers [("version", .str "1"), ("targetArch", .str "v8"), ("sendDelay", .int 20)] =
      .ok { standard with target := "v8", sendDelay := 20 } := by
  rfl

theorem parse_listText :
    Json.parse listText = .ok (.obj [("version", .str "1"), ("targetArch", .arr [])]) := by
  have htext : listText =
      (Json.obj [("version", .str "1"), ("targetArch", .arr [])]).write := by decide +kernel
  have hkeys : [WideText.ofString "version", .ofString "targetArch"].Nodup := by decide
  rw [htext]
  refine Json.parse_write (.obj hkeys ?_ ?_)
  · simp [WideText.isApart_ofString]
  · simp only [List.forall_mem_cons]
    exact ⟨.str (WideText.isApart_ofString _), .arr nofun, nofun⟩

theorem partial_file_is_loaded :
    (fileWith partialText).read "settings.json" = .ok (.text partialText) ∧
    load (fileWith partialText) "settings.json" =
      .ok { standard with target := "v8", sendDelay := 20 } := by
  have hread : (fileWith partialText).read "settings.json" = .ok (.text partialText) := by
    decide +kernel
  have hlines : (Content.text partialText).lines? = some partialText := by decide +kernel
  have hknown := exists_ofMembers_iff.mp
    ⟨{ standard with target := "v8", sendDelay := 20 }, ofMembers_partial⟩
  obtain ⟨s, ⟨text, htext, ms, hparse, hversion, hmembers, hvalid⟩, hload⟩ :=
    (loads_stored_or_standard hread).2.1 ⟨partialText, hlines, _, parse_partialText, hknown⟩
  cases hlines.symm.trans htext
  cases parse_partialText.symm.trans hparse
  refine ⟨hread, hload.trans ?_⟩
  exact (ofMembers_eq_ok_iff.mpr ⟨hversion, hmembers, hvalid⟩).symm.trans ofMembers_partial

/-- The text of a file with a list for the target is no reason to take the standard settings. -/
theorem list_as_target_is_not_loaded :
    (fileWith listText).read "settings.json" = .ok (.text listText) ∧
    load (fileWith listText) "settings.json" = .error .compoundTarget := by
  have hread : (fileWith listText).read "settings.json" = .ok (.text listText) := by
    decide +kernel
  have hlines : (Content.text listText).lines? = some listText := by decide +kernel
  refine ⟨hread, ?_⟩
  rw [load_of_read hread, hlines]
  simp only [Option.map_some, Option.getD_some, ofText, parse_listText]
  rfl

end Settings

end PocketAsm
