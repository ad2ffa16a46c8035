/-
  Proofs/Settings/Values.lean --- what settings take their values from.

  Each reader takes a value exactly if the value is the one that the settings
  show for it.  So a change of settings can be told by their members alone: the
  given values stand in the place of the old ones, and the result is valid
  (`update_eq_ok_iff`).  One value is refused in a way of its own, a target
  that is a list or an object (`update_eq_compoundTarget_iff`).
-/
import Mathlib.Tactic
import PocketAsm.Settings

set_option autoImplicit false

namespace PocketAsm

/-! ## Names -/

theorem CodePoint.char?_eq_some {p : CodePoint} {c : Char} : p.char? = some c ↔ p = .char c := by
  cases p <;> simp [char?]

namespace WideText

theorem eq_map_of_mapM_char? {ps : List CodePoint} {cs : List Char}
    (h : ps.mapM CodePoint.char? = some cs) : ps = cs.map .char := by
  induction ps generalizing cs with
  | nil =>
    obtain rfl : [] = cs := by simpa using h
    rfl
  | cons p ps ih =>
    simp only [List.mapM_cons, Option.bind_eq_bind, Option.bind_eq_some_iff, Option.pure_def,
      Option.some.injEq] at h
    obtain ⟨c, hc, cs, hcs, rfl⟩ := h
    rw [CodePoint.char?_eq_some.mp hc, ih hcs, List.map_cons]

/-- A text without halves is that of its characters. -/
theorem string?_eq_some {t : WideText} {s : String} : t.string? = some s ↔ t = ofString s := by
  constructor
  · intro h
    obtain ⟨cs, hcs, rfl⟩ := Option.map_eq_some_iff.mp h
    rw [ofString, String.toList_ofList, ← eq_map_of_mapM_char? hcs]
  · rintro rfl
    exact string?_ofString s

theorem ofString_injective : Function.Injective ofString := fun s t h =>
  Option.some.inj (by rw [← string?_ofString s, h, string?_ofString])

end WideText

namespace Json

theorem str_ofString_inj {s t : String} : Json.str s = Json.str t ↔ s = t := by
  rw [Json.str.injEq, WideText.ofString_injective.eq_iff]

/-- The value is a list or an object. -/
def isCompound : Json → Bool
  | .arr _ | .obj _ => true
  | _ => false

theorem string?_eq_some {j : Json} {s : String} : j.string? = some s ↔ j = .str s := by
  cases j <;> simp [string?, WideText.string?_eq_some]

/-- A value names what is shown by its string. -/
theorem bind_string?_eq_some {α : Type} {find? : String → Option α} {shown : α → String}
    (hfind : ∀ n x, find? n = some x ↔ n = shown x) {j : Json} {x : α} :
    j.string?.bind find? = some x ↔ j = .str (shown x) := by
  simp only [Option.bind_eq_some_iff, string?_eq_some, hfind]
  constructor
  · rintro ⟨n, hj, rfl⟩
    exact hj
  · exact fun hj => ⟨_, hj, rfl⟩

end Json

/-- What a table of names finds goes by that name. -/
theorem eq_of_lookup {α : Type} {names : List (String × α)} {shown : α → String}
    (hnames : ∀ e ∈ names, e.1 = shown e.2) {n : String} {x : α} (h : names.lookup n = some x) :
    n = shown x := by
  obtain ⟨before, after, rfl, -⟩ := List.lookup_eq_some_iff.mp h
  exact hnames (n, x) (List.mem_append_right _ List.mem_cons_self)

theorem CodeFormat.ofName?_eq_some (n : String) (f : CodeFormat) :
    ofName? n = some f ↔ n = f.name :=
  ⟨eq_of_lookup (by decide), by rintro rfl; exact ofName?_name f⟩

theorem CodeFormat.name_injective : Function.Injective name := fun f g h =>
  Option.some.inj (by rw [← ofName?_name f, h, ofName?_name])

theorem SourceFormat.ofName?_eq_some (n : String) (f : SourceFormat) :
    ofName? n = some f ↔ n = f.name :=
  ⟨eq_of_lookup (by decide), by rintro rfl; exact ofName?_name f⟩

theorem SourceFormat.name_injective : Function.Injective name := fun f g h =>
  Option.some.inj (by rw [← ofName?_name f, h, ofName?_name])

namespace Architecture

theorem name_of_find? {n : String} {a : Architecture} (h : find? n = some a) : a.name = n := by
  simpa using List.find?_some h

theorem exists_find? {n : String} : (∃ a, find? n = some a) ↔ n ∈ names := by
  rw [← Option.isSome_iff_exists, find?, List.find?_isSome, names, List.mem_map]
  simp

end Architecture

namespace Settings

/-! ## Readers -/

theorem codeFormatOf_eq_ok (j : Json) (f : CodeFormat) :
    codeFormatOf j = .ok f ↔ j = .str f.name := by
  rw [← Json.bind_string?_eq_some CodeFormat.ofName?_eq_some, codeFormatOf]
  split <;> simp [*]

theorem sourceFormatOf_eq_ok (j : Json) (f : SourceFormat) :
    sourceFormatOf j = .ok f ↔ j = .str f.name := by
  rw [← Json.bind_string?_eq_some SourceFormat.ofName?_eq_some, sourceFormatOf]
  split <;> simp [*]

theorem targetOf_eq_ok {j : Json} {t : String} :
    targetOf j = .ok t ↔ j = .str t ∧ t ∈ Architecture.names := by
  rw [← Json.string?_eq_some, ← Architecture.exists_find?]
  constructor
  · intro h
    unfold targetOf at h
    split at h
    · rename_i a ha
      obtain ⟨n, hn, hfound⟩ := Option.bind_eq_some_iff.mp ha
      obtain rfl : a.name = t := Except.ok.inj h
      have hname := Architecture.name_of_find? hfound
      exact ⟨by rw [hn, hname], a, by rw [hname, hfound]⟩
    · cases h
    · cases h
    · cases h
  · rintro ⟨hn, a, hfound⟩
    have hbind : j.string?.bind Architecture.find? = some a := by rw [hn, Option.bind_some, hfound]
    unfold targetOf
    rw [hbind]
    exact congrArg _ (Architecture.name_of_find? hfound)

/-- A list and an object are refused as targets in a way of their own. -/
theorem targetOf_eq_compoundTarget {j : Json} :
    targetOf j = .error .compoundTarget ↔ j.isCompound = true := by
  cases j with
  | str s =>
    refine ⟨fun h => ?_, nofun⟩
    unfold targetOf at h
    split at h <;> first | contradiction | cases h
  | _ => simp [targetOf, Json.string?, Json.isCompound]

theorem delayOf_eq_ok {j : Json} {n : Int} : delayOf j = .ok n ↔ j = .int n ∧ 0 ≤ n := by
  cases j with
  | int m =>
    by_cases hm : m < 0
    · simp only [delayOf, if_pos hm, Json.int.injEq, reduceCtorEq, false_iff]
      omega
    · simp only [delayOf, if_neg hm, Json.int.injEq, Except.ok.injEq]
      omega
  | _ => simp [delayOf]

/-- A value that need not be given is read as the one that is shown for it. -/
theorem change_eq_ok {α : Type} {read : Json → Except SettingsFault α} {shown : α → Json}
    (hread : ∀ j x, read j = .ok x ↔ j = shown x) {old x : α} {value : Option Json} :
    change read old value = .ok x ↔ value.getD (shown old) = shown x := by
  cases value with
  | none => rw [Option.getD_none, ← hread, (hread _ old).mpr rfl, change]
  | some j => exact hread j x

theorem exists_change_eq_ok {α : Type} {read : Json → Except SettingsFault α} {shown : α → Json}
    (hread : ∀ j x, read j = .ok x ↔ j = shown x) (old : α) {value : Option Json} :
    (∃ x, change read old value = .ok x) ↔ ∀ j ∈ value, ∃ x, j = shown x := by
  cases value with
  | none => simp [change]
  | some j => simp [change, hread]

/-! ### What is refused in other ways -/

theorem codeFormatOf_ne (j : Json) : codeFormatOf j ≠ .error .compoundTarget := by
  intro h
  rw [codeFormatOf] at h
  split at h <;> cases h

theorem sourceFormatOf_ne (j : Json) : sourceFormatOf j ≠ .error .compoundTarget := by
  intro h
  rw [sourceFormatOf] at h
  split at h <;> cases h

theorem change_ne {α : Type} {read : Json → Except SettingsFault α} {e : SettingsFault}
    (hread : ∀ j, read j ≠ .error e) {old : α} {value : Option Json} :
    change read old value ≠ .error e := by
  cases value with
  | none => exact nofun
  | some j => exact hread j

theorem delayOf_ne {j : Json} : delayOf j ≠ .error .compoundTarget := by
  intro h
  unfold delayOf at h
  split at h
  · split at h <;> cases h
  · cases h

/-! ## Changes -/

/-- The target is an architecture, and the delay is no negative number. -/
structure Valid (s : Settings) : Prop where
  target : s.target ∈ Architecture.names
  sendDelay : 0 ≤ s.sendDelay

theorem standard_valid : standard.Valid := ⟨by decide, by decide⟩

/-- The members of settings with the given values in the place of the old ones. -/
def overlaid (s : Settings) (values : Json.Members) : Json.Members :=
  s.members.map fun m => (m.1, (Json.member? m.1 values).getD m.2)

variable {s s' : Settings} {values : Json.Members}

/-- The values are for settings of this version, or for settings of any version. -/
def FitsVersion (values : Json.Members) : Prop :=
  (Json.member? "version" values).getD (.str version) = .str version

/-- Settings are told by their members. -/
theorem members_eq_overlaid_iff (hversion : FitsVersion values) :
    s'.members = s.overlaid values ↔
      (Json.member? "targetArch" values).getD (.str s.target) = .str s'.target ∧
      (Json.member? "assemblyOutputFormat" values).getD (.str s.addressFormat.name) =
        .str s'.addressFormat.name ∧
      (Json.member? "machineCodeOutputFormat" values).getD (.str s.codeFormat.name) =
        .str s'.codeFormat.name ∧
      (Json.member? "machineCodeShowLabels" values).getD s.showLabels = s'.showLabels ∧
      (Json.member? "syntaxHighlighting" values).getD s.highlighting = s'.highlighting ∧
      (Json.member? "inlineSourceFormat" values).getD (.str s.sourceFormat.name) =
        .str s'.sourceFormat.name ∧
      (Json.member? "rawOutput" values).getD s.rawOutput = s'.rawOutput ∧
      (Json.member? "focusEmulator" values).getD s.focusMachine = s'.focusMachine ∧
      (Json.member? "sendDelay" values).getD (.int s.sendDelay) = .int s'.sendDelay := by
  rw [FitsVersion] at hversion
  simp only [overlaid, members, List.map_cons, List.map_nil, List.cons.injEq, Prod.mk.injEq,
    hversion, true_and, and_true]
  simp only [eq_comm]

/-- A change of settings gives the valid ones with the given values in the place of the old. -/
theorem update_eq_ok_iff (hversion : FitsVersion values) :
    s.update values = .ok s' ↔ s'.members = s.overlaid values ∧ s'.Valid := by
  have hcode {old x : CodeFormat} {value : Option Json} :
      change codeFormatOf old value = .ok x ↔ value.getD (.str old.name) = .str x.name :=
    change_eq_ok codeFormatOf_eq_ok
  have hsource {old x : SourceFormat} {value : Option Json} :
      change sourceFormatOf old value = .ok x ↔ value.getD (.str old.name) = .str x.name :=
    change_eq_ok sourceFormatOf_eq_ok
  rw [members_eq_overlaid_iff hversion]
  constructor
  · -- the checks in their order: the three forms, the target and the delay
    intro h
    unfold update at h
    dsimp only at h
    split at h
    · cases h
    rename_i addressFormat haddress
    split at h
    · cases h
    rename_i codeFormat hformat
    split at h
    · cases h
    rename_i sourceFormat hinline
    split at h
    · cases h
    rename_i target htarget
    split at h
    · cases h
    rename_i sendDelay hdelay
    cases h
    obtain ⟨htarget, hknown⟩ := targetOf_eq_ok.mp htarget
    obtain ⟨hdelay, hnonneg⟩ := delayOf_eq_ok.mp hdelay
    exact ⟨⟨htarget, hcode.mp haddress, hcode.mp hformat, rfl, rfl, hsource.mp hinline, rfl, rfl,
      hdelay⟩, hknown, hnonneg⟩
  · rintro ⟨⟨htarget, haddress, hformat, hlabels, hlook, hinline, hraw, hfocus, hdelay⟩, hvalid⟩
    simp only [update, hcode.mpr haddress, hcode.mpr hformat, hsource.mpr hinline,
      targetOf_eq_ok.mpr ⟨htarget, hvalid.target⟩, delayOf_eq_ok.mpr ⟨hdelay, hvalid.sendDelay⟩,
      hlabels, hlook, hraw, hfocus]

/-- The forms that are given are known ones. -/
structure HasKnownForms (values : Json.Members) : Prop where
  addressFormat : ∀ j ∈ Json.member? "assemblyOutputFormat" values,
    ∃ f : CodeFormat, j = .str f.name
  codeFormat : ∀ j ∈ Json.member? "machineCodeOutputFormat" values,
    ∃ f : CodeFormat, j = .str f.name
  sourceFormat : ∀ j ∈ Json.member? "inlineSourceFormat" values,
    ∃ f : SourceFormat, j = .str f.name

theorem hasKnownForms_iff (s : Settings) : HasKnownForms values ↔
    (∃ f, change codeFormatOf s.addressFormat (Json.member? "assemblyOutputFormat" values) =
      .ok f) ∧
    (∃ f, change codeFormatOf s.codeFormat (Json.member? "machineCodeOutputFormat" values) =
      .ok f) ∧
    ∃ f, change sourceFormatOf s.sourceFormat (Json.member? "inlineSourceFormat" values) =
      .ok f := by
  rw [exists_change_eq_ok codeFormatOf_eq_ok, exists_change_eq_ok codeFormatOf_eq_ok,
    exists_change_eq_ok sourceFormatOf_eq_ok]
  exact ⟨fun h => ⟨h.addressFormat, h.codeFormat, h.sourceFormat⟩, fun ⟨h, h', h''⟩ => ⟨h, h', h''⟩⟩

/-- The values that are given are known: with the forms, a target among the architectures and a
delay that is no negative number. -/
structure HasKnownValues (values : Json.Members) : Prop extends HasKnownForms values where
  target : ∀ j ∈ Json.member? "targetArch" values, ∃ t ∈ Architecture.names, j = .str t
  sendDelay : ∀ j ∈ Json.member? "sendDelay" values, ∃ n : Int, 0 ≤ n ∧ j = .int n

/-- Valid settings are changed by the values that are known, and by no others. -/
theorem exists_update_iff (h : s.Valid) (hversion : FitsVersion values) :
    (∃ s', s.update values = .ok s') ↔ HasKnownValues values := by
  constructor
  · rintro ⟨s', hs'⟩
    obtain ⟨hmembers, hvalid⟩ := (update_eq_ok_iff hversion).mp hs'
    obtain ⟨htarget, haddress, hformat, -, -, hinline, -, -, hdelay⟩ :=
      (members_eq_overlaid_iff hversion).mp hmembers
    have hgiven {value : Option Json} {old new : Json} (hget : value.getD old = new) :
        ∀ j ∈ value, j = new := by
      rintro j rfl
      exact hget
    exact
      { addressFormat := fun j hj => ⟨_, hgiven haddress j hj⟩
        codeFormat := fun j hj => ⟨_, hgiven hformat j hj⟩
        sourceFormat := fun j hj => ⟨_, hgiven hinline j hj⟩
        target := fun j hj => ⟨_, hvalid.target, hgiven htarget j hj⟩
        sendDelay := fun j hj => ⟨_, hvalid.sendDelay, hgiven hdelay j hj⟩ }
  · intro hknown
    obtain ⟨⟨addressFormat, haddress⟩, ⟨codeFormat, hformat⟩, sourceFormat, hinline⟩ :=
      (hasKnownForms_iff s).mp hknown.toHasKnownForms
    have htarget : ∃ t, targetOf ((Json.member? "targetArch" values).getD (.str s.target)) =
        .ok t := by
      cases hvalue : Json.member? "targetArch" values with
      | none => exact ⟨_, targetOf_eq_ok.mpr ⟨rfl, h.target⟩⟩
      | some j =>
        obtain ⟨t, ht, hj⟩ := hknown.target j hvalue
        exact ⟨t, targetOf_eq_ok.mpr ⟨hj, ht⟩⟩
    have hdelay : ∃ n, delayOf ((Json.member? "sendDelay" values).getD (.int s.sendDelay)) =
        .ok n := by
      cases hvalue : Json.member? "sendDelay" values with
      | none => exact ⟨_, delayOf_eq_ok.mpr ⟨rfl, h.sendDelay⟩⟩
      | some j =>
        obtain ⟨n, hn, hj⟩ := hknown.sendDelay j hvalue
        exact ⟨n, delayOf_eq_ok.mpr ⟨hj, hn⟩⟩
    obtain ⟨target, htarget⟩ := htarget
    obtain ⟨sendDelay, hdelay⟩ := hdelay
    simp only [update, haddress, hformat, hinline, htarget, hdelay]
    exact ⟨_, rfl⟩

/-- The forms are known, and the target is a list or an object. -/
structure HasCompoundTarget (values : Json.Members) : Prop extends HasKnownForms values where
  target : ∃ j ∈ Json.member? "targetArch" values, j.isCompound = true

/-- A target that is a list or an object is met behind forms that are known. -/
theorem update_eq_compoundTarget_iff :
    s.update values = .error .compoundTarget ↔ HasCompoundTarget values := by
  constructor
  · intro h
    unfold update at h
    dsimp only at h
    split at h
    · cases h
      exact absurd ‹_› (change_ne codeFormatOf_ne)
    rename_i addressFormat haddress
    split at h
    · cases h
      exact absurd ‹_› (change_ne codeFormatOf_ne)
    rename_i codeFormat hformat
    split at h
    · cases h
      exact absurd ‹_› (change_ne sourceFormatOf_ne)
    rename_i sourceFormat hinline
    -- the target that stays as it is would be a string, so this one was given
    refine ⟨(hasKnownForms_iff s).mpr ⟨⟨_, haddress⟩, ⟨_, hformat⟩, _, hinline⟩, ?_⟩
    split at h
    · cases h
      rename_i hcompound
      rw [targetOf_eq_compoundTarget] at hcompound
      cases hvalue : Json.member? "targetArch" values with
      | none =>
        rw [hvalue] at hcompound
        cases hcompound
      | some j => exact ⟨j, rfl, by rwa [hvalue] at hcompound⟩
    · split at h
      · cases h
        exact absurd ‹_› delayOf_ne
      · cases h
  · intro h
    obtain ⟨⟨addressFormat, haddress⟩, ⟨codeFormat, hformat⟩, sourceFormat, hinline⟩ :=
      (hasKnownForms_iff s).mp h.toHasKnownForms
    obtain ⟨j, hj, hcompound⟩ := h.target
    have htarget : targetOf ((Json.member? "targetArch" values).getD (.str s.target)) =
        .error .compoundTarget := by
      rw [Option.mem_def.mp hj]
      exact targetOf_eq_compoundTarget.mpr hcompound
    simp only [update, haddress, hformat, hinline, htarget]

/-- A change that was made may be made once more. -/
theorem update_again (hversion : FitsVersion values) (h : s.update values = .ok s') :
    s'.update values = .ok s' := by
  obtain ⟨hmembers, hvalid⟩ := (update_eq_ok_iff hversion).mp h
  refine (update_eq_ok_iff hversion).mpr ⟨?_, hvalid⟩
  rw [overlaid, hmembers, overlaid, List.map_map]
  -- where a value is given it stands already, and elsewhere nothing is put in its place
  refine List.map_congr_left fun m hm => ?_
  cases hvalue : Json.member? m.1 values with
  | none => simp [hvalue]
  | some j => simp [hvalue]

/-! ## Objects -/

theorem version_shown_iff {ms : Json.Members} :
    ((Json.member? "version" ms).getD .null).string? = some version ↔
      Json.member? "version" ms = some (.str version) := by
  rw [Json.string?_eq_some]
  cases Json.member? "version" ms <;> simp

/-- The settings of an object are the standard ones with its members in their place. -/
theorem ofMembers_eq_ok_iff {ms : Json.Members} :
    ofMembers ms = .ok s ↔ Json.member? "version" ms = some (.str version) ∧
      s.members = standard.overlaid ms ∧ s.Valid := by
  rw [ofMembers, ← version_shown_iff]
  split
  · rename_i hversion
    have hfits : FitsVersion ms := by
      rw [FitsVersion, version_shown_iff.mp hversion, Option.getD_some]
    rw [update_eq_ok_iff hfits, and_iff_right hversion]
  · rename_i hversion
    exact ⟨nofun, fun h => absurd h.1 hversion⟩

/-- An object gives settings if it is of this version and its values are known. -/
theorem exists_ofMembers_iff {ms : Json.Members} :
    (∃ s, ofMembers ms = .ok s) ↔
      Json.member? "version" ms = some (.str version) ∧ HasKnownValues ms := by
  by_cases hversion : Json.member? "version" ms = some (.str version)
  · have hfits : FitsVersion ms := by rw [FitsVersion, hversion, Option.getD_some]
    have hchange : ofMembers ms = standard.update ms := by
      rw [ofMembers, if_pos (version_shown_iff.mpr hversion)]
    rw [hchange, exists_update_iff standard_valid hfits, and_iff_right hversion]
  · refine iff_of_false ?_ fun h => hversion h.1
    rintro ⟨s, hs⟩
    exact hversion (ofMembers_eq_ok_iff.mp hs).1

/-- A target that is a list or an object is met in objects of this version only. -/
theorem ofMembers_eq_compoundTarget_iff {ms : Json.Members} :
    ofMembers ms = .error .compoundTarget ↔
      Json.member? "version" ms = some (.str version) ∧ HasCompoundTarget ms := by
  rw [ofMembers, ← version_shown_iff]
  split
  · rename_i hversion
    rw [update_eq_compoundTarget_iff, and_iff_right hversion]
  · rename_i hversion
    exact ⟨nofun, fun h => absurd h.1 hversion⟩

end Settings

end PocketAsm
