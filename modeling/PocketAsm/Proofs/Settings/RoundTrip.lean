/-
  Proofs/Settings/RoundTrip.lean --- settings that were saved are loaded again.

  The members of settings have keys of their own, so they stand for themselves
  in an object (`overlaid_members`), and some of them for settings that are
  standard elsewhere (`exists_ofMembers_of_subset`).  An indented object is
  read back, and with it the settings (`IsSavable.load_of_save`).  What a file
  does not keep are a delay with more digits than are read, and the difference
  between a character and its two halves.
-/
import PocketAsm.Proofs.Files
import PocketAsm.Proofs.Json.Indented
import PocketAsm.Proofs.Json.Writable
import PocketAsm.Proofs.Settings.Loading

set_option autoImplicit false

namespace PocketAsm

/-- A member with a key of its own is found by it. -/
theorem Json.member?_of_mem {ms : Members} (hkeys : (ms.map (·.1)).Nodup) {m : WideText × Json}
    (hm : m ∈ ms) : member? m.1 ms = some m.2 := by
  induction ms with
  | nil => cases hm
  | cons n ms ih =>
    rw [List.map_cons, List.nodup_cons] at hkeys
    rcases List.mem_cons.mp hm with rfl | hm
    · simp [member?]
    · have hne : n.1 ≠ m.1 := by
        intro heq
        exact hkeys.1 (heq ▸ List.mem_map_of_mem hm)
      simpa [member?, hne] using ih hkeys.2 hm

/-- What is found is a member. -/
theorem Json.mem_of_member? {ms : Members} {key : WideText} {v : Json}
    (h : member? key ms = some v) : (key, v) ∈ ms := by
  obtain ⟨m, hm, rfl⟩ := Option.map_eq_some_iff.mp h
  obtain rfl : m.1 = key := by simpa using List.find?_some hm
  exact List.mem_of_find?_eq_some hm

namespace Settings

variable {s s' : Settings}

/-! ## Members -/

theorem nodup_keys (s : Settings) : (s.members.map (·.1)).Nodup := by
  have hkeys : [WideText.ofString "version", .ofString "targetArch",
      .ofString "assemblyOutputFormat", .ofString "machineCodeOutputFormat",
      .ofString "machineCodeShowLabels", .ofString "syntaxHighlighting",
      .ofString "inlineSourceFormat", .ofString "rawOutput", .ofString "focusEmulator",
      .ofString "sendDelay"].Nodup := by decide +kernel
  exact hkeys

/-- The members of settings take the place of all others. -/
theorem overlaid_members (s s' : Settings) : s.overlaid s'.members = s'.members := by
  rfl

/-- Settings with the same members are the same. -/
theorem members_injective : Function.Injective members := by
  intro s s' h
  simp only [members, List.cons.injEq, Prod.mk.injEq, Json.str_ofString_inj, Json.int.injEq,
    true_and, and_true, CodeFormat.name_injective.eq_iff,
    SourceFormat.name_injective.eq_iff] at h
  obtain ⟨htarget, haddress, hformat, hlabels, hlook, hinline, hraw, hfocus, hdelay⟩ := h
  cases s
  congr

/-! ## Some of the members -/

variable {ms : Json.Members}

/-- Where only members of settings stand, a key has no value but that of the settings. -/
theorem eq_of_member? (hsub : ∀ m ∈ ms, m ∈ s.members) {key : WideText} {v j : Json}
    (hmem : (key, v) ∈ s.members) (hj : j ∈ Json.member? key ms) : j = v := by
  have hgiven := Json.member?_of_mem (nodup_keys s) (hsub _ (Json.mem_of_member? hj))
  have hown := Json.member?_of_mem (nodup_keys s) hmem
  exact Option.some.inj (hgiven.symm.trans hown)

theorem hasKnownValues_of_subset (h : s.Valid) (hsub : ∀ m ∈ ms, m ∈ s.members) :
    HasKnownValues ms where
  addressFormat _ hj := ⟨s.addressFormat, eq_of_member? hsub (by simp [members]) hj⟩
  codeFormat _ hj := ⟨s.codeFormat, eq_of_member? hsub (by simp [members]) hj⟩
  sourceFormat _ hj := ⟨s.sourceFormat, eq_of_member? hsub (by simp [members]) hj⟩
  target _ hj := ⟨s.target, h.target, eq_of_member? hsub (by simp [members]) hj⟩
  sendDelay _ hj := ⟨s.sendDelay, h.sendDelay, eq_of_member? hsub (by simp [members]) hj⟩

/-- Some members of valid settings, the version among them, are read as the standard settings with
these members in their place. -/
theorem exists_ofMembers_of_subset (h : s.Valid) (hsub : ∀ m ∈ ms, m ∈ s.members)
    (hversion : (WideText.ofString "version", Json.str version) ∈ ms) :
    ∃ s', ofMembers ms = .ok s' ∧ s'.members = standard.overlaid ms := by
  have hfound : Json.member? "version" ms = some (.str version) := by
    cases hvalue : Json.member? "version" ms with
    | none =>
      have hkey := List.find?_eq_none.mp (Option.map_eq_none_iff.mp hvalue) _ hversion
      simp at hkey
    | some j => rw [eq_of_member? hsub (hsub _ hversion) hvalue]
  obtain ⟨s', hs'⟩ := exists_ofMembers_iff.mpr ⟨hfound, hasKnownValues_of_subset h hsub⟩
  exact ⟨s', hs', (ofMembers_eq_ok_iff.mp hs').2.1⟩

/-! ## Files -/

/-- A file can hold the settings: they are valid, the flags are truth values, the highlighting is a
text that tells a character from its halves, and the delay is written at all. -/
structure IsSavable (s : Settings) : Prop where
  valid : s.Valid
  showLabels : ∃ b, s.showLabels = .bool b
  highlighting : ∃ t : WideText, s.highlighting = .str t ∧ t.IsApart
  rawOutput : ∃ b, s.rawOutput = .bool b
  focusMachine : ∃ b, s.focusMachine = .bool b
  sendDelay : Text.isWritable s.sendDelay = true

theorem IsSavable.legible (h : s.IsSavable) (levels : Nat) :
    Json.Legible (levels + 1) (.obj s.members) := by
  obtain ⟨labels, hlabels⟩ := h.showLabels
  obtain ⟨look, hlook, hapart⟩ := h.highlighting
  obtain ⟨raw, hraw⟩ := h.rawOutput
  obtain ⟨focus, hfocus⟩ := h.focusMachine
  have hstr (x : String) : Json.Legible levels (.str x) := .str (WideText.isApart_ofString x)
  refine .obj (nodup_keys s) ?_ ?_
  · simp only [members, List.forall_mem_cons, WideText.isApart_ofString, true_and]
    exact List.forall_mem_nil _
  · simp only [members, List.forall_mem_cons, hlabels, hlook, hraw, hfocus]
    exact ⟨hstr _, hstr _, hstr _, hstr _, .bool _, .str hapart, hstr _, .bool _, .bool _,
      .int h.sendDelay, List.forall_mem_nil _⟩

theorem IsSavable.isHeldBy (h : s.IsSavable) : s.IsHeldBy s.fileText := by
  have hgap : Json.IsGap "\n".toList := List.forall_mem_singleton.mpr rfl
  have hparse : Json.parse (.ofString (Json.indented 0 (.obj s.members) ++ "\n")) =
      .ok (.obj s.members) := Json.parse_indented_append (h.legible 984) "\n" hgap
  exact ⟨s.members, hparse, rfl, (overlaid_members standard s).symm, h.valid⟩

/-- The text of a settings file has the line ends that are read as they are. -/
theorem IsSavable.lines?_fileText (h : s.IsSavable) :
    (Content.text s.fileText).lines? = some s.fileText := by
  apply Content.lines?_text
  rw [fileText, String.toList_append, List.mem_append]
  rintro (hmem | hmem)
  · rcases (h.legible 0).indented_shows 0 _ hmem with heq | ⟨hle, -⟩
    · cases heq
    · exact absurd hle (by decide)
  · exact absurd hmem (by decide)

/-- Settings are saved if they can be written and the file takes their text. -/
theorem save_eq_ok_iff {fs fs' : Files} {path : String} : s.save fs path = (fs', .ok ()) ↔
    s.isWritable = true ∧ fs.writeDeep path (.text s.fileText) = (fs', .ok ()) := by
  unfold save
  split
  · rename_i hwritable
    split <;> simp_all
  · rename_i hlong
    split <;> simp_all

theorem IsSavable.isWritable (h : s.IsSavable) : s.isWritable = true := by
  obtain ⟨labels, hlabels⟩ := h.showLabels
  obtain ⟨look, hlook, -⟩ := h.highlighting
  obtain ⟨raw, hraw⟩ := h.rawOutput
  obtain ⟨focus, hfocus⟩ := h.focusMachine
  simp [Settings.isWritable, members, Json.isWritable, Json.membersWritable, hlabels, hlook, hraw,
    hfocus, h.sendDelay]

/-- Settings that were saved are loaded again. -/
theorem IsSavable.load_of_save (h : s.IsSavable) {fs fs' : Files} {path : String}
    (hsave : s.save fs path = (fs', .ok ())) : load fs' path = .ok s := by
  have hread : fs'.read path = .ok (.text s.fileText) :=
    Files.read_of_writeDeep (save_eq_ok_iff.mp hsave).2
  rw [load_of_read hread, h.lines?_fileText, Option.map_some, Option.getD_some,
    ofText_of_isHeldBy h.isHeldBy]

/-! ## Overrides -/

variable {env : Environment}

/-- The values that take the place of the target and of the delay. -/
def overrides (target : Option String) (delay : Option Int) : Json.Members :=
  (target.map fun name => (WideText.ofString "targetArch", Json.str name)).toList ++
    (delay.map fun n => (WideText.ofString "sendDelay", Json.int n)).toList

theorem fitsVersion_overrides (target : Option String) (delay : Option Int) :
    FitsVersion (overrides target delay) := by
  cases target <;> cases delay <;> rfl

/-- The values change the target and the delay, and nothing else. -/
theorem overlaid_overrides (s : Settings) (target : Option String) (delay : Option Int) :
    s.overlaid (overrides target delay) =
      { s with target := target.getD s.target, sendDelay := delay.getD s.sendDelay }.members := by
  cases target <;> cases delay <;> rfl

theorem delayOverride_eq_ok {delay : Json.Members} (h : delayOverride env = .ok delay) :
    delay = (((env.nonempty? delayVariable).bind (Text.readInt 10)).map fun n =>
      (WideText.ofString "sendDelay", Json.int n)).toList := by
  unfold delayOverride at h
  split at h
  · rename_i hunset
    cases h
    rw [hunset]
    rfl
  · rename_i text hset
    split at h
    · rename_i n hn
      cases h
      rw [hset, Option.bind_some, hn]
      rfl
    · cases h

/-- The variables that are set and not empty change all settings in one way, if the one for the
delay holds a whole number. -/
theorem withEnvironment_eq_update {delay : Json.Members} (h : delayOverride env = .ok delay)
    (s : Settings) :
    s.withEnvironment env = s.update (overrides (env.nonempty? targetVariable)
      ((env.nonempty? delayVariable).bind (Text.readInt 10))) := by
  simp only [withEnvironment, h, overrides, delayOverride_eq_ok h]

theorem exists_delayOverride (h : s.withEnvironment env = .ok s') :
    ∃ delay, delayOverride env = .ok delay := by
  unfold withEnvironment at h
  split at h
  · cases h
  · exact ⟨_, ‹_›⟩

/-- The environment changes the target and the delay, each by its variable. -/
theorem eq_of_withEnvironment (h : s.withEnvironment env = .ok s') :
    s' = { s with
      target := (env.nonempty? targetVariable).getD s.target
      sendDelay := ((env.nonempty? delayVariable).bind (Text.readInt 10)).getD s.sendDelay } := by
  obtain ⟨delay, hdelay⟩ := exists_delayOverride h
  rw [withEnvironment_eq_update hdelay, update_eq_ok_iff (fitsVersion_overrides _ _),
    overlaid_overrides] at h
  exact members_injective h.1

/-- The environment has changed all that it changes. -/
theorem withEnvironment_again (h : s.withEnvironment env = .ok s') :
    s'.withEnvironment env = .ok s' := by
  obtain ⟨delay, hdelay⟩ := exists_delayOverride h
  rw [withEnvironment_eq_update hdelay] at h ⊢
  exact update_again (fitsVersion_overrides _ _) h

/-! ## Coming back -/

/-- Settings that a file can hold are saved wherever a file with their text can be written, and come
back from there.  Some members of valid settings stand for the standard settings with these members
in their place.  The environment changes the target and the delay alone, by the variables that are
set and not empty, and changes nothing the second time. -/
theorem settings_come_back :
    (∀ s : Settings, s.IsSavable → ofText s.fileText = .ok s ∧
      ∀ (fs fs' : Files) (path : String),
        (s.save fs path = (fs', .ok ()) ↔
          fs.writeDeep path (.text s.fileText) = (fs', .ok ())) ∧
        (s.save fs path = (fs', .ok ()) → load fs' path = .ok s)) ∧
    (∀ (s : Settings) (ms : Json.Members), s.Valid → (∀ m ∈ ms, m ∈ s.members) →
      (WideText.ofString "version", Json.str version) ∈ ms →
        ∃ s', ofMembers ms = .ok s' ∧ s'.members = standard.overlaid ms) ∧
    ∀ (s s' : Settings) (env : Environment), s.withEnvironment env = .ok s' →
      s' = { s with
        target := (env.nonempty? targetVariable).getD s.target
        sendDelay := ((env.nonempty? delayVariable).bind (Text.readInt 10)).getD s.sendDelay } ∧
      s'.withEnvironment env = .ok s' :=
  ⟨fun _ h => ⟨ofText_of_isHeldBy h.isHeldBy, fun _ _ _ =>
      ⟨save_eq_ok_iff.trans (and_iff_right h.isWritable), h.load_of_save⟩⟩,
    fun _ _ => exists_ofMembers_of_subset,
    fun _ _ _ h => ⟨eq_of_withEnvironment h, withEnvironment_again h⟩⟩

/-- Settings for another target, with a look of its own. -/
def darkSettings : Settings :=
  { standard with target := "v8", highlighting := .str "dark λ", sendDelay := 20 }

theorem darkSettings_savable : darkSettings.IsSavable where
  valid := ⟨by decide, by decide⟩
  showLabels := ⟨true, rfl⟩
  highlighting := ⟨_, rfl, WideText.isApart_ofString _⟩
  rawOutput := ⟨false, rfl⟩
  focusMachine := ⟨false, rfl⟩
  sendDelay := by decide +kernel

theorem dark_settings_come_back :
    load (fileWith darkSettings.fileText) "settings.json" = .ok darkSettings ∧
    (∃ s', ofMembers [("version", .str version), ("sendDelay", .int 20)] = .ok s' ∧
      s'.members = { standard with sendDelay := 20 }.members) ∧
    { darkSettings with target := "bitzzy" }.withEnvironment
      [("LBPASM_TARGET", "bitzzy"), ("LBPASM_SEND_DELAY", "")] =
      .ok { darkSettings with target := "bitzzy" } := by
  have hsave : darkSettings.save .empty "settings.json" =
      (fileWith darkSettings.fileText, .ok ()) :=
    save_eq_ok_iff.mpr ⟨darkSettings_savable.isWritable, rfl⟩
  have hsub : ∀ m ∈ [(WideText.ofString "version", Json.str version), ("sendDelay", .int 20)],
      m ∈ darkSettings.members := by
    simp [members, darkSettings]
  have henv : darkSettings.withEnvironment
      [("LBPASM_TARGET", "bitzzy"), ("LBPASM_SEND_DELAY", "")] =
      .ok { darkSettings with target := "bitzzy" } := by
    rfl
  refine ⟨((settings_come_back.1 _ darkSettings_savable).2 _ _ _).2 hsave,
    settings_come_back.2.1 darkSettings _ darkSettings_savable.valid hsub (by simp),
    (settings_come_back.2.2 _ _ _ henv).2⟩

/-! ## What a file does not keep -/

/-- Settings that come from a text can be written into one. -/
theorem isWritable_of_ofText {text : String} (h : ofText text = .ok s) : s.isWritable = true := by
  rcases isHeldBy_or_eq_standard h with ⟨ms, hparse, -, hmembers, -⟩ | rfl
  · have hms : Json.membersWritable ms = true := Json.isWritable_of_parse hparse
    have hstandard : Json.membersWritable standard.members = true := by decide +kernel
    rw [Json.membersWritable_iff] at hms hstandard
    rw [Settings.isWritable, Json.isWritable, Json.membersWritable_iff, hmembers, overlaid,
      List.forall_mem_map]
    intro m hm
    cases hgiven : Json.member? m.1 ms with
    | none => exact hstandard m hm
    | some v => exact hms _ (Json.mem_of_member? hgiven)
  · decide +kernel

/-- Settings with the least delay that has too many digits. -/
def longDelay : Settings := { standard with sendDelay := Text.decimalBound }

/-- Settings with a character for a look. -/
def joinedLook : Settings := { standard with highlighting := .str "😀" }

/-- Settings with the same character in its two halves. -/
def splitLook : Settings := { standard with highlighting := .str ⟨[.ofNat 0xD83D, .ofNat 0xDE00]⟩ }

theorem long_delay_and_split_look_are_lost :
    (longDelay.Valid ∧ (Json.obj longDelay.members).isWritable = false ∧
      (∀ fs fs' path, longDelay.save fs path ≠ (fs', .ok ())) ∧
      ofText longDelay.fileText ≠ .ok longDelay) ∧
    splitLook.Valid ∧ ofText splitLook.fileText ≠ .ok splitLook := by
  -- the delay fails because nothing that is read has so many digits, whatever the text
  have hlong : longDelay.isWritable = false := by decide +kernel
  -- the look fails because its text is that of another look, which comes back
  have htext : splitLook.fileText = joinedLook.fileText := by decide +kernel
  have hsavable : joinedLook.IsSavable :=
    ⟨⟨by decide, by decide⟩, ⟨true, rfl⟩, ⟨_, rfl, WideText.isApart_ofString _⟩, ⟨false, rfl⟩,
      ⟨false, rfl⟩, by decide +kernel⟩
  have hlook : joinedLook.highlighting ≠ splitLook.highlighting := by
    simp [joinedLook, splitLook, WideText.ofString]
  refine ⟨⟨⟨by decide, Int.natCast_nonneg _⟩, hlong, fun fs fs' path h => ?_, fun h => ?_⟩,
    ⟨by decide, by decide⟩, ?_⟩
  · rw [(save_eq_ok_iff.mp h).1] at hlong
    cases hlong
  · rw [isWritable_of_ofText h] at hlong
    cases hlong
  · rw [htext, ofText_of_isHeldBy hsavable.isHeldBy]
    exact fun h => hlook (congrArg highlighting (Except.ok.inj h))

end Settings

end PocketAsm
