/-
  Proofs/Files.lean --- a file that was written is read back.

  A write puts one file into a directory that exists.  It takes no directory
  away, so the path still leads where it led before (`walk_of_walk`), and the
  content is found there (`read_of_writeDeep`).
-/
import Mathlib.Tactic
import PocketAsm.Files

set_option autoImplicit false

namespace PocketAsm

namespace Content

/-- Without carriage returns the ends of lines stay as they are. -/
theorem unifyLines_eq_self {cs : List Char} (h : '\r' ∉ cs) : unifyLines cs = cs := by
  induction cs with
  | nil => rfl
  | cons c cs ih =>
    obtain ⟨hc, hcs⟩ := not_or.mp (mt List.mem_cons.mpr h)
    have hstep : unifyLines (c :: cs) = c :: unifyLines cs := by
      rw [unifyLines]
      all_goals
        intros
        exact hc (Eq.symm ‹c = '\r'›)
    rw [hstep, ih hcs]

theorem lines?_text {s : String} (h : '\r' ∉ s.toList) : (Content.text s).lines? = some s := by
  simp [lines?, text?, unifyLines_eq_self h]

end Content

namespace Files

variable {fs fs' : Files} {key : List String} {content : Content} {path : String}

/-! ## One file -/

theorem lookup_replace {entries : List (List String × Content)}
    (h : (entries.lookup key).isSome = true) :
    (entries.map fun e => if e.1 = key then (key, content) else e).lookup key = some content := by
  induction entries with
  | nil => simp at h
  | cons e entries ih =>
    by_cases he : e.1 = key
    · simp [he]
    · have hne : (key == e.1) = false := beq_eq_false_iff_ne.mpr (Ne.symm he)
      rw [List.lookup_cons, hne] at h
      rw [List.map_cons, if_neg he, List.lookup_cons, hne]
      exact ih h

/-- The file is found where it was put. -/
theorem find?_put (fs : Files) (key : List String) (content : Content) :
    (fs.put key content).find? key = some content := by
  unfold put
  split
  · rename_i hfound
    exact lookup_replace hfound
  · rename_i hnone
    have hnone : fs.entries.lookup key = none := Option.not_isSome_iff_eq_none.mp hnone
    simp [find?, List.lookup_append, hnone]

/-- A file that was there is there still, perhaps with another content. -/
theorem exists_mem_put {e : List String × Content} (h : e ∈ fs.entries) :
    ∃ e' ∈ (fs.put key content).entries, e'.1 = e.1 := by
  unfold put
  split
  · refine ⟨_, List.mem_map_of_mem h, ?_⟩
    split
    · rename_i heq
      exact heq.symm
    · rfl
  · exact ⟨e, List.mem_append_left _ h, rfl⟩

/-- What was a directory is one still. -/
theorem isDirectory_put (other : List String) (h : fs.isDirectory other = true) :
    (fs.put key content).isDirectory other = true := by
  have hdirectories : (fs.put key content).directories = fs.directories := by
    unfold put
    split <;> rfl
  simp only [isDirectory, Bool.or_eq_true, hdirectories] at h ⊢
  refine h.imp_right fun hentry => ?_
  obtain ⟨e, he, hbelow⟩ := List.any_eq_true.mp hentry
  obtain ⟨e', he', hkey⟩ := exists_mem_put he
  exact List.any_eq_true.mpr ⟨e', he', by rwa [hkey]⟩

/-! ## Ways -/

/-- With more directories a path leads to the same place. -/
theorem walk_of_walk (hdir : ∀ key, fs.isDirectory key = true → fs'.isDirectory key = true)
    {parts : List String} {found : List String} (h : fs.walk key parts = .ok found) :
    fs'.walk key parts = .ok found := by
  induction parts generalizing key with
  | nil => exact h
  | cons part rest ih =>
    rw [walk] at h ⊢
    split at h
    · cases h
    · rename_i hshort
      rw [if_neg hshort]
      split at h
      · rename_i hlast
        rw [if_pos hlast]
        exact h
      · rename_i hmore
        rw [if_neg hmore]
        split at h
        · rename_i hnext
          rw [if_pos (hdir _ hnext)]
          exact ih h
        · cases h

theorem locate_of_locate (hdir : ∀ key, fs.isDirectory key = true → fs'.isDirectory key = true)
    (h : fs.locate path = .ok key) : fs'.locate path = .ok key := by
  unfold locate at h ⊢
  split at h
  · cases h
  · exact walk_of_walk hdir h

/-! ## Writing and reading -/

/-- A file that was written is read back. -/
theorem read_of_write (h : fs.write path content = (fs', .ok ())) :
    fs'.read path = .ok content := by
  unfold write at h
  split at h
  · cases h
  · rename_i key hkey
    split at h
    · cases h
    · obtain ⟨rfl, -⟩ := Prod.mk.inj h
      have hlocate : (fs.put key content).locate path = .ok key :=
        locate_of_locate isDirectory_put hkey
      simp only [read, hlocate, find?_put]

/-- A file that was written into directories made for it is read back. -/
theorem read_of_writeDeep (h : fs.writeDeep path content = (fs', .ok ())) :
    fs'.read path = .ok content := by
  unfold writeDeep at h
  split at h
  · cases h
  · exact read_of_write h

end Files

end PocketAsm
