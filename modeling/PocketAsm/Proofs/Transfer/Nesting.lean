/-
  Proofs/Transfer/Nesting.lean --- lines that nest too deep.

  The bytes of a line are read as the text of the line, with its line feed
  (`Json.decode_line`).  A text that opens more arrays than may stand inside one
  another is given up at the first that is too much, before anything shows that
  it is no JSON text at all (`receive_brackets`), and breaks the session off
  (`Session.handle_brackets`).
-/
import Mathlib.Tactic
import PocketAsm.Transfer.Bridge

set_option autoImplicit false

namespace PocketAsm

namespace Json

/-! ## Bytes of a line -/

/-- A line in UTF-8 without the mark of that encoding comes back as it was written. -/
theorem decode_line (line : String)
    (hdetect : Encoding.detect (line.toUTF8.data.toList ++ [10]) = .utf8)
    (hmark : (line ++ "\n").toList.head? ≠ some '\uFEFF') :
    decode (line.toUTF8.data.toList ++ [10]) = some (.ofString (line ++ "\n")) := by
  have hbytes : ByteArray.mk (line.toUTF8.data.toList ++ [10]).toArray =
      (line ++ "\n").toByteArray := by
    apply ByteArray.ext
    apply Array.toList_inj.mp
    rw [String.toByteArray_append, ByteArray.toList_data_append]
    rfl
  have hread : String.fromUTF8? (line ++ "\n").toByteArray = some (line ++ "\n") := by
    rw [String.fromUTF8?, dif_pos (line ++ "\n").isValidUTF8]
    rfl
  have htext : ofUtf8? (line.toUTF8.data.toList ++ [10]) = some (line ++ "\n") := by
    rw [ofUtf8?, hbytes, hread, Option.map_some]
    split
    · rename_i c cs hlist
      rw [hlist] at hmark
      rw [if_neg (by simpa using hmark)]
    · rfl
  rw [decode, hdetect]
  simp only [htext, Option.map_some]

/-! ## Nesting -/

theorem value_brackets (rest : List CodePoint) :
    ∀ (levels fuel n : Nat), levels < n → 2 * levels < fuel →
      value fuel levels (List.replicate n (CodePoint.char '[') ++ rest) = .error .tooDeep := by
  intro levels
  induction levels with
  | zero =>
    intro fuel n hn hfuel
    obtain ⟨fuel, rfl⟩ := Nat.exists_eq_add_one_of_ne_zero (Nat.ne_of_gt hfuel)
    obtain ⟨n, rfl⟩ := Nat.exists_eq_add_one_of_ne_zero (Nat.ne_of_gt hn)
    rw [List.replicate_succ, List.cons_append]
    rfl
  | succ levels ih =>
    intro fuel n hn hfuel
    obtain ⟨fuel, rfl⟩ : ∃ k, fuel = k + 2 := ⟨fuel - 2, by omega⟩
    obtain ⟨n, rfl⟩ : ∃ k, n = k + 2 := ⟨n - 2, by omega⟩
    have hinner := ih fuel (n + 1) (by omega) (by omega)
    rw [List.replicate_succ, List.cons_append] at hinner ⊢
    have hspace : skipSpace (.char '[' :: (List.replicate n (CodePoint.char '[') ++ rest)) =
        .char '[' :: (List.replicate n (CodePoint.char '[') ++ rest) := rfl
    rw [value, List.replicate_succ, List.cons_append]
    simp only [hspace]
    change items (fuel + 1) levels []
      (.char '[' :: (List.replicate n (CodePoint.char '[') ++ rest)) = _
    rw [items, hinner]

/-- A text of opening brackets alone, with a line feed, nests too deep once it has more of them than
arrays may stand inside one another. -/
theorem parse_brackets {n : Nat} (h : maxDepth < n) :
    parse (.ofString (String.ofList (List.replicate n '[') ++ "\n")) = .error .tooDeep := by
  have hpoints : (WideText.ofString (String.ofList (List.replicate n '[') ++ "\n")).points =
      List.replicate n (CodePoint.char '[') ++ [CodePoint.char '\n'] := by
    simp [WideText.ofString]
  have hspace : skipSpace (List.replicate n (CodePoint.char '[') ++ [CodePoint.char '\n']) =
      List.replicate n (CodePoint.char '[') ++ [CodePoint.char '\n'] := by
    obtain ⟨n, rfl⟩ := Nat.exists_eq_add_one_of_ne_zero (Nat.ne_of_gt (Nat.zero_lt_of_lt h))
    rfl
  rw [parse, hpoints, hspace, value_brackets _ _ _ _ h (by simp; omega)]

end Json

namespace Transfer

namespace Request

theorem bytes_brackets (n : Nat) :
    (String.ofList (List.replicate n '[')).toUTF8.data.toList = List.replicate n 91 := by
  rw [String.toUTF8_eq_toByteArray, String.toByteArray_ofList]
  induction n with
  | zero => rfl
  | succ n ih =>
    rw [List.replicate_succ, List.utf8Encode_cons, ByteArray.toList_data_append, ih]
    rfl

theorem utf8ByteSize_brackets (n : Nat) :
    (String.ofList (List.replicate n '[')).utf8ByteSize = n := by
  rw [← String.size_toByteArray, ← String.toUTF8_eq_toByteArray, ByteArray.size,
    ← Array.length_toList, bytes_brackets, List.length_replicate]

/-- A line of opening brackets alone is given up before it shows that it is no request. -/
theorem receive_brackets {n : Nat} (h : Json.maxDepth < n) :
    receive (String.ofList (List.replicate n '[')) = .error .tooDeep := by
  -- four brackets tell the encoding
  obtain ⟨k, hk⟩ : ∃ k, n = k + 4 := ⟨n - 4, by rw [Json.maxDepth] at h; omega⟩
  have hdetect : Json.Encoding.detect (List.replicate n 91 ++ [10]) = .utf8 := by
    subst hk
    rfl
  have hdecode := Json.decode_line (String.ofList (List.replicate n '['))
    (by rw [bytes_brackets, hdetect]) (by subst hk; simp [List.replicate_succ])
  rw [receive, hdecode]
  simp only [parse, Json.parse_brackets h]

end Request

/-- Such a line breaks the session off, even while a transfer is under way. -/
theorem Session.handle_brackets {s : Session} (hreads : s.reads = true) {n : Nat}
    (hdeep : Json.maxDepth < n) (hsize : n ≤ maxLineBytes) :
    s.handle (String.ofList (List.replicate n '[')) = s.breakOff .tooDeep := by
  rw [handle, if_neg (by simp [hreads]), Request.utf8ByteSize_brackets,
    if_neg (Nat.not_lt.mpr hsize), Request.receive_brackets hdeep]

end Transfer

end PocketAsm
