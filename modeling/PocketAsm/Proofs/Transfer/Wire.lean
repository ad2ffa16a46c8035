/-
  Proofs/Transfer/Wire.lean --- what is written on the wire is read back.

  A request holds its pairs as JSON text inside a string, so they are written
  twice and read twice; a report holds a text of any characters.  Both are
  legible values, and each stands on one line, which is what tells it from the
  next one.  Two things do not go over the wire: a number with more digits than
  are written, and the difference between a character and its two halves.
-/
import PocketAsm.Proofs.Json.Values
import PocketAsm.Proofs.Json.Writable
import PocketAsm.Proofs.Transfer.Nesting

set_option autoImplicit false

namespace PocketAsm.Transfer

/-! ## Requests -/

namespace Request

/-- A request can be written if the numbers of its words and its delay can. -/
theorem isWritable_iff (words : List Word) (speed : Int) :
    isWritable words (.whole speed) = true ↔
      (∀ w ∈ words, Text.isWritable w.1 = true ∧ Text.isWritable w.2 = true) ∧
        Text.isWritable speed = true := by
  rw [isWritable, Bool.and_eq_true, pairs, Json.isWritable, Json.areWritable_iff,
    List.forall_mem_map]
  simp [Json.isWritable, Json.areWritable, Delay.json]

theorem legible_pairs {words : List Word}
    (h : ∀ w ∈ words, Text.isWritable w.1 = true ∧ Text.isWritable w.2 = true) (levels : Nat) :
    Json.Legible (levels + 2) (pairs words) := by
  refine .arr fun v hv => ?_
  obtain ⟨w, hw, rfl⟩ := List.mem_map.mp hv
  refine .arr fun n hn => ?_
  simp only [List.mem_cons, List.not_mem_nil, or_false] at hn
  rcases hn with rfl | rfl
  · exact .int (h w hw).1
  · exact .int (h w hw).2

/-- The pairs are the words again. -/
theorem wordsOf_pairs {words : List Word} (h : ∀ w ∈ words, 0 ≤ w.1 ∧ 0 ≤ w.2) :
    wordsOf (pairs words) = .ok words := by
  rw [pairs, wordsOf]
  induction words with
  | nil => rfl
  | cons w words ih =>
    have hw := h w List.mem_cons_self
    have hpair : pairOf (.arr [.int w.1, .int w.2]) = .ok w := by
      simp [pairOf, natural?, hw.1, hw.2]
    rw [List.map_cons, List.mapM_cons, hpair, ih fun v hv => h v (List.mem_cons_of_mem w hv)]
    rfl

/-- The members of a request. -/
theorem legible_data {words : List Word} {speed : Int} (hspeed : Text.isWritable speed = true)
    (levels : Nat) :
    Json.Legible (levels + 1) (.obj [("type", .str "data"), ("data", .str (pairs words).write),
      ("speed", (Delay.whole speed).json)]) := by
  have hkeys : [WideText.ofString "type", .ofString "data", .ofString "speed"].Nodup := by decide
  refine .obj hkeys ?_ ?_
  · simp only [List.forall_mem_cons, WideText.isApart_ofString, true_and]
    exact fun m hm => nomatch hm
  · simp only [List.forall_mem_cons]
    exact ⟨.str (WideText.isApart_ofString _), .str (WideText.isApart_ofString _), .int hspeed,
      fun m hm => nomatch hm⟩

/-- What is read from the line of a request hangs on the text of its pairs, whatever white space
follows it. -/
theorem parse_dataLine_eq (words : List Word) {speed : Int} (hspeed : 0 ≤ speed)
    (hwritable : Text.isWritable speed = true) (gap : String)
    (hgap : ∀ c ∈ gap.toList, Json.isSpace c = true) :
    parse (.ofString (dataLine words (.whole speed) ++ gap)) =
      match dataOf (.str (pairs words).write) with
      | .error e => .error e
      | .ok list =>
        match wordsOf list with
        | .error e => .error (.transfer e)
        | .ok words => .ok (.data words (.whole speed)) := by
  let members : Json.Members := [("type", .str "data"), ("data", .str (pairs words).write),
    ("speed", (Delay.whole speed).json)]
  have hread : Json.parse (.ofString (dataLine words (.whole speed) ++ gap)) = .ok (.obj members) :=
    Json.parse_write_append (legible_data hwritable 984) gap hgap
  have hdelay : delayOf (Delay.whole speed).json = .ok (.whole speed) := by
    rw [Delay.json, delayOf, if_neg (by omega)]
  have htype : Json.member? "type" members = some (.str "data") := rfl
  have hdata : Json.member? "data" members = some (.str (pairs words).write) := rfl
  have hspeed : Json.member? "speed" members = some (Delay.whole speed).json := rfl
  generalize hresult : parse _ = result
  rw [parse, hread] at hresult
  simp only [ofMembers, htype, hdata, hspeed, Option.getD_some, Json.string?,
    WideText.string?_ofString, hdelay] at hresult
  exact hresult.symm

/-- The line of a request is read back. -/
theorem parse_dataLine_append {words : List Word} {speed : Int}
    (hwords : ∀ w ∈ words, 0 ≤ w.1 ∧ 0 ≤ w.2) (hspeed : 0 ≤ speed)
    (hwritable : isWritable words (.whole speed) = true) (gap : String)
    (hgap : ∀ c ∈ gap.toList, Json.isSpace c = true) :
    parse (.ofString (dataLine words (.whole speed) ++ gap)) =
      .ok (.data words (.whole speed)) := by
  obtain ⟨hnumbers, hdelay⟩ := (isWritable_iff words speed).mp hwritable
  have hlist : dataOf (.str (pairs words).write) = .ok (pairs words) := by
    rw [dataOf, Json.parse_write (legible_pairs hnumbers 983)]
  rw [parse_dataLine_eq words hspeed hdelay gap hgap, hlist]
  simp only [wordsOf_pairs hwords]

/-- The line of a request begins with four characters of ASCII, which tell how it is encoded. -/
theorem exists_dataLine_eq (words : List Word) (delay : Delay) :
    ∃ cs, dataLine words delay = String.ofList ('\x7b' :: '\x22' :: 't' :: 'y' :: cs) := by
  have hline := Json.toList_write_obj [("type", .str "data"), ("data", .str (pairs words).write),
    ("speed", delay.json)]
  rw [List.map_cons, Json.intercalate_cons] at hline
  exact ⟨_, String.toList_injective (by rw [dataLine, hline, String.toList_ofList]; rfl)⟩

/-- A bridge that gets the line over a connection reads the request. -/
theorem receive_dataLine {words : List Word} {speed : Int}
    (hwords : ∀ w ∈ words, 0 ≤ w.1 ∧ 0 ≤ w.2) (hspeed : 0 ≤ speed)
    (hwritable : isWritable words (.whole speed) = true) :
    receive (dataLine words (.whole speed)) = .ok (.data words (.whole speed)) := by
  obtain ⟨cs, hcs⟩ := exists_dataLine_eq words (.whole speed)
  have hcons (c : Char) (cs : List Char) : (c :: cs).utf8Encode.data.toList =
      [c].utf8Encode.data.toList ++ cs.utf8Encode.data.toList := by
    rw [List.utf8Encode_cons, ByteArray.toList_data_append]
  have hbytes : (dataLine words (.whole speed)).toUTF8.data.toList =
      123 :: 34 :: 116 :: 121 :: cs.utf8Encode.data.toList := by
    rw [hcs, String.toUTF8_eq_toByteArray, String.toByteArray_ofList, hcons _ (_ :: _),
      hcons _ (_ :: _), hcons _ (_ :: _), hcons 'y']
    rfl
  have hdecode := Json.decode_line (dataLine words (.whole speed)) (by rw [hbytes]; rfl)
    (by rw [hcs]; simp)
  have hread := parse_dataLine_append hwords hspeed hwritable "\n" (by simp [Json.isSpace])
  rw [receive, hdecode]
  exact hread

theorem dataLine_inline (words : List Word) (speed : Int) :
    Json.IsInline (dataLine words (.whole speed)) := by
  refine Json.write_obj_inline ?_
  simp only [List.forall_mem_cons]
  exact ⟨Json.quote_inline _, Json.quote_inline _, Json.int_inline speed, fun m hm => nomatch hm⟩

end Request

/-! ## Reports -/

namespace Status

theorem legible_json {s : Status} (hmessage : s.message.IsApart)
    (hchecksum : Text.isWritable s.checksum = true) (levels : Nat) :
    Json.Legible (levels + 1) s.json := by
  have hkeys : [WideText.ofString "status", .ofString "message", .ofString "checksum"].Nodup := by
    decide
  refine .obj hkeys ?_ ?_
  · simp only [List.forall_mem_cons, WideText.isApart_ofString, true_and]
    exact fun m hm => nomatch hm
  · simp only [List.forall_mem_cons]
    exact ⟨.str (WideText.isApart_ofString _), .str hmessage, .int hchecksum,
      fun m hm => nomatch hm⟩

/-- The line of a report is read back. -/
theorem parse_line {s : Status} (hmessage : s.message.IsApart)
    (hchecksum : Text.isWritable s.checksum = true) : parse s.line = .ok s := by
  let members : Json.Members := [("status", .str s.kind.name), ("message", .str s.message),
    ("checksum", .int s.checksum)]
  have hread : Json.parse s.line = .ok (.obj members) :=
    Json.parse_write (legible_json hmessage hchecksum 984)
  have hkind : Json.member? "status" members = some (.str s.kind.name) := rfl
  have hmessage' : Json.member? "message" members = some (.str s.message) := rfl
  have hchecksum' : Json.member? "checksum" members = some (.int s.checksum) := rfl
  rw [parse, hread]
  simp only [hkind, hmessage', hchecksum', Option.bind_some, kindOf?, WideText.string?_ofString,
    StatusKind.ofName?_name, Option.getD_some, Json.integer, Json.asText]

theorem line_inline (s : Status) : Json.IsInline s.line := by
  refine Json.write_obj_inline ?_
  simp only [List.forall_mem_cons]
  exact ⟨Json.quote_inline _, Json.quote_inline _, Json.int_inline s.checksum,
    fun m hm => nomatch hm⟩

end Status

/-! ## Both formats -/

/-- Requests and reports come back from their lines, and no line holds a line feed.  The numbers
have to be such as are written at all, and the message has to tell halves from characters. -/
theorem lines_are_read_back :
    (∀ (words : List Word) (speed : Int), (∀ w ∈ words, 0 ≤ w.1 ∧ 0 ≤ w.2) → 0 ≤ speed →
      Request.isWritable words (.whole speed) = true →
      Request.parse (Request.dataLine words (.whole speed)) = .ok (.data words (.whole speed)) ∧
        Request.receive (Request.dataLine words (.whole speed)) =
          .ok (.data words (.whole speed))) ∧
    (∀ s : Status, s.message.IsApart → Text.isWritable s.checksum = true →
      Status.parse s.line = .ok s) ∧
    (∀ (words : List Word) (speed : Int),
      '\n' ∉ (Request.dataLine words (.whole speed)).toList) ∧
    ∀ s : Status, '\n' ∉ s.line.toList := by
  refine ⟨fun words speed hwords hspeed hwritable => ⟨?_, ?_⟩, fun s => Status.parse_line,
    fun words speed => (Request.dataLine_inline words speed).not_mem_newline,
    fun s => s.line_inline.not_mem_newline⟩
  · simpa using Request.parse_dataLine_append hwords hspeed hwritable "" (by simp)
  · exact Request.receive_dataLine hwords hspeed hwritable

/-- Two halves in the wrong order. -/
def swappedHalves : WideText :=
  ⟨[.half 0xDE00 (by decide), .half 0xD83D (by decide), .char '\n']⟩

theorem swapped_halves_are_read_back :
    Request.parse (Request.dataLine [(5, 4095), (0, 0)] (.whole 1500)) =
      .ok (.data [(5, 4095), (0, 0)] (.whole 1500)) ∧
    Status.parse (Status.line ⟨.cancelled, swappedHalves, -3⟩) =
      .ok ⟨.cancelled, swappedHalves, -3⟩ :=
  ⟨(lines_are_read_back.1 [(5, 4095), (0, 0)] 1500 (by decide) (by decide)
      (by decide +kernel)).1,
    lines_are_read_back.2.1 ⟨.cancelled, swappedHalves, -3⟩ (by decide) (by decide +kernel)⟩

/-! ## What does not go over the wire -/

/-- The text of pairs is not read if the first number is too long for a numeral. -/
theorem Request.parse_pairs_of_long {n : Nat} (h : Text.decimalBound ≤ n) (value : Int) :
    Json.parse (pairs [((n : Int), value)]).write = .error .malformed := by
  let rest : List CodePoint := (',' :: ' ' :: ((toString value).toList ++ [']', ']'])).map .char
  have hrest : Json.Stops rest := Json.stops_char rfl _
  have hnumeral : (Json.write (.int n)).toList = Nat.toDigits 10 n := by
    rw [Json.write, Text.toList_toString, if_neg (by omega), Int.natAbs_natCast]
  have htext : (pairs [((n : Int), value)]).write.toList = '[' :: '[' ::
      (Nat.toDigits 10 n ++ ',' :: ' ' :: ((toString value).toList ++ [']', ']'])) := by
    rw [pairs, Json.toList_write_arr]
    simp only [List.map_cons, List.map_nil, List.intercalate_singleton, Json.toList_write_arr,
      List.intercalate_cons_cons, hnumeral]
    simp [Json.write]
  have hpoints : (WideText.ofString (pairs [((n : Int), value)]).write).points =
      .char '[' :: .char '[' :: ((Nat.toDigits 10 n).map .char ++ rest) := by
    rw [WideText.ofString, htext]
    simp [rest]
  have hvalue (fuel : Nat) := Json.value_toDigits_of_le 983 h fuel hrest
  obtain ⟨d, ds, hds, hdigit⟩ := Text.exists_digit_cons n
  rw [hds, List.map_cons, List.cons_append] at hpoints hvalue
  -- two arrays are opened before the numeral is met
  have hinner (fuel : Nat) :=
    (Json.value_arr (Json.skipSpace_of_not_space (Json.isSpace_of_isDigit hdigit) _)
      (Text.ne_of_isDigit hdigit rfl) (fuel + 1) 983).trans (Json.items_of_error (hvalue fuel) [])
  have houter (fuel : Nat) :=
    (Json.value_arr (Json.skipSpace_of_not_space (c := '[') rfl _) (by decide) (fuel + 3)
      984).trans (Json.items_of_error (hinner fuel) [])
  obtain ⟨fuel, hfuel⟩ : ∃ fuel, 2 * (CodePoint.char '[' :: .char '[' :: .char d ::
      (ds.map .char ++ rest)).length + 2 = fuel + 3 + 1 :=
    ⟨2 * (ds.map CodePoint.char ++ rest).length + 4, by simp only [List.length_cons]; omega⟩
  rw [Json.parse, hpoints, Json.skipSpace_of_not_space (c := '[') rfl, hfuel, Json.maxDepth,
    houter fuel]

/-- A request with a number that is too long for a numeral is not read at all. -/
theorem Request.parse_dataLine_of_long {n : Nat} (h : Text.decimalBound ≤ n) {speed : Int}
    (hspeed : 0 ≤ speed) (hwritable : Text.isWritable speed = true) :
    parse (dataLine [((n : Int), 0)] (.whole speed)) = .error (.transfer .badData) := by
  have hlist : dataOf (.str (pairs [((n : Int), 0)]).write) = .error (.transfer .badData) := by
    rw [dataOf, parse_pairs_of_long h]
  have hread := parse_dataLine_eq [((n : Int), 0)] hspeed hwritable "" (by simp)
  rw [hlist] at hread
  simpa using hread

/-- A character in its two halves. -/
def splitCharacter : WideText := ⟨[.half 0xD83D (by decide), .half 0xDE00 (by decide)]⟩

theorem long_number_and_split_character_are_lost :
    Request.isWritable [((Text.decimalBound : Int), 0)] (.whole 0) = false ∧
    Request.parse (Request.dataLine [((Text.decimalBound : Int), 0)] (.whole 0)) ≠
      .ok (.data [((Text.decimalBound : Int), 0)] (.whole 0)) ∧
    Status.parse (Status.line ⟨.sending, splitCharacter, 0⟩) ≠
      .ok ⟨.sending, splitCharacter, 0⟩ := by
  have hlong := Request.parse_dataLine_of_long (Nat.le_refl Text.decimalBound)
    (Int.le_refl 0) (by decide +kernel)
  refine ⟨by decide +kernel, ?_, by decide +kernel⟩
  rw [hlong]
  exact fun h => nomatch h

end PocketAsm.Transfer
