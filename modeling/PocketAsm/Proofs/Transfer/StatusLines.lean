/-
  Proofs/Transfer/StatusLines.lean --- what a client makes of the lines it gets.

  A line that comes back is a report, or it is rejected (`Status.parse_eq_ok`),
  and two kinds of lines are neither: lines whose values nest too deep, and
  reports whose checksum is beyond every number (`Status.Escapes`).  The reading
  of a line is total but for these (`Status.parse_cases`), and by induction on
  the lines so is that of a whole answer (`Client.reports_of_front`,
  `Client.cause_of_error`).
-/
import PocketAsm.Proofs.Transfer.Nesting
import PocketAsm.Proofs.Transfer.Wire
import PocketAsm.Transfer.Client

set_option autoImplicit false

namespace PocketAsm

/-! ## Values as integers -/

namespace Json

/-- An integer is too great to be computed only if it is to be that of an infinite number. -/
theorem integer_eq_overflow {v : Json} :
    v.integer = .error .overflow ↔ ∃ negative, v = .real (.infinite negative) := by
  constructor
  · intro h
    cases v with
    | real x =>
      cases x with
      | finite negative m e => cases h
      | infinite negative => exact ⟨negative, rfl⟩
      | nan => cases h
    | str s =>
      rw [integer] at h
      split at h <;> cases h
    | _ => cases h
  · rintro ⟨negative, rfl⟩
    rfl

end Json

namespace Transfer

namespace Status

variable {line : WideText} {kind : StatusKind} {message checksum : Json}

/-! ## One line -/

/-- The line holds an object with the name of a kind, a message and a checksum, which is zero if
there is none. -/
def Holds (line : WideText) (kind : StatusKind) (message checksum : Json) : Prop :=
  ∃ members, Json.parse line = .ok (.obj members) ∧
    (Json.member? "status" members).bind kindOf? = some kind ∧
    Json.member? "message" members = some message ∧
    (Json.member? "checksum" members).getD (.int 0) = checksum

/-- Why a line is neither read nor rejected. -/
inductive Escapes (line : WideText) : Failure → Prop
  | deep (h : Json.parse line = .error .tooDeep) : Escapes line .tooDeep
  | infinite {kind : StatusKind} {message : Json} {negative : Bool}
      (h : Holds line kind message (.real (.infinite negative))) :
      Escapes line (.arithmetic .overflow)

namespace Holds

variable (h : Holds line kind message checksum)

include h

theorem parse_of_ok {n : Int} (hchecksum : checksum.integer = .ok n) :
    parse line = .ok ⟨kind, message.asText, n⟩ := by
  obtain ⟨members, hread, hkind, hmessage, rfl⟩ := h
  simp only [parse, hread, hkind, hmessage, hchecksum]

theorem parse_of_overflow (hchecksum : checksum.integer = .error .overflow) :
    parse line = .error (.arithmetic .overflow) := by
  obtain ⟨members, hread, hkind, hmessage, rfl⟩ := h
  simp only [parse, hread, hkind, hmessage, hchecksum]

/-- A checksum that is no integer is that of no report, unless it is too great. -/
theorem parse_of_error {e : NumberFault} (hchecksum : checksum.integer = .error e)
    (he : e ≠ .overflow) : parse line = .error (.transfer .badStatus) := by
  obtain ⟨members, hread, hkind, hmessage, rfl⟩ := h
  simp only [parse, hread, hkind, hmessage, hchecksum]

end Holds

/-- A line holds a report, or it nests too deep, or it is rejected. -/
theorem holds_or (line : WideText) :
    (∃ kind message checksum, Holds line kind message checksum) ∨
      Json.parse line = .error .tooDeep ∨ parse line = .error (.transfer .badStatus) := by
  cases hread : Json.parse line with
  | error e =>
    cases e with
    | tooDeep => exact .inr (.inl rfl)
    | malformed => exact .inr (.inr (by simp only [parse, hread]))
  | ok v =>
    cases v with
    | obj members =>
      cases hkind : (Json.member? "status" members).bind kindOf? with
      | none => exact .inr (.inr (by simp only [parse, hread, hkind]))
      | some kind =>
        cases hmessage : Json.member? "message" members with
        | none => exact .inr (.inr (by simp only [parse, hread, hkind, hmessage]))
        | some message => exact .inl ⟨kind, message, _, members, hread, hkind, hmessage, rfl⟩
    | _ => exact .inr (.inr (by simp only [parse, hread]))

/-- A line is read, or rejected, or it escapes. -/
theorem parse_cases (line : WideText) :
    (∃ kind message checksum n, Holds line kind message checksum ∧ checksum.integer = .ok n ∧
      parse line = .ok ⟨kind, message.asText, n⟩) ∨
    parse line = .error (.transfer .badStatus) ∨ ∃ e, Escapes line e ∧ parse line = .error e := by
  rcases holds_or line with ⟨kind, message, checksum, hholds⟩ | hdeep | hbad
  · cases hinteger : checksum.integer with
    | ok n =>
      exact .inl ⟨kind, message, checksum, n, hholds, hinteger, hholds.parse_of_ok hinteger⟩
    | error e =>
      by_cases he : e = .overflow
      · subst he
        obtain ⟨negative, rfl⟩ := Json.integer_eq_overflow.mp hinteger
        exact .inr (.inr ⟨_, .infinite hholds, hholds.parse_of_overflow hinteger⟩)
      · exact .inr (.inl (hholds.parse_of_error hinteger he))
  · exact .inr (.inr ⟨_, .deep hdeep, by simp only [parse, hdeep]⟩)
  · exact .inr (.inl hbad)

theorem Escapes.parse_eq {e : Failure} (h : Escapes line e) : parse line = .error e := by
  cases h with
  | deep hdeep => simp only [parse, hdeep]
  | infinite hholds => exact hholds.parse_of_overflow rfl

theorem Escapes.ne_badStatus {e : Failure} (h : Escapes line e) : e ≠ .transfer .badStatus := by
  rintro rfl
  cases h

/-- A line is read as a report if it holds one, and its checksum is an integer. -/
theorem parse_eq_ok {s : Status} :
    parse line = .ok s ↔ ∃ message checksum, Holds line s.kind message checksum ∧
      message.asText = s.message ∧ checksum.integer = .ok s.checksum := by
  constructor
  · intro h
    rcases parse_cases line with ⟨kind, message, checksum, n, hholds, hinteger, hparse⟩ | hbad |
      ⟨e, -, he⟩
    · rw [hparse] at h
      cases h
      exact ⟨message, checksum, hholds, rfl, hinteger⟩
    · rw [hbad] at h
      cases h
    · rw [he] at h
      cases h
  · rintro ⟨message, checksum, hholds, hmessage, hinteger⟩
    rw [hholds.parse_of_ok hinteger, hmessage]

/-- Lines that do not escape are those that are read or rejected. -/
theorem not_escapes_iff : (¬∃ e, Escapes line e) ↔
    (∃ s, parse line = .ok s) ∨ parse line = .error (.transfer .badStatus) := by
  constructor
  · intro hnone
    rcases parse_cases line with ⟨kind, message, checksum, n, -, -, hparse⟩ | hbad |
      ⟨e, hescapes, -⟩
    · exact .inl ⟨_, hparse⟩
    · exact .inr hbad
    · exact absurd ⟨e, hescapes⟩ hnone
  · rintro (⟨s, hs⟩ | hbad) ⟨e, hescapes⟩
    · rw [hescapes.parse_eq] at hs
      cases hs
    · rw [hescapes.parse_eq] at hbad
      exact hescapes.ne_badStatus (Except.error.inj hbad)

/-- A line of opening brackets alone escapes once it has more of them than arrays may stand inside
one another. -/
theorem escapes_brackets {n : Nat} (h : Json.maxDepth < n) :
    Escapes (.ofString (String.ofList (List.replicate n '[') ++ "\n")) .tooDeep :=
  .deep (Json.parse_brackets h)

/-- The members of a report. -/
def members (kind : StatusKind) (message : WideText) (checksum : Json) : Json.Members :=
  [("status", .str kind.name), ("message", .str message), ("checksum", checksum)]

theorem holds_of_members {message : WideText}
    (h : Json.parse line = .ok (.obj (members kind message checksum))) :
    Holds line kind (.str message) checksum := by
  refine ⟨_, h, ?_, rfl, rfl⟩
  change kindOf? (.str kind.name) = some kind
  rw [kindOf?, WideText.string?_ofString, Option.bind_some, StatusKind.ofName?_name]

/-- Reports of every kind escape, with any message, if their checksum is infinite. -/
theorem escapes_infinite (kind : StatusKind) {message : WideText} (hmessage : message.IsApart)
    (negative : Bool) :
    Escapes (Json.write (.obj (members kind message (.real (.infinite negative)))))
      (.arithmetic .overflow) := by
  have hchecksum : Json.Reads 984 (.real (.infinite negative))
      (Json.write (.real (.infinite negative))).toList := by
    cases negative
    · exact Json.reads_of_word? _ (by decide) fun rest _ => rfl
    · exact Json.reads_of_word? _ (by decide) fun rest _ => rfl
  have hmembers : List.Forall₂ (Json.ReadsMember 984)
      (members kind message (.real (.infinite negative)))
      ((members kind message (.real (.infinite negative))).map fun m =>
        (Json.quote m.1).toList ++ ':' :: ' ' :: (Json.write m.2).toList) :=
    .cons ⟨WideText.isApart_ofString _, _, rfl, Json.reads_str _ (WideText.isApart_ofString _)⟩
      (.cons ⟨WideText.isApart_ofString _, _, rfl, Json.reads_str _ hmessage⟩
        (.cons ⟨WideText.isApart_ofString _, _, rfl, hchecksum⟩ .nil))
  have hkeys : [WideText.ofString "status", .ofString "message", .ofString "checksum"].Nodup := by
    decide
  have hreads := Json.reads_obj Json.isGap_nil Json.isGap_blank Json.isGap_nil hmembers hkeys
  have hparse := Json.parse_of_reads (by rw [Json.toList_write_obj]; exact hreads) "" Json.isGap_nil
  rw [String.append_empty] at hparse
  exact .infinite (holds_of_members hparse)

end Status

/-! ## A whole answer -/

namespace Client

open Status

variable {lines : List String}

/-- A client stops at a line that it cannot read and at a final report; else it reads on. -/
theorem readReports_cons (line : String) (lines : List String) :
    (maxLineBytes < line.utf8ByteSize ∧ readReports (line :: lines) = ([], .error .longLine)) ∨
    (∃ e, Status.parse line = .error e ∧ readReports (line :: lines) = ([], .error e)) ∨
    (∃ s, Status.parse line = .ok s ∧ s.finished = true ∧
      readReports (line :: lines) = ([s], .ok s)) ∨
    (∃ s, Status.parse line = .ok s ∧ s.finished = false ∧
      readReports (line :: lines) = (s :: (readReports lines).1, (readReports lines).2)) := by
  rw [readReports]
  by_cases hlong : maxLineBytes < line.utf8ByteSize
  · exact .inl ⟨hlong, if_pos hlong⟩
  · rw [if_neg hlong]
    cases hparse : Status.parse line with
    | error e => exact .inr (.inl ⟨e, rfl, rfl⟩)
    | ok s =>
      cases hs : s.finished with
      | true => exact .inr (.inr (.inl ⟨s, rfl, hs, by simp only [hs, if_true]⟩))
      | false => exact .inr (.inr (.inr ⟨s, rfl, hs, by simp only [hs]; rfl⟩))

/-- The reports are those of the first lines, in their order. -/
theorem reports_of_front (lines : List String) :
    ∃ front, front <+: lines ∧
      List.Forall₂ (fun (line : String) s => Status.parse line = .ok s) front
        (readReports lines).1 := by
  induction lines with
  | nil => exact ⟨[], List.prefix_refl _, .nil⟩
  | cons line lines ih =>
    rcases readReports_cons line lines with ⟨-, h⟩ | ⟨e, -, h⟩ | ⟨s, hs, -, h⟩ | ⟨s, hs, -, h⟩
    · exact ⟨[], List.nil_prefix, by rw [h]; exact .nil⟩
    · exact ⟨[], List.nil_prefix, by rw [h]; exact .nil⟩
    · exact ⟨[line], by simp, by rw [h]; exact .cons hs .nil⟩
    · obtain ⟨front, hfront, hreports⟩ := ih
      exact ⟨line :: front, List.cons_prefix_cons.mpr ⟨rfl, hfront⟩, by
        rw [h]; exact .cons hs hreports⟩

/-- What a transfer ends with is the last report, and the only final one. -/
theorem reports_of_ok {status : Status} (h : (readReports lines).2 = .ok status) :
    status.finished = true ∧ ∃ earlier, (readReports lines).1 = earlier ++ [status] ∧
      ∀ s ∈ earlier, s.finished = false := by
  induction lines with
  | nil => cases h
  | cons line lines ih =>
    rcases readReports_cons line lines with ⟨-, hline⟩ | ⟨e, -, hline⟩ | ⟨s, -, hs, hline⟩ |
      ⟨s, -, hs, hline⟩
    · rw [hline] at h
      cases h
    · rw [hline] at h
      cases h
    · rw [hline] at h ⊢
      cases h
      exact ⟨hs, [], rfl, by simp⟩
    · rw [hline] at h ⊢
      obtain ⟨hfinal, earlier, hreports, hearlier⟩ := ih h
      exact ⟨hfinal, s :: earlier, by rw [hreports]; rfl,
        List.forall_mem_cons.mpr ⟨hs, hearlier⟩⟩

/-- A transfer fails if a line fails, or if there is no final report. -/
theorem cause_of_error {e : Failure} (h : (readReports lines).2 = .error e) :
    e = .transfer .hungUp ∨ ∃ line ∈ lines,
      (maxLineBytes < line.utf8ByteSize ∧ e = .longLine) ∨ Status.parse line = .error e := by
  induction lines with
  | nil => exact .inl (Except.error.inj h).symm
  | cons line lines ih =>
    rcases readReports_cons line lines with ⟨hlong, hline⟩ | ⟨e', he, hline⟩ | ⟨s, -, -, hline⟩ |
      ⟨s, -, -, hline⟩
    · rw [hline] at h
      exact .inr ⟨line, List.mem_cons_self, .inl ⟨hlong, (Except.error.inj h).symm⟩⟩
    · rw [hline] at h
      exact .inr ⟨line, List.mem_cons_self, .inr (Except.error.inj h ▸ he)⟩
    · rw [hline] at h
      cases h
    · rw [hline] at h
      refine (ih h).imp_right ?_
      rintro ⟨later, hlater, hcause⟩
      exact ⟨later, List.mem_cons_of_mem line hlater, hcause⟩

end Client

/-- A line is read as a report just if it holds one, with the name of a kind, a message and a
checksum that stands for an integer.  Whatever else it holds it is rejected; only lines that nest
too deep and reports with an infinite checksum fail in another way.  Where no line of an answer
does, and none is too long, the client ends with the last report that it got, which is the only
final one, or with a fault: the connection broke off, or a line is no report. -/
theorem answers_are_read_or_rejected (line : WideText) (lines : List String) :
    (∀ s : Status, Status.parse line = .ok s ↔
      ∃ message checksum, Status.Holds line s.kind message checksum ∧
        message.asText = s.message ∧ checksum.integer = .ok s.checksum) ∧
    ((¬∃ e, Status.Escapes line e) ↔
      (∃ s, Status.parse line = .ok s) ∨ Status.parse line = .error (.transfer .badStatus)) ∧
    (∀ e, Status.Escapes line e → Status.parse line = .error e) ∧
    ((∀ line ∈ lines, line.utf8ByteSize ≤ maxLineBytes ∧ ¬∃ e, Status.Escapes line e) →
      ∃ front, front <+: lines ∧
        List.Forall₂ (fun (line : String) s => Status.parse line = .ok s) front
          (Client.readReports lines).1 ∧
        ((∃ earlier s, (Client.readReports lines).1 = earlier ++ [s] ∧
            (∀ s ∈ earlier, s.finished = false) ∧ s.finished = true ∧
            (Client.readReports lines).2 = .ok s) ∨
          (Client.readReports lines).2 = .error (.transfer .hungUp) ∨
          (Client.readReports lines).2 = .error (.transfer .badStatus))) := by
  refine ⟨fun s => Status.parse_eq_ok, Status.not_escapes_iff, fun e => Status.Escapes.parse_eq,
    fun hlines => ?_⟩
  obtain ⟨front, hfront, hreports⟩ := Client.reports_of_front lines
  refine ⟨front, hfront, hreports, ?_⟩
  cases houtcome : (Client.readReports lines).2 with
  | ok s =>
    obtain ⟨hfinal, earlier, hearlier, hsending⟩ := Client.reports_of_ok houtcome
    exact .inl ⟨earlier, s, hearlier, hsending, hfinal, rfl⟩
  | error e =>
    rcases Client.cause_of_error houtcome with rfl | ⟨line, hline, ⟨hlong, -⟩ | hparse⟩
    · exact .inr (.inl rfl)
    · exact absurd hlong (Nat.not_lt.mpr (hlines line hline).1)
    · rcases Status.not_escapes_iff.mp (hlines line hline).2 with ⟨s, hs⟩ | hbad
      · rw [hparse] at hs
        cases hs
      · exact .inr (.inr (hparse ▸ hbad))

/-- An answer with a report that has its checksum as a text, one that has it as a fraction, and a
line behind them that is no report and is not read any more. -/
theorem answer_is_read_to_final_report :
    let lines := ["\x7b\"status\": \"sending\", \"message\": null, \"checksum\": \" 1_0 \"\x7d",
      "\x7b\"status\": \"complete\", \"message\": [1], \"checksum\": -2.5e0\x7d", "[["]
    ∃ earlier, (Client.readReports lines).1 = earlier ++ [⟨.complete, "[1]", -2⟩] ∧
      ∀ s ∈ earlier, s.finished = false := by
  intro lines
  have hread (line : String) (s : Status) (h : Status.parse line = .ok s) :
      ¬∃ e, Status.Escapes line e :=
    Status.not_escapes_iff.mpr (.inl ⟨s, h⟩)
  obtain ⟨hsending, hcomplete, houtcome⟩ :
      Status.parse lines[0] = .ok ⟨.sending, "None", 10⟩ ∧
        Status.parse lines[1] = .ok ⟨.complete, "[1]", -2⟩ ∧
        (Client.readReports lines).2 = .ok ⟨.complete, "[1]", -2⟩ := by
    decide +kernel
  have hlines : ∀ line ∈ lines,
      line.utf8ByteSize ≤ maxLineBytes ∧ ¬∃ e, Status.Escapes line e := by
    simp only [lines, List.forall_mem_cons]
    exact ⟨⟨by decide, hread _ _ hsending⟩, ⟨by decide, hread _ _ hcomplete⟩,
      ⟨by decide, Status.not_escapes_iff.mpr (.inr (by decide +kernel))⟩, by simp⟩
  obtain ⟨-, -, -, hanswer⟩ := answers_are_read_or_rejected "[[" lines
  obtain ⟨front, -, -, ⟨earlier, s, hreports, hearlier, -, hs⟩ | hbroken | hbad⟩ := hanswer hlines
  · rw [houtcome] at hs
    exact ⟨earlier, Except.ok.inj hs ▸ hreports, hearlier⟩
  · rw [houtcome] at hbroken
    cases hbroken
  · rw [houtcome] at hbad
    cases hbad

/-- A report with a checksum beyond all numbers is neither read nor rejected. -/
theorem infinite_checksum_is_not_rejected :
    Status.parse "\x7b\"status\": \"complete\", \"message\": \"done\", \"checksum\": 1e999\x7d" =
      .error (.arithmetic .overflow) := by
  decide +kernel

end Transfer

end PocketAsm
