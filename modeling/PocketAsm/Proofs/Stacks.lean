/-
  Proofs/Stacks.lean --- what is put on a stack comes off in the other order.

  Both stacks grow downwards and wrap around the address space; that of the V8
  grows past the place where its pointer is kept.  What a stack holds is
  described by places counted from its first pointer (`V8.Holding`,
  `Bitzzy.Holding`): putting a value on fills the next place and taking one off
  gives it back (`Holding.push`, `Holding.pop`), as long as no place is used
  twice.  By induction over the values they all come back (`takeOff_of_holding`).
-/
import PocketAsm.Isa.Bitzzy.Machine
import PocketAsm.Isa.V8.Machine
import Mathlib.Tactic

set_option autoImplicit false

namespace PocketAsm

/-! ## Sequences of pushes and pops -/

section Sequences

variable {σ α β : Type}

/-- Takes so many values off a stack; the one that comes off first is the first of the list. -/
def takeOff (pop : σ → α × σ) : Nat → σ → List α × σ
  | 0, s => ([], s)
  | n + 1, s =>
    let (value, s) := pop s
    let (values, s) := takeOff pop n s
    (value :: values, s)

variable (push : σ → β → σ) (pop : σ → α × σ) {f : β → α} (Holding : σ → List β → Prop)

/-- If taking a value off gives back the one that the stack holds last, all values come back, the
last one first. -/
theorem takeOff_of_holding
    (hpop : ∀ s values v, Holding s (values ++ [v]) →
      (pop s).1 = f v ∧ Holding (pop s).2 values) (values : List β) :
    ∀ s, Holding s values →
      (takeOff pop values.length s).1 = (values.map f).reverse ∧
        Holding (takeOff pop values.length s).2 [] := by
  induction values using List.reverseRecOn with
  | nil => exact fun s h => ⟨rfl, h⟩
  | append_singleton values v ih =>
    intro s h
    obtain ⟨hvalue, hrest⟩ := hpop s values v h
    obtain ⟨hvalues, hempty⟩ := ih _ hrest
    rw [List.length_append, List.length_singleton, takeOff, List.map_append, List.reverse_append]
    exact ⟨congrArg₂ List.cons hvalue hvalues, hempty⟩

/-- If putting a value on makes the stack hold it after the others, as long as there are no more
than so many, it holds all values in the end. -/
theorem holding_of_pushes {limit : Nat}
    (hpush : ∀ s values v, values.length < limit → Holding s values →
      Holding (push s v) (values ++ [v])) (values : List β) (hlength : values.length ≤ limit)
    {s : σ} (h : Holding s []) : Holding (values.foldl push s) values := by
  induction values using List.reverseRecOn with
  | nil => exact h
  | append_singleton values v ih =>
    rw [List.length_append, List.length_singleton] at hlength
    rw [List.foldl_append]
    exact hpush _ _ _ (by omega) (ih (by omega))

end Sequences

/-! ## The stack of the V8 -/

namespace V8

/-- The place of a value on the stack, counted from the first one. -/
def stackPlace (sp i : Nat) : Int := ((sp : Int) - i) % 256

/-- The stack, which was empty in a state before, holds these values, the latest one last.  Apart
from so many places and from the stack pointer nothing has changed. -/
structure Holding (before : State) (limit : Nat) (s : State) (values : List Nat) : Prop where
  length : values.length ≤ limit
  pointer : (s.sp : Int) = stackPlace before.sp values.length
  values : ∀ i v, values[i]? = some v → s.memory.read (stackPlace before.sp i) = v % 256
  memory : ∀ a, a ≠ 0x7F → (∀ i < limit, a ≠ stackPlace before.sp i) →
    s.memory.read a = before.memory.read a
  others : s = { before with memory := s.memory }

section

variable {before s : State} {limit : Nat} {values : List Nat}

/-- If no place is that of the stack pointer, the places do not wrap around onto each other. -/
theorem limit_lt {sp : Nat} (hfree : ∀ i < limit, stackPlace sp i ≠ 0x7F) : limit < 256 := by
  by_contra hlimit
  have hplace : stackPlace sp (((sp : Int) - 0x7F) % 256).toNat = 0x7F := by
    rw [stackPlace]
    omega
  exact hfree _ (by omega) hplace

theorem stackPlace_inj {sp i j : Nat} (hi : i < 256) (hj : j < 256)
    (h : stackPlace sp i = stackPlace sp j) : i = j := by
  simp only [stackPlace] at h
  omega

theorem holding_start (hsp : s.sp < 256) : Holding s limit s [] where
  length := Nat.zero_le _
  pointer := by
    rw [stackPlace, List.length_nil]
    omega
  values i v h := by simp at h
  memory _ _ _ := rfl
  others := rfl

/-- A value that is put on fills the next place. -/
theorem Holding.push (hfree : ∀ i < limit, stackPlace before.sp i ≠ 0x7F)
    (hlength : values.length < limit) (h : Holding before limit s values) (v : Nat) :
    Holding before limit (s.push v) (values ++ [v]) := by
  have hlimit := limit_lt hfree
  have hplace : ((s.sp % 256 : Nat) : Int) = stackPlace before.sp values.length := by
    have hpointer := h.pointer
    rw [stackPlace] at hpointer ⊢
    omega
  have hread (a : Int) : (s.push v).memory.read a =
      if 0x7F = a then (s.sp + 255) % 256
      else if stackPlace before.sp values.length = a then v % 256 else s.memory.read a := by
    rw [← hplace]
    exact (Memory.read_write _ _ _ _).trans (congrArg _ (Memory.read_write _ _ _ _))
  refine ⟨by simpa using hlength, ?_, fun i w hw => ?_, fun a ha hfar => ?_, ?_⟩
  · have hsp : (s.push v).sp = (s.sp + 255) % 256 := (hread 0x7F).trans (if_pos rfl)
    rw [hsp, List.length_append, List.length_singleton]
    simp only [stackPlace] at hplace ⊢
    omega
  · have hi : i < values.length + 1 := by
      simpa using (List.getElem?_eq_some_iff.mp hw).1
    rw [hread, if_neg (hfree i (by omega)).symm]
    rcases Nat.lt_succ_iff_lt_or_eq.mp hi with hlt | rfl
    · have hne : stackPlace before.sp values.length ≠ stackPlace before.sp i :=
        fun heq => hlt.ne (stackPlace_inj (by omega) (by omega) heq).symm
      rw [List.getElem?_append_left hlt] at hw
      rw [if_neg hne, h.values i w hw]
    · obtain rfl : v = w := by simpa using hw
      rw [if_pos rfl]
  · rw [hread, if_neg ha.symm, if_neg (hfar _ hlength).symm, h.memory a ha hfar]
  · change { s with memory := (s.push v).memory } = _
    rw [h.others]

/-- A value that is taken off is the one in the last place. -/
theorem Holding.pop (hfree : ∀ i < limit, stackPlace before.sp i ≠ 0x7F) {v : Nat}
    (h : Holding before limit s (values ++ [v])) :
    s.pop.1 = v % 256 ∧ Holding before limit s.pop.2 values := by
  have hlength : values.length < limit := by simpa using h.length
  have hplace : (((s.sp + 1) % 256 : Nat) : Int) = stackPlace before.sp values.length := by
    have hpointer := h.pointer
    simp only [stackPlace, List.length_append, List.length_singleton] at hpointer ⊢
    omega
  have hread (a : Int) : s.pop.2.memory.read a =
      if 0x7F = a then (s.sp + 1) % 256 else s.memory.read a := by
    refine (Memory.read_write _ _ _ _).trans ?_
    rw [Nat.mod_mod]
    rfl
  have hvalues : ∀ i w, (values ++ [v])[i]? = some w →
      s.pop.2.memory.read (stackPlace before.sp i) = w % 256 := by
    intro i w hw
    have hi := (List.getElem?_eq_some_iff.mp hw).1
    rw [hread, if_neg (hfree i (lt_of_lt_of_le hi h.length)).symm, h.values i w hw]
  refine ⟨?_, hlength.le, ?_, fun i w hw => ?_, fun a ha hfar => ?_, ?_⟩
  · have htop : s.pop.1 = s.pop.2.memory.read (((s.sp + 1) % 256 % 256 : Nat) : Int) := rfl
    rw [htop, Nat.mod_mod, hplace]
    exact hvalues _ v (by simp)
  · have hsp : s.pop.2.sp = (s.sp + 1) % 256 := (hread 0x7F).trans (if_pos rfl)
    rw [hsp, hplace]
  · have hi := (List.getElem?_eq_some_iff.mp hw).1
    exact hvalues i w (by rwa [List.getElem?_append_left hi])
  · rw [hread, if_neg ha.symm, h.memory a ha hfar]
  · change { s with memory := s.pop.2.memory } = _
    rw [h.others]

end

end V8

/-! ## The stack of the Bitzzy -/

namespace Bitzzy

/-- The place of the upper byte of a value on the stack, counted from the first one; the lower byte
lies below it. -/
def stackPlace (sp i : Nat) : Int := ((sp : Int) - 2 * i) % 65536

/-- The stack, which was empty with this pointer, holds these values, the latest one last. -/
structure Holding (sp : Nat) (s : State) (values : List Int) : Prop where
  pointer : (s.sp : Int) = stackPlace sp values.length
  upper : ∀ i v, values[i]? = some v →
    (s.memory.read (stackPlace sp i) : Int) = v / 256 % 256
  lower : ∀ i v, values[i]? = some v →
    (s.memory.read ((stackPlace sp i - 1) % 65536) : Int) = v % 256

section

variable {sp : Nat} {s : State} {values : List Int}

theorem holding_start (hsp : s.sp < 65536) : Holding s.sp s [] where
  pointer := by
    rw [stackPlace, List.length_nil]
    omega
  upper i v h := by simp at h
  lower i v h := by simp at h

/-- The bytes of two values lie in different places. -/
theorem stackPlace_ne {i j : Nat} (hij : i < j) (hj : j < 32768) :
    stackPlace sp j ≠ stackPlace sp i ∧ stackPlace sp j ≠ (stackPlace sp i - 1) % 65536 ∧
      (stackPlace sp j - 1) % 65536 ≠ stackPlace sp i ∧
      (stackPlace sp j - 1) % 65536 ≠ (stackPlace sp i - 1) % 65536 := by
  simp only [stackPlace]
  omega

/-- A value that is put on fills the next place. -/
theorem Holding.push (hlength : values.length < 32768) (h : Holding sp s values) (v : Int) :
    Holding sp (s.push v) (values ++ [v]) := by
  have hpointer := h.pointer
  have hupper : ((s.sp % 65536 : Nat) : Int) = stackPlace sp values.length := by
    rw [stackPlace] at hpointer ⊢
    omega
  have hlower : (((s.sp + 65535) % 65536 : Nat) : Int) =
      (stackPlace sp values.length - 1) % 65536 := by
    rw [stackPlace] at hpointer ⊢
    omega
  have hread (a : Int) : (s.push v).memory.read a =
      if (stackPlace sp values.length - 1) % 65536 = a then (v % 256).toNat % 256
      else if stackPlace sp values.length = a then (v / 256 % 256).toNat % 256
      else s.memory.read a := by
    rw [← hlower, ← hupper]
    exact (Memory.read_write _ _ _ _).trans (congrArg _ (Memory.read_write _ _ _ _))
  have hcases {i : Nat} {w : Int} (hw : (values ++ [v])[i]? = some w) :
      (i < values.length ∧ values[i]? = some w) ∨ i = values.length ∧ v = w := by
    have hi : i < values.length + 1 := by simpa using (List.getElem?_eq_some_iff.mp hw).1
    rcases Nat.lt_succ_iff_lt_or_eq.mp hi with hlt | rfl
    · exact .inl ⟨hlt, by rwa [List.getElem?_append_left hlt] at hw⟩
    · exact .inr ⟨rfl, by simpa using hw⟩
  refine ⟨?_, fun i w hw => ?_, fun i w hw => ?_⟩
  · have hsp : (s.push v).sp = (s.sp + 65534) % 65536 := rfl
    rw [hsp, List.length_append, List.length_singleton]
    simp only [stackPlace] at hupper ⊢
    omega
  · rw [hread]
    rcases hcases hw with ⟨hlt, hold⟩ | ⟨rfl, rfl⟩
    · obtain ⟨hne, -, hne', -⟩ := stackPlace_ne hlt hlength
      rw [if_neg hne', if_neg hne, h.upper i w hold]
    · have hne : (stackPlace sp values.length - 1) % 65536 ≠ stackPlace sp values.length := by
        rw [stackPlace]
        omega
      rw [if_neg hne, if_pos rfl]
      omega
  · rw [hread]
    rcases hcases hw with ⟨hlt, hold⟩ | ⟨rfl, rfl⟩
    · obtain ⟨-, hne, -, hne'⟩ := stackPlace_ne hlt hlength
      rw [if_neg hne', if_neg hne, h.lower i w hold]
    · rw [if_pos rfl]
      omega

/-- A value that is taken off is the one in the last place, modulo the numbers of sixteen bits. -/
theorem Holding.pop {v : Int} (h : Holding sp s (values ++ [v])) :
    s.pop.1 = (v % 65536).toNat ∧ Holding sp s.pop.2 values := by
  have hpointer := h.pointer
  rw [List.length_append, List.length_singleton] at hpointer
  have hplace : (((s.sp + 2) % 65536 : Nat) : Int) = stackPlace sp values.length := by
    simp only [stackPlace] at hpointer ⊢
    omega
  have hlast : (values ++ [v])[values.length]? = some v := by simp
  have hold {i : Nat} {w : Int} (hw : values[i]? = some w) : (values ++ [v])[i]? = some w := by
    rwa [List.getElem?_append_left (List.getElem?_eq_some_iff.mp hw).1]
  refine ⟨?_, hplace, fun i w hw => h.upper i w (hold hw), fun i w hw => h.lower i w (hold hw)⟩
  have hupper : s.read ((s.sp + 2) % 65536) = s.memory.read (stackPlace sp values.length) := by
    rw [State.read, Nat.mod_mod, hplace]
  have hlower : s.read ((s.sp + 2) % 65536 + 65535) =
      s.memory.read ((stackPlace sp values.length - 1) % 65536) := by
    have haddress : ((((s.sp + 2) % 65536 + 65535) % 65536 : Nat) : Int) =
        (stackPlace sp values.length - 1) % 65536 := by
      rw [← hplace]
      omega
    rw [State.read, haddress]
  have hhigh := h.upper _ v hlast
  have hlow := h.lower _ v hlast
  rw [← hupper] at hhigh
  rw [← hlower] at hlow
  have htop : s.pop.1 =
      s.read ((s.sp + 2) % 65536) * 256 + s.read ((s.sp + 2) % 65536 + 65535) := rfl
  rw [htop]
  omega

end

end Bitzzy

/-! ## Both stacks -/

/-- Values that are put on a stack one after the other come off it in the other order, and the stack
pointer is where it was.  On the V8 the values are bytes, none of them may be put where the stack
pointer is kept, as is the case for the first 255 values after a reset, and memory keeps everything
else; on the Bitzzy the values count modulo 65536, and there may be as many as memory has room
for. -/
theorem stacks_are_last_in_first_out :
    (∀ (s : V8.State) (values : List Nat), s.sp < 256 → (∀ v ∈ values, v < 256) →
      (∀ i < values.length, ((s.sp : Int) - i) % 256 ≠ 0x7F) →
      let taken := takeOff V8.State.pop values.length (values.foldl V8.State.push s)
      taken.1 = values.reverse ∧ taken.2.sp = s.sp ∧
        (∀ a, a ≠ 0x7F → (∀ i < values.length, a ≠ ((s.sp : Int) - i) % 256) →
          taken.2.memory.read a = s.memory.read a) ∧
        taken.2 = { s with memory := taken.2.memory }) ∧
    (∀ n : Nat, n ≤ 255 → ∀ i < n, ((0x7E : Int) - i) % 256 ≠ 0x7F) ∧
    ∀ (s : Bitzzy.State) (values : List Int), s.sp < 65536 → values.length ≤ 32768 →
      let taken := takeOff Bitzzy.State.pop values.length (values.foldl Bitzzy.State.push s)
      taken.1 = (values.map fun v => (v % 65536).toNat).reverse ∧ taken.2.sp = s.sp := by
  refine ⟨fun s values hsp hbytes hfree => ?_, fun n hn i hi => by omega,
    fun s values hsp hlength => ?_⟩
  · have hempty : V8.Holding s values.length s [] := V8.holding_start hsp
    have hheld : V8.Holding s values.length (values.foldl V8.State.push s) values :=
      holding_of_pushes V8.State.push (V8.Holding s values.length)
        (fun _ _ v hlength h => V8.Holding.push hfree hlength h v) values le_rfl hempty
    obtain ⟨hvalues, hrest⟩ :=
      takeOff_of_holding V8.State.pop (V8.Holding s values.length)
        (fun _ _ _ h => V8.Holding.pop hfree h) values _ hheld
    have hsame : values.map (· % 256) = values :=
      (List.map_congr_left fun v hv => Nat.mod_eq_of_lt (hbytes v hv)).trans (List.map_id _)
    rw [hsame] at hvalues
    have hpointer := hrest.pointer
    rw [V8.stackPlace, List.length_nil] at hpointer
    exact ⟨hvalues, by omega, hrest.memory, hrest.others⟩
  · have hheld : Bitzzy.Holding s.sp (values.foldl Bitzzy.State.push s) values :=
      holding_of_pushes Bitzzy.State.push (Bitzzy.Holding s.sp)
        (fun _ _ v hlength h => Bitzzy.Holding.push hlength h v) values hlength
        (Bitzzy.holding_start hsp)
    obtain ⟨hvalues, hrest⟩ :=
      takeOff_of_holding Bitzzy.State.pop (Bitzzy.Holding s.sp)
        (fun _ _ _ h => Bitzzy.Holding.pop h) values _ hheld
    have hpointer := hrest.pointer
    rw [Bitzzy.stackPlace, List.length_nil] at hpointer
    exact ⟨hvalues, by omega⟩

/-- Both stacks may wrap around the ends of memory, and the Bitzzy takes any number. -/
theorem stacks_wrap_around :
    (takeOff V8.State.pop 3 ([10, 20, 30].foldl V8.State.push
      { (default : V8.State) with memory := .write .empty 0x7F 1 })).1 = [30, 20, 10] ∧
    (takeOff Bitzzy.State.pop 2 ([-2, 65537].foldl Bitzzy.State.push
      { (default : Bitzzy.State) with sp := 0 })).1 = [1, 65534] := by
  obtain ⟨hv8, -, hbitzzy⟩ := stacks_are_last_in_first_out
  have hsp : V8.State.sp { (default : V8.State) with memory := .write .empty 0x7F 1 } = 1 :=
    Memory.read_write _ _ _ _
  refine ⟨(hv8 _ [10, 20, 30] (by rw [hsp]; decide) (by decide) ?_).1,
    (hbitzzy { (default : Bitzzy.State) with sp := 0 } [-2, 65537] (by decide) (by decide)).1⟩
  rw [hsp]
  decide

end PocketAsm
