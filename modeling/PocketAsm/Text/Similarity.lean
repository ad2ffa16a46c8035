/-
  Text/Similarity.lean --- names that look like a given word.

  A misspelt symbol is answered with the defined names closest to it.  Two
  texts are compared by their longest common run, then by the longest common
  runs to its left and to its right, and so on; the characters so matched,
  counted twice, over the length of both texts give the score.  In a word of
  two hundred characters or more the characters that fill more than a
  hundredth of it do not start a run.
-/

set_option autoImplicit false

namespace PocketAsm.Text

/-! ## Common runs -/

/-- A common run of two texts: its length and where it starts in each of them. -/
structure CommonRun where
  size : Nat
  left : Nat
  right : Nat
  deriving DecidableEq, Repr, Inhabited

/-- The characters of a long word that are too frequent to start a run. -/
def frequentChars (word : List Char) : List Char :=
  if word.length < 200 then []
  else word.eraseDups.filter fun c => word.length / 100 + 1 < word.count c

/-- How far the runs that end at the next character of the left text reach back, for each position
of the right text: one more than the run that ended one place before in both. -/
def nextReach (frequent : List Char) (c : Char) : List Char → List Nat → List Nat
  | d :: ds, n :: ns =>
    (if c == d && !frequent.contains d then n + 1 else 0) :: nextReach frequent c ds ns
  | _, _ => []

/-- The better of a run and the runs that end at position `i` of the left text; of runs of equal
length the one found first stays. -/
def betterRun (i : Nat) (best : CommonRun) : Nat → List Nat → CommonRun
  | _, [] => best
  | j, n :: ns =>
    betterRun i (if best.size < n then ⟨n, i + 1 - n, j + 1 - n⟩ else best) (j + 1) ns

/-- The longest run over the left text from position `i` on. -/
def longestFrom (frequent right : List Char) : Nat → List Nat → CommonRun → List Char → CommonRun
  | _, _, best, [] => best
  | i, reach, best, c :: cs =>
    let reach' := nextReach frequent c right (0 :: reach)
    longestFrom frequent right (i + 1) reach' (betterRun i best 0 reach') cs

/-- The number of leading positions at which two texts agree. -/
def agreement : List Char → List Char → Nat
  | c :: cs, d :: ds => if c == d then agreement cs ds + 1 else 0
  | _, _ => 0

/-- The longest common run of two texts, the first in the left text, then in the right one; at last
it grows on both sides over the characters that could not start it. -/
def longestRun (frequent left right : List Char) : CommonRun :=
  let best := longestFrom frequent right 0 (List.replicate right.length 0) ⟨0, 0, 0⟩ left
  let back := agreement (left.take best.left).reverse (right.take best.right).reverse
  let ahead := agreement (left.drop (best.left + best.size)) (right.drop (best.right + best.size))
  ⟨back + best.size + ahead, best.left - back, best.right - back⟩

/-- The number of matched characters: the longest common run and what matches on either side of it.
Each round takes a character off the left text, so its length bounds the depth. -/
def matchedChars (frequent : List Char) : Nat → List Char → List Char → Nat
  | 0, _, _ => 0
  | depth + 1, left, right =>
    let run := longestRun frequent left right
    if run.size = 0 then 0
    else
      matchedChars frequent depth (left.take run.left) (right.take run.right) + run.size +
        matchedChars frequent depth (left.drop (run.left + run.size))
          (right.drop (run.right + run.size))

/-! ## Scores -/

/-- A name with its score, the fraction `2 * matched / length`. -/
structure Scored where
  matched : Nat
  length : Nat
  name : String
  deriving DecidableEq, Repr, Inhabited

/-- The score of a name against a word. -/
def scored (word name : String) : Scored :=
  let left := name.toList
  let right := word.toList
  ⟨matchedChars (frequentChars right) (left.length + 1) left right, left.length + right.length, name⟩

/-- A score of three fifths or more; two empty texts are equal. -/
def Scored.isClose (s : Scored) : Bool := s.length = 0 || 3 * s.length ≤ 10 * s.matched

/-- The first of two names does not come after the second: a higher score comes first, and of equal
scores the greater name. -/
def Scored.precedes (a b : Scored) : Bool :=
  if a.matched * b.length = b.matched * a.length then b.name ≤ a.name
  else b.matched * a.length < a.matched * b.length

/-- The names close to a word, the closest first and three at most. -/
def closeMatches (word : String) (names : List String) : List String :=
  (((names.map (scored word)).filter Scored.isClose).mergeSort Scored.precedes).take 3
    |>.map Scored.name

end PocketAsm.Text
