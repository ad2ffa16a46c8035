/-
  Transfer/Image.lean --- the words of a memory image in a file.

  An image is a collection of pairs.  Lists give their items, objects their
  keys and texts their characters, so each of them can be such a collection
  and each of them can be a pair; address and value are whatever stands for an
  integer.
-/
import PocketAsm.Json.Integer
import PocketAsm.Json.Reader
import PocketAsm.Transfer.Stream

set_option autoImplicit false

namespace PocketAsm.Transfer

/-- What a collection holds. -/
def itemsOf? : Json → Option (List Json)
  | .arr items => some items
  | .obj members => some (members.map fun m => .str m.1)
  | .str s => some (s.points.map fun p => .str ⟨[p]⟩)
  | _ => none

/-- The word that a pair stands for, if its address is not below the start; the value of any other
pair is not looked at. -/
def imageWord (start : Int) (pair : Json) : Except NumberFault (Option Word) :=
  match itemsOf? pair with
  | some [a, v] =>
    match a.integer with
    | .error e => .error e
    | .ok address =>
      if address < start then .ok none
      else
        match v.integer with
        | .error e => .error e
        | .ok value => .ok (some (address, value))
  | _ => .error .notNumber

/-- The words of an image at or above the start. -/
def imageWords (start : Int) (image : Json) : Except NumberFault (List Word) :=
  match itemsOf? image with
  | none => .error .notNumber
  | some pairs =>
    match pairs.mapM (imageWord start) with
    | .error e => .error e
    | .ok words => .ok (words.filterMap id)

/-- The words that the text of an image file holds; what is no image has none. -/
def readImage (start : Int) (text : String) : Except Failure (List Word) :=
  match Json.parse text with
  | .error .tooDeep => .error .tooDeep
  | .error .malformed => .error (.arithmetic .notNumber)
  | .ok image =>
    match imageWords start image with
    | .error e => .error (.arithmetic e)
    | .ok words => .ok words

end PocketAsm.Transfer
