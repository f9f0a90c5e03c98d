import RakuTree.Text.Alphanumeric
import RakuTree.Text.Printable

/-!
# RakuTree.Text.Basic

Source text as a list of code points, with the offsets the rest of the library
uses.

Offsets are integers, because a grammar engine may hand over offsets that lie
outside the source. Two conventions turn an offset into a place:

* **Slices and searches** (`slice`, `charAt?`, `find?`, `findLast?`) count an
  offset below zero from the end of the text (`Text.place`), and never leave the
  text.
* **Windows** (`window`) clamp both ends into the text; an offset below zero is
  the beginning.
-/

namespace RakuTree

/-- A text, one `Char` per code point. -/
abbrev Text := List Char

namespace Text

/-! ### Character classes -/

/-- Is it whitespace, of any script? The separators `U+001C` to `U+001F` are included. -/
def isSpace (c : Char) : Bool :=
  let n := c.toNat
  (0x09 ≤ n && n ≤ 0x0d) || (0x1c ≤ n && n ≤ 0x20) || n == 0x85 || n == 0xa0 || n == 0x1680 ||
    (0x2000 ≤ n && n ≤ 0x200a) || n == 0x2028 || n == 0x2029 || n == 0x202f || n == 0x205f ||
    n == 0x3000

/-- A space or a tab: the whitespace that never ends a line. -/
def isBlank (c : Char) : Bool := c == ' ' || c == '\t'

/-- A character of a word: a letter, a number (`isAlphanumeric`) or an underscore. -/
def isWord (c : Char) : Bool := isAlphanumeric c || c == '_'

/-- A character that continues a name: of a word (`isWord`), or a hyphen. -/
def isNameChar (c : Char) : Bool := isWord c || c == '-'

/-! ### Trimming -/

/-- The text without leading whitespace (`isSpace`). -/
def trimLeft (s : Text) : Text := s.dropWhile isSpace

/-- The text without trailing whitespace (`isSpace`). -/
def trimRight (s : Text) : Text := (s.reverse.dropWhile isSpace).reverse

/-- The text without whitespace at either end. -/
def trim (s : Text) : Text := trimRight (trimLeft s)

/-- The length of the whitespace that `trimLeft` cuts off. -/
def leadingSpace (s : Text) : Nat := (s.takeWhile isSpace).length

/-! ### Slices -/

/-- The place an offset names in a text of `n` characters. An offset below zero
counts from the end, and one that is still below zero names the beginning. -/
def place (n : Nat) (i : Int) : Nat := if i < 0 then (i + n).toNat else i.toNat

/-- The text from `start` up to `stop`; empty when the two are out of order. -/
def slice (s : Text) (start stop : Int) : Text :=
  (s.take (place s.length stop)).drop (place s.length start)

/-- The text from `start` to the end. -/
def sliceFrom (s : Text) (start : Int) : Text := s.drop (place s.length start)

/-- The character at offset `i`, if the text has one there. A negative offset counts from the end.
-/
def charAt? (s : Text) (i : Int) : Option Char :=
  if 0 ≤ i then s[i.toNat]?
  else if 0 ≤ i + s.length then s[(i + s.length).toNat]?
  else none

/-- The stretch of the text from `start` to `stop`, both clamped into it. -/
def window (s : Text) (start stop : Int) : Text := (s.take stop.toNat).drop start.toNat

/-! ### Searches -/

/-- Offset of the first occurrence of `needle`. -/
def first? (needle : Text) : Text → Option Nat
  | [] => if needle.isEmpty then some 0 else none
  | c :: cs => if needle.isPrefixOf (c :: cs) then some 0 else (first? needle cs).map (· + 1)

/-- Offset of the last occurrence of `needle`. -/
def last? (needle : Text) : Text → Option Nat
  | [] => if needle.isEmpty then some 0 else none
  | c :: cs =>
    match last? needle cs with
    | some i => some (i + 1)
    | none => if needle.isPrefixOf (c :: cs) then some 0 else none

/-- Offset of the first occurrence of `needle` that lies between `start` and
`stop`. A start behind the end of the text finds nothing, not even an empty
needle. -/
def find? (s needle : Text) (start stop : Int) : Option Nat :=
  let lo := place s.length start
  let hi := min (place s.length stop) s.length
  if lo ≤ hi then (first? needle ((s.take hi).drop lo)).map (lo + ·) else none

/-- Offset of the last occurrence of `needle` that lies between `start` and
`stop`. -/
def findLast? (s needle : Text) (start stop : Int) : Option Nat :=
  let lo := place s.length start
  let hi := min (place s.length stop) s.length
  if lo ≤ hi then (last? needle ((s.take hi).drop lo)).map (lo + ·) else none

/-- Does `needle` occur anywhere in the text? -/
def includes (s needle : Text) : Bool := (first? needle s).isSome

/-! ### Small facts -/

@[simp] theorem slice_nil (start stop : Int) : slice [] start stop = [] := by simp [slice]

@[simp] theorem window_nil (start stop : Int) : window [] start stop = [] := by simp [window]

/-- What `trimLeft` leaves and the whitespace it cuts off make up the text. -/
theorem takeWhile_append_trimLeft (s : Text) : s.takeWhile isSpace ++ trimLeft s = s :=
  List.takeWhile_append_dropWhile

end Text

end RakuTree
