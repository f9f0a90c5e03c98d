import RakuTree.Element.Make

/-!
# RakuTree.Element.Delimited

Branches between delimiters. A bracketed construct is a branch whose first child
is the opening and whose last child is the closing delimiter. The delimiters come
from one of three places:

* the first and the last character of the match (`balanced` without a pair);
* a given pair, found in the match (`balanced` with a pair);
* the nearest characters outside the match that are no whitespace
  (`balancedAround`), for matches that leave their brackets out.
-/

namespace RakuTree

/-- The classes of an opening and a closing delimiter, as `Element.delimited` makes them. -/
structure Brackets where
  /-- Class of the opening delimiter. -/
  enter : LeafClass
  /-- Class of the closing delimiter. -/
  exit : LeafClass

/-- Ordinary brackets: `balancedEnter` and `balancedExit`. -/
def Brackets.plain : Brackets := ⟨.balancedEnter, .balancedExit⟩

/-- The braces of a block: `blockEnter` and `blockExit`. -/
def Brackets.block : Brackets := ⟨.blockEnter, .blockExit⟩

/-- Why delimiters outside a range cannot be found (`Element.balancedAround`). -/
inductive AroundError
  /-- The range starts or ends where the source has no character to look at. -/
  | outsideSource
  /-- The characters are there but make no bracketed branch, for the reason `e`. -/
  | element (e : ElementError)
  deriving Repr, DecidableEq

namespace Element

/-- A branch from `start` to `stop` with `front` at its start and `back` at its
end. -/
def delimited (cls : BranchClass) (start stop : Int) (front back : Text) (children : List Element)
    (brackets : Brackets) (origin : Option String) : Except ElementError Element := do
  let opening ← Leaf.placed brackets.enter start front origin {}
  let closing ← Leaf.placed brackets.exit (stop - back.length) back origin {}
  makeBranch cls start stop (leaf opening :: children ++ [leaf closing]) origin

/-- A branch over the source from `start` to `stop`, between the given pair of
delimiters or else the first and the last character that is no whitespace. -/
def balanced (cls : BranchClass) (src : Text) (start stop : Int) (pair : Option (Text × Text))
    (children : List Element) (brackets : Brackets) (origin : Option String) :
    Except ElementError Element :=
  let text := Text.slice src start stop
  let found := match pair with
    | some p => some p
    | none =>
      let core := Text.trim text
      match core.head?, core.getLast? with
      | some a, some b => some ([a], [b])
      | _, _ => none
  match found with
  | none => .error (.emptyMatch start)
  | some (front, back) =>
    match Text.first? front text, Text.last? back text with
    | some i, some j =>
      if i + front.length ≤ j then
        delimited cls (start + i) (start + j + back.length) front back children brackets origin
      else .error (.delimitersMissing front back text)
    | _, _ => .error (.delimitersMissing front back text)

/-- The nearest offset at or before `i` whose character is no whitespace, counted
down until the source is left; `none` when `i` lies behind the source. -/
def scanLeft (src : Text) : Nat → Option Int
  | 0 => some (-1)
  | i + 1 =>
    match src[i]? with
    | none => none
    | some c => if Text.isSpace c then scanLeft src i else some i

/-- The nearest offset from `i` on whose character is no whitespace; the end of
the source when there is none. -/
def scanRight (src : Text) (i : Nat) : Nat := i + Text.leadingSpace (src.drop i)

/-- As `scanRight`, from an offset that may lie below zero: it counts from the
end then, and the scan runs on over the start of the source. -/
def scanRightFrom (src : Text) (i : Int) : Option Int :=
  if 0 ≤ i then some (scanRight src i.toNat)
  else if 0 ≤ i + src.length then
    let tail := Text.sliceFrom src i
    let skipped := Text.leadingSpace tail
    if skipped < tail.length then some (i + skipped) else some (scanRight src 0)
  else none

/-- Offsets of the nearest characters that are no whitespace, before `start` and
from `stop` on. -/
def scanOutward (src : Text) (start stop : Int) : Except AroundError (Int × Int) :=
  match scanLeft src start.toNat with
  | none => .error .outsideSource
  | some left =>
    match scanRightFrom src stop with
    | none => .error .outsideSource
    | some right =>
      if left < 0 ∨ src.length ≤ right then .error (.element (.nothingAround start stop))
      else .ok (left, right)

/-- A branch between the delimiters just outside the range from `start` to
`stop`. With an expected opening delimiter, other delimiters are an error. -/
def balancedAround (cls : BranchClass) (src : Text) (start stop : Int) (children : List Element)
    (expected : Option Text) (brackets : Brackets) (origin : Option String) :
    Except AroundError Element := do
  let (left, right) ← scanOutward src start stop
  let front := (Text.charAt? src left).toList
  let back := (Text.charAt? src right).toList
  match expected with
  | some e =>
    if front ≠ e ∨ back ≠ closerFor e then
      throw (.element (.wrongDelimiters e start stop front back))
  | none => pure ()
  (delimited cls left (right + 1) front back children brackets origin).mapError .element

end Element

end RakuTree
