import RakuTree.Match.Basic

/-!
# RakuTree.Match.Shape

The shape of a match: which of its named captures have content, and which are
there but empty. Rules look at shapes only, never at the order in which captures
were made, so both lists are kept sorted. The capture `O` (operator precedence) is
no part of the shape.
-/

namespace RakuTree

/-- Does a capture have content: `one` match that covers something, or at least one of `many`? -/
def Capture.hasContent : Capture → Bool
  | absent => false
  | one m => m.isWide
  | many ms => !ms.isEmpty

/-- The names under which a match has content, and those that are there but empty, each sorted by
code point. The branches of a `Rule` are chosen by it. -/
structure Shape where
  /-- Names with content, by `Capture.hasContent`. -/
  content : List String
  /-- Names that are there without content. -/
  empty : List String
  deriving Repr, DecidableEq

namespace Shape

/-- Names whose captures say nothing about the shape: `Shape.of` leaves them out. -/
def ignored : List String := ["O"]

/-- The list with `key` put before the first name that is not smaller. -/
def insertSorted (key : String) : List String → List String
  | [] => [key]
  | k :: ks => if key ≤ k then key :: k :: ks else k :: insertSorted key ks

/-- Names sorted by code point, by `insertSorted`. -/
def sorted : List String → List String
  | [] => []
  | k :: ks => insertSorted k (sorted ks)

/-- The shape of the match `m`. -/
def of (m : Match) : Shape :=
  let named := m.named.filter fun p => !ignored.contains p.1
  { content := sorted ((named.filter fun p => p.2.hasContent).map Prod.fst)
    empty := sorted ((named.filter fun p => !p.2.hasContent).map Prod.fst) }

/-- Does `key` have content? -/
def has (s : Shape) (key : String) : Bool := s.content.contains key

/-- Is `key` there at all? -/
def present (s : Shape) (key : String) : Bool := s.content.contains key || s.empty.contains key

/-- All of `required` have content, and nothing but `required` and `optional` does. -/
def fits (s : Shape) (required optional : List String) : Bool :=
  required.all s.has && s.content.all fun key => required.contains key || optional.contains key

/-- Exactly `keys` have content. -/
def is (s : Shape) (keys : List String) : Bool := s.fits keys []

/-- Exactly `keys` have content, and all of `empty` are there without. -/
def isWithEmpty (s : Shape) (keys empty : List String) : Bool :=
  s.is keys && empty.all s.empty.contains

/-- Exactly the keys of one of `alternatives` have content. -/
def isAny (s : Shape) (alternatives : List (List String)) : Bool := alternatives.any s.is

/-- How a message shows a shape. -/
def describe (s : Shape) : String :=
  "content=" ++ Text.quotedList s.content ++ " empty=" ++ Text.quotedList s.empty

end Shape

end RakuTree
