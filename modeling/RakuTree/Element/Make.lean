import RakuTree.Element.Basic

/-!
# RakuTree.Element.Make

Making nodes from offsets and text. Offsets may come from anywhere, so every
maker can fail: a node whose range would start below zero or end before it starts
is refused with an `ElementError`.
-/

namespace RakuTree

/-- Why a node cannot be made (`Fault.element`). -/
inductive ElementError
  /-- The range from `start` to `stop` is no `Span`: it starts below zero or ends before it starts.
  -/
  | invalidRange (cls : Class) (start stop : Int)
  /-- A branch without children has no range of its own (`Element.spanning`). -/
  | emptyBranch (cls : BranchClass)
  /-- The sample `token` does not occur in `text`. -/
  | sampleMissing (token text : Text)
  /-- A match without text, at `offset`, has no delimiters. -/
  | emptyMatch (offset : Int)
  /-- The delimiters `front` and `back` are not in `text`, or overlap there. -/
  | delimitersMissing (front back text : Text)
  /-- There is nothing but whitespace on one side of the range from `start` to `stop`. -/
  | nothingAround (start stop : Int)
  /-- The delimiters `front` and `back` around the range are not the `expected` ones. -/
  | wrongDelimiters (expected : Text) (start stop : Int) (front back : Text)
  deriving Repr, DecidableEq

namespace ElementError

/-- The range from `start` to `stop` as messages show it. -/
def rangeText (start stop : Int) : String := "[" ++ toString start ++ ", " ++ toString stop ++ ")"

/-- The message of an `ElementError`. -/
def message : ElementError → String
  | invalidRange cls start stop => cls.name ++ ": invalid range " ++ rangeText start stop
  | emptyBranch cls => cls.name ++ ": empty branch needs an explicit offset"
  | sampleMissing token text =>
    Text.quoted token ++ " does not occur in " ++ Text.quoted text
  | emptyMatch offset => "no delimiters in empty match at " ++ toString offset
  | delimitersMissing front back text =>
    "delimiters " ++ Text.quoted front ++ "/" ++ Text.quoted back ++ " not found in " ++
      Text.quoted text
  | nothingAround start stop => "no delimiters around " ++ rangeText start stop
  | wrongDelimiters expected start stop front back =>
    "expected " ++ Text.quoted expected ++ " around " ++ rangeText start stop ++ ", found " ++
      Text.quoted front ++ "/" ++ Text.quoted back

end ElementError

/-- The range between two offsets, for a node of class `cls`. -/
def Span.make (cls : Class) (start stop : Int) : Except ElementError Span :=
  match Span.of? start stop with
  | some span => .ok span
  | none => .error (.invalidRange cls start stop)

namespace Leaf

/-- A leaf with the given range and content, if the range is a `Span`. -/
def make (cls : LeafClass) (start stop : Int) (content : Text) (origin : Option String)
    (quoting : Quoting) : Except ElementError Leaf :=
  (Span.make (.leaf cls) start stop).map fun span => { cls, span, content, origin, quoting }

/-- A leaf whose content stands at `offset`. -/
def placed (cls : LeafClass) (offset : Int) (content : Text) (origin : Option String)
    (quoting : Quoting) : Except ElementError Leaf :=
  make cls offset (offset + content.length) content origin quoting

/-- A leaf whose `content` was found at offset `i` of the source. That there is a `Span` for it
needs no check. -/
def found (cls : LeafClass) (i : Nat) (content : Text) (origin : Option String) : Leaf :=
  { cls, span := Span.ofText i content, content, origin }

/-- A leaf over the source from `start` to `stop`. -/
def covering (cls : LeafClass) (src : Text) (start stop : Int) (origin : Option String)
    (quoting : Quoting) : Except ElementError Leaf :=
  make cls start stop (Text.slice src start stop) origin quoting

/-- A leaf over the source from `start` to `stop` without surrounding whitespace. -/
def trimmed (cls : LeafClass) (src : Text) (start stop : Int) (origin : Option String)
    (quoting : Quoting) : Except ElementError Leaf :=
  let raw := Text.slice src start stop
  placed cls (start + Text.leadingSpace raw) (Text.trim raw) origin quoting

/-- A leaf over the first occurrence of `token` in the source from `start` to
`stop`. -/
def sample (cls : LeafClass) (src : Text) (start stop : Int) (token : Text)
    (origin : Option String) (quoting : Quoting) : Except ElementError Leaf :=
  let raw := Text.slice src start stop
  match Text.first? token raw with
  | some i => placed cls (start + i) token origin quoting
  | none => .error (.sampleMissing token raw)

end Leaf

namespace Element

/-- A branch with the given range, if it is a `Span`. The children need not stand in it. -/
def makeBranch (cls : BranchClass) (start stop : Int) (children : List Element)
    (origin : Option String) : Except ElementError Element :=
  (Span.make (.branch cls) start stop).map fun span => branch cls span origin children

/-- A contextualizer whose sigil has the given range, if it is a `Span`. -/
def makeContextualizer (sigil : Option Sigil) (start stop : Int) (content : Text)
    (children : List Element) (origin : Option String) : Except ElementError Element :=
  (Span.make (.contextualizer sigil) start stop).map fun span =>
    contextualizer sigil span content origin children

/-- A node of no kind with the given range, if it is a `Span`. -/
def makeBare (start stop : Int) (origin : Option String) : Except ElementError Element :=
  (Span.make .element start stop).map fun span => bare span origin

/-- A branch from the start of its first child to the end of its last. Without
children it is empty at `offset`. -/
def spanning (cls : BranchClass) (children : List Element) (offset : Option Int)
    (origin : Option String) : Except ElementError Element :=
  match children, offset with
  | k :: ks, _ => makeBranch cls k.start (lastEnd k.outerEnd ks) (k :: ks) origin
  | [], some i => makeBranch cls i i [] origin
  | [], none => .error (.emptyBranch cls)

end Element

end RakuTree
