import RakuTree.HereDoc
import RakuTree.Layout.Comment
import RakuTree.Layout.Pod
import RakuTree.Fault

/-!
# RakuTree.Layout.Piece

The layout scan: text that holds no code is cut into pieces.

`pieces` is one pure function. Its pieces cover the text from left to right
without gap or overlap; what is not layout is a piece of its own, so nothing is
dropped silently. Tokens, warnings and the strict verdict are read off the pieces
(`read`).
-/

namespace RakuTree.Layout

/-- A stretch of text as the scan sees it (`pieces`). -/
inductive Piece
  /-- Layout of class `cls`: whitespace, a comment, Pod or the body of a here-doc. -/
  | token (cls : LeafClass) (offset : Int) (text : Text)
  /-- The `text` at `offset` is not layout. -/
  | unclassified (offset : Int) (text : Text)
  /-- A here-doc that is recorded at `offset` but ends at `stop`, before it starts. It takes no
  text. -/
  | backwardHereDoc (offset stop : Int)
  deriving Repr, DecidableEq

/-- The text a piece takes. The texts of all `pieces` make up the text that was scanned. -/
def Piece.text : Piece → Text
  | token _ _ s => s
  | unclassified _ s => s
  | backwardHereDoc _ _ => []

/-! ### Scanning -/

/-- How many characters of `rest`, which stands at `offset`, satisfy `p` without a
here-doc starting at one of them. -/
def runLength (docs : HereDocs) (p : Char → Bool) (offset : Int) : Text → Nat
  | [] => 0
  | c :: cs =>
    if p c && !docs.startsAt offset then runLength docs p (offset + 1) cs + 1 else 0

/-- What stands at the beginning of `c :: rest`, at `offset`, when no here-doc
starts there: its class, if it is layout, and how many characters follow the
first. -/
def classify (docs : HereDocs) (offset : Int) (atLine : Bool) (c : Char) (rest : Text) :
    Option LeafClass × Nat :=
  if Text.isSpace c then (some .ws, runLength docs Text.isSpace (offset + 1) rest)
  else if c == '#' then (some .comment, commentLength rest - 1)
  else if c == '=' && atLine && opensPod rest then (some .pod, podLength rest - 1)
  else (none, runLength docs (fun d => !Text.isSpace d && d != '#') (offset + 1) rest)

/-- The body of a here-doc that starts at `offset` in front of the last characters
`c :: rest` of a text: how many characters follow the first. -/
def bodyLength? (docs : HereDocs) (offset : Int) (rest : Text) : Option Nat :=
  match docs.stop? offset with
  | some stop => if offset < stop then some (min (stop - offset).toNat (rest.length + 1) - 1) else none
  | none => none

/-- The pieces of `text`, which stands at `offset`. `atLine` says whether it begins
a line. -/
def pieces (docs : HereDocs) (offset : Int) (atLine : Bool) (text : Text) : List Piece :=
  match text with
  | [] => []
  | c :: rest =>
    let notes := match docs.stop? offset with
      | some stop => if offset < stop then [] else [Piece.backwardHereDoc offset stop]
      | none => []
    let (cls?, extra) := match bodyLength? docs offset rest with
      | some n => (some LeafClass.hereDocBody, n)
      | none => classify docs offset atLine c rest
    let taken := c :: rest.take extra
    let piece := match cls? with
      | some cls => Piece.token cls offset taken
      | none => Piece.unclassified offset taken
    notes ++ piece ::
      pieces docs (offset + taken.length) (taken.getLast? == some '\n') (rest.drop extra)
termination_by text.length
decreasing_by
  simp only [List.length_drop, List.length_cons]
  omega

/-! ### Reading -/

/-- What came of reading a stretch of layout: the tokens, what is to be logged, and the fault that
stopped it (`read`). -/
structure Reading where
  /-- The tokens; none when there is a `fault?`. -/
  tokens : List Leaf
  /-- What is to be logged, up to the fault if there is one. -/
  events : List Event
  /-- Why the reading stopped, if it did. -/
  fault? : Option Fault

/-- The reading with the token `l` in front, if it went through. -/
def Reading.cons (l : Leaf) (r : Reading) : Reading :=
  { r with tokens := if r.fault?.isSome then [] else l :: r.tokens }

/-- Reads pieces into tokens. If `strict`, a piece that is not layout stops the reading, otherwise
it is logged and skipped. -/
def read (strict : Bool) : List Piece → Reading
  | [] => ⟨[], [], none⟩
  | .token cls offset text :: ps =>
    match Leaf.placed cls offset text none {} with
    | .ok l => (read strict ps).cons l
    | .error e => ⟨[], [], some (.element e)⟩
  | .unclassified offset text :: ps =>
    if strict then ⟨[], [], some (.gap (.unclassified text offset))⟩
    else
      let r := read strict ps
      { r with events := .gapSkipped (.unclassified text offset) :: r.events }
  | .backwardHereDoc offset stop :: ps =>
    let r := read strict ps
    { r with events := .backwardHereDoc offset stop :: r.events }

/-- Reads `text`, which stands at `offset`, as layout. -/
def scan (docs : HereDocs) (strict : Bool) (offset : Int) (atLine : Bool) (text : Text) : Reading :=
  read strict (pieces docs offset atLine text)

end RakuTree.Layout
