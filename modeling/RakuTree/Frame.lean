import RakuTree.Plan
import RakuTree.Element.Delimited
import RakuTree.Text.Keyword

/-!
# RakuTree.Frame

What rules are written with: access to the captures of the match at hand, makers
for leaves and branches that note which production made them, and the search for
tokens that the grammar does not capture (`;`, `??`, `else`, …) in the source
between elements that are already built.
-/

namespace RakuTree

/-- A token to look for in the source (`Frame.find?`). -/
inductive Token
  /-- The text `s`, wherever it occurs. -/
  | text (s : Text)
  /-- One of `words`, standing alone (`Text.Keyword.find?`). -/
  | keyword (words : List Text)

namespace Token

/-- The first occurrence of a token in `src` from `start` to `stop`, with the text that was found.
-/
def find? (src : Text) (start stop : Int) : Token → Option (Nat × Text)
  | text s => (Text.find? src s start stop).map (·, s)
  | keyword words => Text.Keyword.find? words src start stop

/-- How the note of a `Refusal` names a token. -/
def display : Token → Text
  | text s => s
  | keyword words => Text.Keyword.display words

end Token

/-- A part of a match that a rule goes through in source order (`Frame.eachOf`). -/
inductive Part
  /-- Captured under the key of `p`, and built by `p`. -/
  | inner (p : Production)
  /-- Captured under `key`, and dealt with by the rule itself. -/
  | named (key : String)
  deriving Repr, DecidableEq

/-- The name that the matches of a `Part` are captured under. -/
def Part.key : Part → String
  | inner p => p.key
  | named key => key

namespace Frame

variable (f : Frame)

/-! ### Captures -/

/-- The key of the production, noted on all it makes. -/
def origin : Option String := some f.production.key

/-- The `Shape` of the match, by which a rule chooses its branch. -/
def shape : Shape := Shape.of f.self

/-- The text of the match in `f.src`, whitespace included. -/
def text : Text := f.self.text f.src

/-- The first match captured under `key`. -/
def get? (key : String) : Option f.self.Inner := f.self.inner? key

/-- All matches captured under `key`. -/
def each (key : String) : List f.self.Inner := f.self.inners key

/-- The matches of the given `parts`, in source order. -/
def eachOf (parts : List Part) : List (Part × f.self.Inner) :=
  f.self.inSourceOrder Part.key parts

/-- The trimmed text of the first match under `key`; empty without one. -/
def textOf (key : String) : Text := f.self.textOf f.src key

/-! ### Going on and stopping -/

/-- The refusal of the match `m` by the production of the frame. -/
def refusal (m : Match) (note : Option String) (hereDoc : Bool) : Refusal :=
  { production := f.production.key, start := m.start, stop := m.stop
    text := Refusal.shorten (m.text f.src), shape := Shape.of m, note, hereDoc }

/-- Refuses the match `m`, saying in `note` what is missing. -/
def refuseMatch {α : Type} (m : Match) (note : String) : Plan f α :=
  .refuse (f.refusal m (some note) false)

/-- Refuses `f.self` without a note, since no shape fits. -/
def unhandled {α : Type} : Plan f α := .refuse (f.refusal f.self none false)

/-- Refuses `f.self`, saying in `note` what is missing. -/
def refuse {α : Type} (note : String) : Plan f α := f.refuseMatch f.self note

/-- Builds the inner match `c?` by production `p`. -/
def build (p : Production) (c? : Option f.self.Inner) : Plan f (List Element) := .build p c? .done

/-- Builds the first match under the key of `p`, by `p`. -/
def buildKey (p : Production) : Plan f (List Element) := f.build p (f.get? p.key)

/-- Builds several inner matches by `p`, one after the other. -/
def buildAll (p : Production) : List f.self.Inner → Plan f (List Element)
  | [] => pure []
  | c :: cs => do
    let es ← f.build p (some c)
    return es ++ (← buildAll p cs)

/-- Builds inner matches one after the other, each by the production it is paired with. -/
def buildParts : List (Production × f.self.Inner) → Plan f (List Element)
  | [] => pure []
  | (p, c) :: cs => do
    let es ← f.build p (some c)
    return es ++ (← buildParts cs)

/-- Builds the matches under the keys of `ps`, each by its production, in source order. -/
def buildInOrder (ps : List Production) : Plan f (List Element) :=
  f.buildParts (f.self.inSourceOrder Production.key ps)

/-- Builds the first match under the key of `p` if the shape says that it has content; else there
are no elements. -/
def buildIf (p : Production) : Plan f (List Element) :=
  if f.shape.has p.key then f.buildKey p else pure []

/-- Builds the match under the first of `ps` that alone has content; `other` when
there is none. -/
def buildOnly (other : Plan f (List Element)) : List Production → Plan f (List Element)
  | [] => other
  | p :: ps => if f.shape.is [p.key] then f.buildKey p else buildOnly other ps

/-- The inner match `c?`, which has to be there. Of a match that is not, the rule asks `access`
first, and stops. -/
def need (access : Access) (c? : Option f.self.Inner) : Plan f Match :=
  match c? with
  | some c => pure c.val
  | none => .fail (.absentCapture access)

/-- Where the last of `nodes` ends; if there is none, this stops with `Fault.outside`. -/
def endOf (nodes : List Element) : Plan f Int :=
  match nodes with
  | [] => .fail (.outside .list)
  | k :: ks => pure (Element.lastEnd k.outerEnd ks)

/-! ### Leaves -/

/-- A leaf over `m`, whitespace included. -/
def leaf (cls : LeafClass) (m : Match) (quoting : Quoting) : Plan f Leaf :=
  .ofElement (Leaf.covering cls f.src m.start m.stop f.origin quoting)

/-- A leaf over `m` without surrounding whitespace (`Leaf.trimmed`). -/
def trimmedLeaf (cls : LeafClass) (m : Match) (quoting : Quoting) : Plan f Leaf :=
  .ofElement (Leaf.trimmed cls f.src m.start m.stop f.origin quoting)

/-- A `trimmedLeaf` over `m`, as the only element. -/
def trimmed (cls : LeafClass) (m : Match) : Plan f (List Element) :=
  return [.leaf (← f.trimmedLeaf cls m {})]

/-- A `trimmed` leaf over the first match under `key`. -/
def trimmedKey (cls : LeafClass) (key : String) : Plan f (List Element) := do
  f.trimmed cls (← f.need .text (f.get? key))

/-- Parts in order: those that a production builds, and a trimmed leaf of class
`cls` for each of the others. -/
def buildMixed (cls : LeafClass) : List (Part × f.self.Inner) → Plan f (List Element)
  | [] => pure []
  | (.inner p, c) :: cs => do
    let es ← f.build p (some c)
    return es ++ (← buildMixed cls cs)
  | (.named _, c) :: cs => do
    let es ← f.trimmed cls c.val
    return es ++ (← buildMixed cls cs)

/-- A leaf whose content stands at `offset`. -/
def leafAt (cls : LeafClass) (offset : Int) (content : Text) : Plan f Leaf :=
  .ofElement (Leaf.placed cls offset content f.origin {})

/-- A leaf over the first occurrence of `token` in a match. -/
def sample (cls : LeafClass) (m : Match) (token : Text) : Plan f Leaf :=
  .ofElement (Leaf.sample cls f.src m.start m.stop token f.origin {})

/-- A leaf over the source from `start` to `stop`. -/
def leafOver (cls : LeafClass) (start stop : Int) : Plan f Leaf :=
  f.leafAt cls start (Text.slice f.src start stop)

/-- The character of the source at offset `i`; outside of it, this stops with `Fault.outside`. -/
def charAt (i : Int) : Plan f Char :=
  match Text.charAt? f.src i with
  | some c => pure c
  | none => .fail (.outside .text)

/-! ### Searching the source -/

/-- A leaf over the first occurrence of `token` from `start` to `stop`. -/
def find? (cls : LeafClass) (start stop : Int) (token : Token) : Option Leaf :=
  (token.find? f.src start stop).map fun found => Leaf.found cls found.1 found.2 f.origin

/-- A leaf over the first occurrence of `token`, which has to be there: the match is refused without
one. -/
def expect (cls : LeafClass) (start stop : Int) (token : Token) : Plan f Leaf :=
  match f.find? cls start stop token with
  | some l => pure l
  | none =>
    f.refuse ("expected " ++ Text.quoted token.display ++ " in " ++
      ElementError.rangeText start stop)

/-- A token that has to be there between the elements `left` and the elements
`right`. Where one side has no elements, the match ends the search. -/
def between (cls : LeafClass) (left right : List Element) (token : Token) : Plan f Leaf :=
  f.expect cls (Element.lastEnd f.self.start left) (Element.firstStart f.self.stop right) token

/-! ### Branches -/

/-- A branch that spans its `children` (`Element.spanning`). -/
def branch (cls : BranchClass) (children : List Element) : Plan f Element :=
  .ofElement (Element.spanning cls children none f.origin)

/-- A branch around `children`, with delimiters found in the match at hand (`Element.balanced`). -/
def balanced (cls : BranchClass) (pair : Option (Text × Text)) (brackets : Brackets)
    (children : List Element) : Plan f (List Element) :=
  match Element.balanced cls f.src f.self.start f.self.stop pair children brackets f.origin with
  | .ok e => pure [e]
  | .error e => f.refuse e.message

/-- A branch between the delimiters around an inner match, which open with
`expected`. -/
def balancedAround (cls : BranchClass) (m : Match) (expected : Text) (children : List Element) :
    Plan f (List Element) :=
  match Element.balancedAround cls f.src m.start m.stop children (some expected) .plain f.origin with
  | .ok e => pure [e]
  | .error (.element e) => f.refuseMatch m e.message
  | .error .outsideSource => .fail (.outside .text)

/-- A branch over the source between two offsets, whose first `front` characters
open and whose last character closes it. -/
def delimited (cls : BranchClass) (start stop : Int) (front : Nat) (brackets : Brackets)
    (children : List Element) : Plan f Element :=
  .ofElement (Element.delimited cls start stop (Text.slice f.src start (start + front))
    (Text.slice f.src (stop - 1) stop) children brackets f.origin)

end Frame

end RakuTree
