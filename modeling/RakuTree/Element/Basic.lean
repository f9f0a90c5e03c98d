import RakuTree.Taxonomy
import RakuTree.Text.Quoted
import RakuTree.Text.Numeral

/-!
# RakuTree.Element.Basic

Nodes of a document tree.

* A `Span` carries the proof that its range is in order and not below zero, so
  no node of a tree can have a broken range.
* A contextualizer's span covers its sigil only. What it covers in all ends where
  its last child ends (`Element.outerEnd`).
* The **tokens** of a node are the nodes under it that carry text, in document
  order: leaves and contextualizers.
-/

namespace RakuTree

/-! ### Spans -/

/-- A range of source offsets, from `start` up to `stop`. -/
structure Span where
  /-- Offset of the first character. -/
  start : Int
  /-- Offset behind the last character; an empty range has it at `start`. -/
  stop : Int
  /-- A range does not start below zero. -/
  nonneg : 0 ≤ start
  /-- A range does not end before it starts. -/
  ordered : start ≤ stop
  deriving Repr, DecidableEq

/-- The range from `start` to `stop`, if it satisfies `nonneg` and `ordered`. -/
def Span.of? (start stop : Int) : Option Span :=
  if h : 0 ≤ start ∧ start ≤ stop then some ⟨start, stop, h.1, h.2⟩ else none

/-- The range of `text` when it stands at offset `i`. -/
def Span.ofText (i : Nat) (text : Text) : Span := ⟨i, i + text.length, by omega, by omega⟩

/-! ### Leaves -/

/-- What a quote is made of. Only leaves of string classes have a `Leaf.quoting` other than the
default. -/
structure Quoting where
  /-- The quoting word, such as `q` or `qqw`; empty for bare delimiters. -/
  lexeme : Text := []
  /-- The opening delimiter. -/
  opener : Text := []
  /-- The closing delimiter. -/
  closer : Text := []
  /-- The colon modifiers. -/
  adverbs : List Text := []
  /-- The text between `opener` and `closer`; for a here-doc, its terminator. -/
  body : Text := []
  /-- The lines of a here-doc, which stand below it (`HereDocBody.lines`). -/
  hereDoc : Option Text := none
  deriving Repr, DecidableEq

/-- A token without children: the `Element` that carries text. -/
structure Leaf where
  /-- The class of the leaf; for a string, `quoting` says more. -/
  cls : LeafClass
  /-- The range it stands in. It is as long as `content` in a leaf that was made by `Leaf.placed`.
  -/
  span : Span
  /-- The text of the leaf, whitespace included. -/
  content : Text
  /-- The key of the production that made it, if it was made by one. -/
  origin : Option String
  /-- The parts of a quote; only strings have them. -/
  quoting : Quoting := {}
  deriving Repr, DecidableEq

/-- The name of a variable: `content` without its sigil and twigil. A twigil is only cut off where
the text has it. -/
def VariableClass.headless (c : VariableClass) (content : Text) : Text :=
  let rest := content.drop c.sigilText.length
  if c.twigilText.isPrefixOf rest then rest.drop c.twigilText.length else rest

/-- The radix of a number such as `:36<zz>`, if it can be read: what stands between
the colons and the first bracket. -/
def NumberClass.radixOf? (content : Text) : Option Int :=
  Text.readInt?
    ((content.dropWhile (· == ':')).takeWhile fun c => c != '<' && c != '[' && c != '(')

/-! ### Elements -/

/-- A node of a document tree. What stands in a document in the end are its `tokens`. -/
inductive Element
  /-- A token. -/
  | leaf (l : Leaf)
  /-- A node whose `children` stand in its range, in order. -/
  | branch (cls : BranchClass) (span : Span) (origin : Option String) (children : List Element)
  /-- A sigil and its bracketed body: a token with the text `content`, followed by `children`. -/
  | contextualizer (sigil : Option Sigil) (span : Span) (content : Text) (origin : Option String)
      (children : List Element)
  /-- A node of no kind, with a range and nothing else. -/
  | bare (span : Span) (origin : Option String)
  deriving Repr

namespace Element

/-- The `Class` of a node. -/
def cls : Element → Class
  | leaf l => .leaf l.cls
  | branch c _ _ _ => .branch c
  | contextualizer s _ _ _ _ => .contextualizer s
  | bare _ _ => .element

/-- The range of a node. That of a `contextualizer` covers its sigil only. -/
def span : Element → Span
  | leaf l => l.span
  | branch _ s _ _ => s
  | contextualizer _ s _ _ _ => s
  | bare s _ => s

/-- Where the `span` of a node starts. -/
def start (e : Element) : Int := e.span.start

/-- Where the `span` of a node ends. -/
def stop (e : Element) : Int := e.span.stop

/-- The key of the production that made a node, if there was one. -/
def origin : Element → Option String
  | leaf l => l.origin
  | branch _ _ o _ => o
  | contextualizer _ _ _ o _ => o
  | bare _ o => o

/-- The children of a node; only a `branch` and a `contextualizer` have any. -/
def children : Element → List Element
  | branch _ _ _ ks => ks
  | contextualizer _ _ _ _ ks => ks
  | _ => []

/-- The text a node carries itself: that of a `leaf`, and the sigil of a `contextualizer`. -/
def content? : Element → Option Text
  | leaf l => some l.content
  | contextualizer _ _ s _ _ => some s
  | _ => none

mutual

/-- Where everything a node covers ends, the children of a `contextualizer` included. -/
def outerEnd : Element → Int
  | leaf l => l.span.stop
  | branch _ s _ _ => s.stop
  | contextualizer _ s _ _ ks => lastEnd s.stop ks
  | bare s _ => s.stop

/-- Where the last of some nodes ends, and `d` when there is none. -/
def lastEnd (d : Int) : List Element → Int
  | [] => d
  | k :: ks => lastEnd k.outerEnd ks

end

/-- Where the first of some nodes starts, and `d` when there is none. -/
def firstStart (d : Int) : List Element → Int
  | [] => d
  | k :: _ => k.start

mutual

/-- The text of a node and all that is under it. A `bare` node has none, and nor has a tree that
holds one. -/
def text? : Element → Option Text
  | leaf l => some l.content
  | branch _ _ _ ks => textList? ks
  | contextualizer _ _ s _ ks => (textList? ks).map (s ++ ·)
  | bare _ _ => none

/-- The text of some nodes in a row, each by `text?`. -/
def textList? : List Element → Option Text
  | [] => some []
  | k :: ks => k.text?.bind fun s => (textList? ks).map (s ++ ·)

end

mutual

/-- The nodes under a node that stand in the token chain, in document order. Among them, a
`contextualizer` is a token of its own. -/
def tokens : Element → List Element
  | leaf l => [leaf l]
  | branch _ _ _ ks => tokensList ks
  | contextualizer g s t o ks => contextualizer g s t o ks :: tokensList ks
  | bare s o => [bare s o]

/-- The `tokens` of some nodes in a row. -/
def tokensList : List Element → List Element
  | [] => []
  | k :: ks => k.tokens ++ tokensList ks

end

mutual

/-- A node and all that is under it, each node before its `children`. -/
def walk : Element → List Element
  | leaf l => [leaf l]
  | branch c s o ks => branch c s o ks :: walkList ks
  | contextualizer g s t o ks => contextualizer g s t o ks :: walkList ks
  | bare s o => [bare s o]

/-- Some nodes in a row, each with all that is under it (`walk`). -/
def walkList : List Element → List Element
  | [] => []
  | k :: ks => k.walk ++ walkList ks

end

/-- How a message shows a node with the given range; `content?` and `children?` are what it shows
besides. -/
def label (cls : Class) (start stop : Int) (content? : Option Text) (children? : Option Nat) :
    String :=
  let text := match content? with
    | some s => " " ++ Text.quoted s
    | none => ""
  let count := match children? with
    | some n => " [" ++ toString n ++ "]"
    | none => ""
  cls.name ++ "(" ++ toString start ++ ".." ++ toString stop ++ text ++ count ++ ")"

/-- How a message shows the node `e`, by `label`. -/
def describe (e : Element) : String :=
  match e with
  | leaf l => label e.cls l.span.start l.span.stop (some l.content) none
  | branch _ s _ ks => label e.cls s.start s.stop none (some ks.length)
  | contextualizer _ s t _ ks => label e.cls s.start e.outerEnd (some t) (some ks.length)
  | bare s _ => label e.cls s.start s.stop none none

/-! ### Small facts -/

@[simp] theorem lastEnd_nil (d : Int) : lastEnd d [] = d := by simp [lastEnd]

@[simp] theorem lastEnd_cons (d : Int) (k : Element) (ks : List Element) :
    lastEnd d (k :: ks) = lastEnd k.outerEnd ks := by simp [lastEnd]

@[simp] theorem lastEnd_append (d : Int) (ks ls : List Element) :
    lastEnd d (ks ++ ls) = lastEnd (lastEnd d ks) ls := by
  induction ks generalizing d with
  | nil => simp
  | cons k ks ih => simp [ih]

@[simp] theorem tokensList_nil : tokensList [] = [] := by simp [tokensList]

@[simp] theorem tokensList_append (ks ls : List Element) :
    tokensList (ks ++ ls) = tokensList ks ++ tokensList ls := by
  induction ks with
  | nil => simp
  | cons k ks ih => simp [tokensList, ih]

end Element

end RakuTree
