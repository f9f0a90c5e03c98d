import RakuTree.Build

/-!
# RakuTree.Document

The document tree of a source. The elements of the statements, the layout before
and behind them, and the layout in all gaps between: together they cover the source
from its first to its last character.
-/

namespace RakuTree.Document

/-- The tokens of the reading `r` as elements. Its events are logged, and its fault stops the build.
-/
def tokensOf (r : Layout.Reading) : Build (List Element) := do
  Build.log r.events
  match r.fault? with
  | some e => throw e
  | none => return r.tokens.map Element.leaf

/-- The value of the filling `x`. Its events are logged, and its fault stops the build. -/
def valueOf {α : Type} (x : Filling α) : Build α := do
  Build.log x.events
  match x.fault? with
  | some e => throw e
  | none => return x.value

/-- Does a line begin at offset `i`? It cannot be told behind the end of the
source. -/
def beginsLine (src : Text) (i : Int) : Build Bool :=
  if i = 0 then pure true
  else
    match Text.charAt? src (i - 1) with
    | some c => pure (c == '\n')
    | none => throw (.outside .text)

/-- The document of the match `m` for the whole source: the statements that `produce` makes of it,
with layout around and between them. -/
def build (src : Text) (options : Options) (m : Match) : Build Element := do
  let statements ← produce src options .top m
  let docs := (← get).ledger.hereDocs
  let strict := options.strictGaps
  let start := Element.firstStart src.length statements
  let stop := Element.lastEnd src.length statements
  let leading ← tokensOf (Layout.scan docs strict 0 true (Text.slice src 0 start))
  let atLine ← beginsLine src stop
  let trailing ← tokensOf (Layout.scan docs strict stop atLine (Text.sliceFrom src stop))
  let root := Element.branch .document (Span.ofText 0 src) (some Production.top.key)
    (leading ++ statements ++ trailing)
  let document ← valueOf (root.fill ⟨src, docs, strict⟩)
  Build.log [.built src.length document.children.length]
  return document

end RakuTree.Document
