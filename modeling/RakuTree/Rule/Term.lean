import RakuTree.Frame

/-!
# RakuTree.Rule.Term

Bracketed terms, subscripts, argument lists, pairs and captures.
-/

namespace RakuTree.Rule

/-! ### Brackets -/

/-- The opening delimiter of a word list: `<<`, or else the first character. -/
def wordListOpener (text : Text) : Text :=
  if ['<', '<'].isPrefixOf text then ['<', '<'] else text.take 1

/-- A subscript or argument list behind a term, as in `@a[1]`. -/
def postcircumfix : Rule := fun f => do
  let s := f.shape
  let text := Text.trimLeft f.text
  let opener := text.take 1
  if s.fits [] ["semilist"] && [['['], ['\x7b']].contains opener then
    f.balanced .postCircumfixOperator none .plain (← f.buildIf .semilist)
  else if s.fits [] ["arglist"] && opener == ['('] then
    f.balanced .postCircumfixOperator none .plain (← f.buildIf .arglist)
  else if s.fits [] ["nibble"] && [['<'], ['«']].contains opener then
    let front := wordListOpener text
    f.balanced .postCircumfixOperator (some (front, closerFor front)) .plain (← f.buildIf .nibble)
  else f.unhandled

/-- A bracketed term, as in `(1, 2)`. Word lists such as `<a b>` are strings. -/
def circumfix : Rule := fun f => do
  let s := f.shape
  let text := Text.trim f.text
  let opener := text.take 1
  if s.fits [] ["semilist"] && [['('], ['[']].contains opener then
    f.balanced .circumfixOperator none .plain (← f.buildIf .semilist)
  else if s.is ["pblock"] then f.buildKey .pblock
  else if s.fits [] ["nibble"] && [['<'], ['«']].contains opener then
    let front := wordListOpener text
    let back := closerFor front
    let cls := if front = ['<'] then StringClass.escapingWords else .interpolatingWords
    let body := Text.slice text front.length (text.length - back.length)
    return [.leaf (← f.trimmedLeaf (.string cls) f.self { opener := front, closer := back, body })]
  else f.unhandled

/-! ### Arguments -/

/-- Parentheses as a pair of delimiters. -/
def parentheses : Option (Text × Text) := some (['('], [')'])

/-- The arguments of a call, in `parentheses` or without. -/
def args : Rule := fun f => do
  let s := f.shape
  if s.is ["semiarglist"] then
    f.balanced .postCircumfixOperator parentheses .plain (← f.buildKey .semiarglist)
  else if s.is ["arglist"] then f.buildKey .arglist
  else if s.is [] then
    if ['('].isPrefixOf (Text.trim f.text) then
      f.balanced .postCircumfixOperator parentheses .plain []
    else pure []
  else f.unhandled

/-- Argument lists with semicolons between them; `nodes` is what the first `i` came
to. -/
def joinArglists (f : Frame) (i : Nat) (nodes : List Element) :
    List f.self.Inner → Plan f (List Element)
  | [] => pure nodes
  | c :: cs => do
    let built ← f.build .arglist (some c)
    if i = 0 then joinArglists f (i + 1) (nodes ++ built) cs
    else
      let semi ← f.between .semicolon nodes built (.text [';'])
      joinArglists f (i + 1) (nodes ++ .leaf semi :: built) cs

/-- Argument lists separated by semicolons, each an `arglist`. -/
def semiarglist : Rule := fun f =>
  if f.shape.is ["arglist"] then joinArglists f 0 [] (f.each "arglist")
  else if f.shape.is [] then pure []
  else f.unhandled

/-- One argument list, an expression (`expr`) if there is anything in it. -/
def arglist : Rule := fun f =>
  if f.shape.is ["EXPR"] then f.buildKey .expr
  else if f.shape.is [] then pure []
  else f.unhandled

/-! ### Pairs -/

/-- `key => value`. -/
def fatarrow : Rule := fun f => do
  if f.shape.is ["key", "val"] then
    let key ← f.trimmedKey .bareword "key"
    let value ← f.build .expr (f.get? "val")
    let arrow ← f.between .infixOperator key value (.text ['=', '>'])
    return key ++ .leaf arrow :: value
  else f.unhandled

/-- `:key`, `:key(…)`, `:(…)`, `:$var`. -/
def colonpair : Rule := fun f => do
  let s := f.shape
  if s.is ["identifier", "coloncircumfix"] then
    let identifier ← f.need .stop (f.get? "identifier")
    let head ← f.leafOver .colonBareword f.self.start identifier.stop
    return .leaf head :: (← f.buildKey .coloncircumfix)
  else if s.fits ["identifier"] ["num"] then f.trimmed .colonBareword f.self
  else if s.is ["coloncircumfix"] then
    let circumfix ← f.need .start (f.get? "coloncircumfix")
    let head ← f.leafOver .colonBareword f.self.start circumfix.start
    return .leaf head :: (← f.buildKey .coloncircumfix)
  else if s.is ["var"] then
    let var ← f.need .start (f.get? "var")
    let head ← f.leafOver .prefixOperator f.self.start var.start
    return .leaf head :: (← f.build .variableUse (f.get? "var"))
  else if s.is ["fakesignature"] then
    let children ← f.buildKey .fakesignature
    return [← f.delimited .circumfixOperator f.self.start f.self.stop 2 .plain children]
  else f.unhandled

/-- The bracketed value of a pair, as in `:a(1)`. -/
def coloncircumfix : Rule := fun f =>
  if f.shape.is ["circumfix"] then f.buildKey .circumfix else f.unhandled

/-! ### Signatures and captures as terms -/

/-- `:( … )`. -/
def sigterm : Rule := fun f => do
  if f.shape.is ["fakesignature"] then
    let children ← f.buildKey .fakesignature
    return [← f.delimited .circumfixOperator f.self.start f.self.stop 2 .plain children]
  else f.unhandled

/-- The parameters of a signature that stands for itself, as in `:($x)`. -/
def fakesignature : Rule := fun f =>
  if f.shape.is ["signature"] then f.buildKey .signature
  else if f.shape.is [] then pure []
  else f.unhandled

/-- `\( … )`, `\term` and `\value`. -/
def capterm : Rule := fun f => do
  let s := f.shape
  let backslash ← f.leafAt .prefixOperator f.self.start ['\\']
  if s.fits [] ["semiarglist"] && ['\\', '('].isPrefixOf f.text then
    let children ← f.buildIf .semiarglist
    let brackets ←
      f.delimited .circumfixOperator (f.self.start + 1) f.self.stop 1 .plain children
    return [.leaf backslash, brackets]
  else if s.is ["termish"] then return .leaf backslash :: (← f.build .expr (f.get? "termish"))
  else if s.is ["value"] then return .leaf backslash :: (← f.buildKey .value)
  else f.unhandled

end RakuTree.Rule
