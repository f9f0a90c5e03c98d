import RakuTree.Frame

/-!
# RakuTree.Rule.Control

Control statements and blocks.
-/

namespace RakuTree.Rule

/-! ### Conditionals -/

/-- The conditions of a chain with their blocks; `nodes` comes before. Where the
keywords run out they are searched for. -/
def conditions (f : Frame) (nodes : List Element) :
    List f.self.Inner → List f.self.Inner → Plan f (List Element)
  | _, [] => pure nodes
  | sym :: syms, xblock :: xblocks => do
    let head ← f.trimmed .bareword sym.val
    let built ← f.build .xblock (some xblock)
    conditions f (nodes ++ head ++ built) syms xblocks
  | [], xblock :: xblocks => do
    let head ← f.expect .bareword (← f.endOf nodes) xblock.val.start
      (.keyword ["elsif".toList, "orwith".toList])
    let built ← f.build .xblock (some xblock)
    conditions f (nodes ++ .leaf head :: built) [] xblocks

/-- `if` and `with` chains, perhaps with an `else`. -/
def conditional (f : Frame) : Plan f (List Element) := do
  let nodes ← conditions f [] (f.each "sym") (f.each "xblock")
  if f.shape.has "else" then
    let otherwise ← f.need .start (f.get? "else")
    let head ← f.expect .bareword (← f.endOf nodes) otherwise.start (.keyword ["else".toList])
    return nodes ++ .leaf head :: (← f.build .pblock (f.get? "else"))
  else return nodes

/-! ### Loops -/

/-- The three parts of a loop head, the first two each with a semicolon, as in `(my $i = 0; $i < 3;
$i++)`. -/
def loopParts : List (String × Bool) := [("e1", true), ("e2", true), ("e3", false)]

/-- The inside of a loop head from offset `cursor` on, and where it ends. The head
ends before `limit`. -/
def loopHead (f : Frame) (limit : Int) (cursor : Int) :
    List (String × Bool) → Plan f (List Element × Int)
  | [] => pure ([], cursor)
  | (key, hasSemicolon) :: parts => do
    let built ← if f.shape.has key then f.build .expr (f.get? key) else pure []
    let cursor := Element.lastEnd cursor built
    if hasSemicolon then
      let semi ← f.expect .semicolon cursor limit (.text [';'])
      let (inner, stop) ← loopHead f limit semi.span.stop parts
      return (built ++ .leaf semi :: inner, stop)
    else
      let (inner, stop) ← loopHead f limit cursor parts
      return (built ++ inner, stop)

/-- `loop (a; b; c) { … }`. -/
def loop (f : Frame) : Plan f (List Element) := do
  let sym ← f.need .stop (f.get? "sym")
  let block ← f.need .start (f.get? "block")
  let opening ← f.expect .balancedEnter sym.stop block.start (.text ['('])
  let (inner, cursor) ← loopHead f block.start opening.span.stop loopParts
  let closing ← f.expect .balancedExit cursor block.start (.text [')'])
  let head ← f.branch .circumfixOperator (.leaf opening :: inner ++ [.leaf closing])
  let name ← f.trimmed .bareword sym
  return name ++ head :: (← f.buildKey .block)

/-! ### Control statements -/

/-- A control statement, by its word in `sym` and its shape. -/
def statementControl : Rule := fun f => do
  let s := f.shape
  if s.fits ["sym", "xblock"] ["else"] then conditional f
  else if ["e1", "e2", "e3"].all s.present && s.fits ["sym", "block"] ["e1", "e2", "e3"] then
    loop f
  else if s.is ["sym", "block"] then
    let sym ← f.trimmedKey .bareword "sym"
    return sym ++ (← f.buildKey .block)
  else if s.is ["sym", "block", "wu", "EXPR"] then
    f.buildMixed .bareword (f.eachOf [.named "sym", .inner .block, .named "wu", .inner .expr])
  else if s.fits ["sym", "module_name"] ["arglist"] then
    let sym ← f.trimmedKey .bareword "sym"
    let name ← f.buildKey .moduleName
    return sym ++ name ++ (← f.buildIf .arglist)
  else if s.is ["sym", "version"] then
    let sym ← f.trimmedKey .bareword "sym"
    return sym ++ (← f.buildKey .version)
  else if s.is ["sym", "EXPR"] then
    let sym ← f.trimmedKey .bareword "sym"
    return sym ++ (← f.buildKey .expr)
  else f.unhandled

/-! ### Blocks -/

/-- An expression and its block, as behind `if`. -/
def xblock : Rule := fun f => do
  if f.shape.is ["EXPR", "pblock"] then
    let condition ← f.buildKey .expr
    return condition ++ (← f.buildKey .pblock)
  else f.unhandled

/-- A block, perhaps with an arrow and parameters, as in `-> $x { }`. -/
def pblock : Rule := fun f => do
  if f.shape.is ["lambda", "signature", "blockoid"] then
    let arrow ← f.trimmedKey .prefixOperator "lambda"
    let signature ← f.buildKey .signature
    return arrow ++ signature ++ (← f.buildKey .blockoid)
  else if f.shape.is ["lambda", "blockoid"] then
    let arrow ← f.trimmedKey .prefixOperator "lambda"
    return arrow ++ (← f.buildKey .blockoid)
  else if f.shape.is ["blockoid"] then f.buildKey .blockoid
  else f.unhandled

/-- A block without parameters, a `blockoid`. -/
def block : Rule := fun f =>
  if f.shape.is ["blockoid"] then f.buildKey .blockoid else f.unhandled

/-- Statements between braces, as a `block` branch. -/
def blockoid : Rule := fun f => do
  let braces := some (['\x7b'], ['\x7d'])
  if f.shape.is ["statementlist"] then
    f.balanced .block braces .block (← f.buildKey .statementlist)
  else if f.shape.is [] then f.balanced .block braces .block []
  else f.unhandled

/-- A block of code in a regex, a `block`. -/
def codeblock : Rule := fun f =>
  if f.shape.is ["block"] then f.buildKey .block else f.unhandled

end RakuTree.Rule
