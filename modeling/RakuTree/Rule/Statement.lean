import RakuTree.Frame

/-!
# RakuTree.Rule.Statement

Statements. Each statement of a list becomes a branch that also holds the semicolon
behind it. The grammar does not capture semicolons, so they are picked up from the
source: whitespace may stand in front of one, and it has to come before the next
statement.
-/

namespace RakuTree.Rule

/-- Offset of the semicolon that follows offset `cursor`, with nothing but
whitespace in between, and that lies before `limit`. -/
def semicolonAt? (src : Text) (cursor limit : Int) : Option Nat :=
  let rest := Text.window src cursor (max limit cursor)
  match Text.trimLeft rest with
  | ';' :: _ => some (cursor.toNat + Text.leadingSpace rest)
  | _ => none

/-- Statements in a row, up to `stop`. -/
def statements (f : Frame) (stop : Int) : List f.self.Inner → Plan f (List Element)
  | [] => pure []
  | c :: cs => do
    let nodes ← f.build .statement (some c)
    let limit := ((cs.head?).map (·.val.start)).getD stop
    let cursor := Element.lastEnd c.val.start nodes
    let semi := (semicolonAt? f.src cursor limit).map fun i =>
      Element.leaf (Leaf.found .semicolon i [';'] f.origin)
    let all := nodes ++ semi.toList
    if all.isEmpty then statements f stop cs
    else
      let statement ← f.branch .statement all
      return statement :: (← statements f stop cs)

/-- The whole source, a `statementlist` if there is anything in it. -/
def top : Rule := fun f =>
  if f.shape.is ["statementlist"] then f.buildKey .statementlist
  else if f.shape.is [] then pure []
  else f.unhandled

/-- Statements up to the end of the source; that is where the last semicolon is searched for
(`statements`). -/
def statementlist : Rule := fun f =>
  if f.shape.is ["statement"] then statements f f.src.length (f.each "statement")
  else if f.shape.is [] then pure []
  else f.unhandled

/-- Statements inside brackets, up to the end of the match (`statements`). -/
def semilist : Rule := fun f =>
  if f.shape.is ["statement"] then statements f f.self.stop (f.each "statement")
  else if f.shape.is [] then pure []
  else f.unhandled

/-- A statement: labelled, a control statement (`statementControl`), or an expression with
modifiers. -/
def statement : Rule := fun f => do
  let s := f.shape
  if s.is ["label", "statement"] then
    let label ← f.buildKey .label
    return label ++ (← f.buildKey .statement)
  else if s.is ["statement_control"] then f.buildKey .statementControl
  else if s.fits ["EXPR"] ["statement_mod_cond", "statement_mod_loop"] then
    let nodes ← f.buildKey .expr
    return nodes ++ (← f.buildInOrder [.statementModCond, .statementModLoop])
  else if s.is [] then pure []
  else f.unhandled

/-- `… if …` and its like. -/
def statementModCond : Rule := fun f => do
  if f.shape.is ["sym", "modifier_expr"] then
    let sym ← f.trimmedKey .bareword "sym"
    return sym ++ (← f.buildKey .modifierExpr)
  else f.unhandled

/-- `… for …` and its like. -/
def statementModLoop : Rule := fun f => do
  if f.shape.is ["sym", "smexpr"] then
    let sym ← f.trimmedKey .bareword "sym"
    return sym ++ (← f.buildKey .smexpr)
  else f.unhandled

/-- The condition of a modifier, as behind `if`. -/
def modifierExpr : Rule := fun f =>
  if f.shape.is ["EXPR"] then f.buildKey .expr else f.unhandled

/-- What a loop modifier runs over, as behind `for`. -/
def smexpr : Rule := fun f =>
  if f.shape.is ["EXPR"] then f.buildKey .expr else f.unhandled

/-- `do`, `try`, `gather`, … before a block or statement. -/
def statementPrefix : Rule := fun f => do
  if f.shape.is ["sym", "blorst"] then
    let sym ← f.trimmedKey .bareword "sym"
    return sym ++ (← f.buildKey .blorst)
  else f.unhandled

/-- A block or a statement, as behind `try`. -/
def blorst : Rule := fun f => f.buildOnly f.unhandled [.block, .statement]

end RakuTree.Rule
