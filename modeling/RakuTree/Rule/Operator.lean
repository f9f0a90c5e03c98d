import RakuTree.Frame

/-!
# RakuTree.Rule.Operator

Expressions. The operands of an operator are the operands of the match, the
operator is a named capture. Infix chains come out flat: `a`, `+`, `b`, `+`, `c`.

One captured operator stands for every place where it joins two operands, and once
other operators are wrapped around it its offset says little. So an operator leaf
is used where it fits between the operands, and searched for in the source
otherwise.
-/

namespace RakuTree.Rule

/-! ### Operands -/

/-- Builds operand `i`, which is `c?`. It has to be there and to come to
something. -/
def operandOf (f : Frame) (i : Nat) (c? : Option f.self.Inner) : Plan f (List Element) := do
  match c? with
  | none => f.refuse ("missing operand " ++ toString i)
  | some c =>
    let built ← f.build .expr (some c)
    if built.isEmpty then f.refuse ("operand " ++ toString i ++ " is empty") else return built

/-- Builds operand `i`. -/
def operand (f : Frame) (i : Nat) : Plan f (List Element) :=
  operandOf f i f.self.innerOperands[i]?

/-! ### Infix chains -/

/-- One leaf over all parts of an operator, or over `OPER` when it has none. -/
def operatorLeaf (f : Frame) (cls : LeafClass) (keys : List String) : Plan f Leaf :=
  let wide := (keys.flatMap f.self.captures).filter Match.isWide
  match if wide.isEmpty then f.self.captures "OPER" else wide with
  | [] => f.refuse "operator without text"
  | p :: ps =>
    let start := ps.foldl (fun i q => min i q.start) p.start
    let stop := ps.foldl (fun i q => max i q.stop) p.stop
    f.trimmedLeaf cls (.plain start stop) {}

/-- The operator between the elements `left` and `right`: the captured one where it
fits, else the next occurrence of its text. -/
def placeOperator (f : Frame) (cls : LeafClass) (operator : Leaf) (left right : List Element) :
    Plan f Leaf :=
  let start := Element.lastEnd f.self.start left
  let stop := Element.firstStart f.self.stop right
  if start ≤ operator.span.start ∧ operator.span.stop ≤ stop then pure operator
  else f.expect cls start stop (.text operator.content)

/-- Goes on with an infix chain: `nodes` is what the first `i` operands came to. -/
def joinOperands (f : Frame) (cls : LeafClass) (operator : Leaf) (i : Nat) (nodes : List Element) :
    List f.self.Inner → Plan f (List Element)
  | [] => pure nodes
  | c :: cs => do
    let built ← operandOf f i (some c)
    if i = 0 then joinOperands f cls operator (i + 1) (nodes ++ built) cs
    else
      let op ← placeOperator f cls operator nodes built
      joinOperands f cls operator (i + 1) (nodes ++ .leaf op :: built) cs

/-- The first of some elements, which has to be a leaf; if not, this stops with `Fault.outside`. -/
def firstLeaf (f : Frame) : List Element → Plan f Leaf
  | .leaf l :: _ => pure l
  | _ => .fail (.outside .list)

/-- Operands joined by an infix operator, which may also stand behind the last of
them (`1, 2,`). -/
def infixChain (f : Frame) (cls : LeafClass) (keys : List String) : Plan f (List Element) := do
  let operator ←
    if cls = .infixOperator ∧ f.shape.fits ["infix"] ["OPER"] then do
      firstLeaf f (← f.buildKey .infixOp)
    else operatorLeaf f cls keys
  if f.self.operands.isEmpty then f.refuse "infix without operands"
  else
    let nodes ← joinOperands f cls operator 0 [] f.self.innerOperands
    let trailing := f.find? cls (← f.endOf nodes) f.self.stop (.text operator.content)
    return nodes ++ (trailing.map Element.leaf).toList

/-- `a ?? b !! c`. The middle is a capture of the operator. -/
def ternary (f : Frame) : Plan f (List Element) := do
  let condition ← operand f 0
  let middle ← f.build .expr ((f.get? "infix").bind (·.inner? "EXPR"))
  let otherwise ← operand f 1
  let thenOp ← f.between .infixOperator condition middle (.text ['?', '?'])
  let elseOp ← f.between .infixOperator middle otherwise (.text ['!', '!'])
  return condition ++ .leaf thenOp :: middle ++ .leaf elseOp :: otherwise

/-! ### Other operators -/

/-- An operand and its postfix operator. `2i` is one imaginary number. -/
def postfixed (f : Frame) (operand postfixes : List Element) : Plan f (List Element) :=
  match operand, postfixes with
  | [.leaf n], .leaf p :: _ =>
    match n.cls with
    | .number c =>
      if c ≠ .imaginary ∧ p.content = ['i'] ∧ n.span.stop = p.span.start then
        return [.leaf (← f.leafAt (.number .imaginary) n.span.start (n.content ++ ['i']))]
      else return operand ++ postfixes
    | _ => return operand ++ postfixes
  | _, _ => return operand ++ postfixes

/-- `[+] @a`: the bracketed operator is one prefix operator. -/
def reduction (f : Frame) : Plan f (List Element) := do
  let op ← f.need .start (f.get? "op")
  match Text.findLast? f.src ['['] f.self.start (op.start + 1),
      Text.find? f.src [']'] op.stop f.self.stop with
  | some i, some j =>
    let head ← f.leafOver .prefixOperator i (j + 1)
    return .leaf head :: (← f.buildIf .args)
  | _, _ => f.refuse "reduction brackets not found"

/-! ### Terms -/

/-- Captures that make up a `term` by themselves. -/
def terms : List Production :=
  [.value, .variableUse, .circumfix, .colonpair, .fatarrow, .scopeDeclarator, .packageDeclarator,
   .routineDeclarator, .regexDeclarator, .typeDeclarator, .multiDeclarator, .statementPrefix,
   .sigterm, .capterm, .dotty, .pblock]

/-- A term: one of `terms` by itself, or a word with or without arguments. -/
def term (f : Frame) : Plan f (List Element) :=
  let s := f.shape
  f.buildOnly
    (if s.is ["identifier", "args"] then do
      let head ← f.buildKey .identifier
      return head ++ (← f.buildKey .args)
    else if s.is ["identifier"] then f.buildKey .identifier
    else if s.is ["longname", "args"] then do
      let head ← f.buildKey .longname
      return head ++ (← f.buildKey .args)
    else if s.is ["longname"] then f.buildKey .longname
    else if s.is ["sym", "args"] then do
      let head ← f.trimmedKey .bareword "sym"
      return head ++ (← f.buildKey .args)
    else if s.is ["sym"] then f.trimmedKey .bareword "sym"
    else f.unhandled)
    terms

/-- An operand, an operator wrapped around the next one, and one of `ps`; else a
reduction or a term. -/
def hyperPostfix (f : Frame) : List Production → Plan f (List Element)
  | [] => if f.shape.fits ["op"] ["args", "triangle"] then reduction f else term f
  | p :: ps =>
    if f.shape.fits [p.key, "postfix_prefix_meta_operator"] ["OPER"] then do
      let hyper ← f.trimmedKey .hyperOperator "postfix_prefix_meta_operator"
      let head ← operand f 0
      return head ++ hyper ++ (← f.buildKey p)
    else hyperPostfix f ps

/-- An expression: the shapes of operators are tried first, and then those of a `term`. -/
def expr : Rule := fun f => do
  let s := f.shape
  if s.fits ["infix"] ["OPER"] && (f.get? "infix").any fun c => (Shape.of c.val).has "EXPR" then
    ternary f
  else if s.fits ["infix"]
      ["OPER", "infix_prefix_meta_operator", "infix_postfix_meta_operator"] then
    infixChain f .infixOperator
      ["infix_prefix_meta_operator", "infix", "infix_postfix_meta_operator"]
  else if s.fits ["infix_circumfix_meta_operator"] ["OPER", "infix"] then
    infixChain f .hyperOperator ["infix_circumfix_meta_operator"]
  else if s.fits ["prefix"] ["OPER"] then
    let head ← f.buildKey .prefixOp
    return head ++ (← operand f 0)
  else if s.fits ["prefix", "prefix_postfix_meta_operator"] ["OPER"] then
    let head ← f.buildMixed .hyperOperator
      (f.eachOf [.inner .prefixOp, .named "prefix_postfix_meta_operator"])
    return head ++ (← operand f 0)
  else if s.fits ["postfix"] ["OPER"] then
    let head ← operand f 0
    postfixed f head (← f.buildKey .postfixOp)
  else if s.fits ["postcircumfix"] ["OPER"] then
    let head ← operand f 0
    return head ++ (← f.buildKey .postcircumfix)
  else if s.fits ["dotty"] ["OPER"] && !f.self.operands.isEmpty then
    let head ← operand f 0
    return head ++ (← f.buildKey .dotty)
  else hyperPostfix f [.postfixOp, .postcircumfix, .dotty]

/-- An infix operator that has a match of its own, such as `+`. -/
def infixOp : Rule := fun f =>
  if f.shape.fits [] ["sym"] then f.trimmed .infixOperator f.self else f.unhandled

/-- A prefix operator, such as `-` in `-$x`. -/
def prefixOp : Rule := fun f =>
  if f.shape.fits [] ["sym"] then f.trimmed .prefixOperator f.self else f.unhandled

/-- A postfix operator, such as `++` in `$i++`. -/
def postfixOp : Rule := fun f =>
  if f.shape.fits [] ["sym", "dig"] then f.trimmed .postfixOperator f.self else f.unhandled

/-! ### Method calls -/

/-- The dot of a method call and what is called, as in `.name`. -/
def dotty : Rule := fun f => do
  if f.shape.is ["sym", "dottyop"] then
    let sym ← f.trimmedKey .infixOperator "sym"
    return sym ++ (← f.buildKey .dottyop)
  else f.unhandled

/-- What stands behind the dot: a `methodop`, a `colonpair` or a `postop`. -/
def dottyop : Rule := fun f => f.buildOnly f.unhandled [.methodop, .colonpair, .postop]

/-- A postfix operator behind a dot, as in `.[1]`. -/
def postop : Rule := fun f => f.buildOnly f.unhandled [.postfixOp, .postcircumfix]

/-- A method name, variable or quote, perhaps with arguments. They are built first, although they
stand behind (`Production.BuildsFirst`). -/
def methodop : Rule := fun f => do
  let args ← f.buildIf .args
  if f.shape.fits ["longname"] ["args"] then return (← f.buildKey .longname) ++ args
  else if f.shape.fits ["variable"] ["args"] then return (← f.buildKey .variableUse) ++ args
  else if f.shape.fits ["quote"] ["args"] then return (← f.buildKey .quote) ++ args
  else f.unhandled

end RakuTree.Rule
