import RakuTree.Rule.Variable

/-!
# RakuTree.Rule.Signature

Signatures and their parameters. The parentheses of a signature lie outside its
match; whoever declares something puts them on.
-/

namespace RakuTree.Rule

/-! ### Signatures -/

/-- Parameters and the separators between them, in source order. A `param_sep` without text is no
element. -/
def parameters (f : Frame) : List (Part × f.self.Inner) → Plan f (List Element)
  | [] => pure []
  | (.inner p, c) :: cs => do
    let es ← f.build p (some c)
    return es ++ (← parameters f cs)
  | (.named _, c) :: cs => do
    let es ←
      if (Text.trim (c.val.text f.src)).isEmpty then pure []
      else f.trimmed .infixOperator c.val
    return es ++ (← parameters f cs)

/-- Adds to `nodes` an arrow and what a routine returns, for each of the productions that has a
capture with content. -/
def returns (f : Frame) (nodes : List Element) : List Production → Plan f (List Element)
  | [] => pure nodes
  | p :: ps => do
    if f.shape.has p.key then
      let result ← f.need .start (f.get? p.key)
      let arrow ← f.expect .infixOperator (Element.lastEnd f.self.start nodes) result.start
        (.text ['-', '-', '>'])
      let built ← f.buildKey p
      returns f (nodes ++ .leaf arrow :: built) ps
    else returns f nodes ps

/-- A list of parameters, perhaps with what is returned, as in `$x, $y --> Int`. -/
def signature : Rule := fun f => do
  if f.shape.fits [] ["parameter", "param_sep", "typename", "value"] then
    let nodes ← parameters f (f.eachOf [.inner .parameter, .named "param_sep"])
    returns f nodes [.typename, .value]
  else f.unhandled

/-- The signature of a routine, a `signature` if there is anything in it. -/
def multisig : Rule := fun f =>
  if f.shape.is ["signature"] then f.buildKey .signature
  else if f.shape.is [] then pure []
  else f.unhandled

/-! ### Parameters -/

/-- What may stand beside the name of a `parameter`. -/
def parameterExtras : List Part :=
  [.inner .typeConstraint, .named "quant", .inner .defaultValue, .inner .trait,
   .inner .postConstraint]

/-- The parts of a parameter in source order. A quantifier before the variable
(`*@a`, `|c`) is a prefix operator, one behind it (`$x?`, `$x!`) a postfix operator;
`anchor` is the variable. -/
def parameterParts (f : Frame) (anchor : Option f.self.Inner) :
    List (Part × f.self.Inner) → Plan f (List Element)
  | [] => pure []
  | (.inner p, c) :: cs => do
    let es ← f.build p (some c)
    return es ++ (← parameterParts f anchor cs)
  | (.named _, c) :: cs => do
    let isAfter := anchor.any fun a => a.val.stop ≤ c.val.start
    let es ←
      if (Text.trim (c.val.text f.src)).isEmpty then pure []
      else f.trimmed (if isAfter then .postfixOperator else .prefixOperator) c.val
    return es ++ (← parameterParts f anchor cs)

/-- One parameter, with those of `parameterExtras` that it has, in source order. -/
def parameter : Rule := fun f =>
  let extras := parameterExtras.map Part.key
  if ["type_constraint", "param_var", "named_param", "defterm"].any fun key =>
      f.shape.fits [key] extras then
    let anchor := (f.get? "param_var").or (f.get? "named_param")
    parameterParts f anchor
      (f.eachOf ([.inner .paramVar, .inner .namedParam, .inner .defterm] ++ parameterExtras))
  else f.unhandled

/-- The variable of a parameter, or a `signature` to take it apart with. -/
def paramVar : Rule := fun f => do
  let s := f.shape
  if s.is ["signature"] then
    f.balanced .circumfixOperator none .plain (← f.buildKey .signature)
  else if s.fits ["sigil", "name"] ["twigil"] then
    variableLeaf f (f.textOf "sigil") (f.textOf "twigil") (f.textOf "name")
  else if s.fits ["sigil"] ["twigil"] then wholeVariable f (f.textOf "sigil") (f.textOf "twigil")
  else f.unhandled

/-- A parameter with a name of its own in front, `:name(…)`. -/
def renamedParam (f : Frame) : List Production → Plan f (List Element)
  | [] => f.unhandled
  | p :: ps => do
    if f.shape.is ["name", p.key] then
      let name ← f.need .stop (f.get? "name")
      let opening ← f.expect .balancedEnter name.stop f.self.stop (.text ['('])
      let inner ← f.buildKey p
      let head ← f.leafOver .colonBareword f.self.start name.stop
      return [.leaf head,
        ← f.delimited .circumfixOperator opening.span.start f.self.stop 1 .plain inner]
    else renamedParam f ps

/-- A named parameter, `:$x` or `:name(…)`. -/
def namedParam : Rule := fun f => do
  if f.shape.is ["param_var"] then
    let var ← f.need .start (f.get? "param_var")
    let head ← f.leafOver .prefixOperator f.self.start var.start
    return .leaf head :: (← f.buildKey .paramVar)
  else renamedParam f [.paramVar, .namedParam]

/-- `where` and its condition, which is the capture `EXPR`. -/
def whereClause (f : Frame) : Plan f (List Element) := do
  let condition ← f.need .start (f.get? "EXPR")
  let head ← f.expect .bareword f.self.start condition.start (.keyword ["where".toList])
  return .leaf head :: (← f.buildKey .expr)

/-- What a parameter is held to before its name: a `typename`, a `value` or a `whereClause`. -/
def typeConstraint : Rule := fun f =>
  f.buildOnly (if f.shape.is ["EXPR"] then whereClause f else f.unhandled) [.typename, .value]

/-- What a parameter or variable is held to behind its name: a `whereClause` or a `signature`. -/
def postConstraint : Rule := fun f => do
  if f.shape.is ["EXPR"] then whereClause f
  else if f.shape.is ["signature"] then
    f.balanced .circumfixOperator none .plain (← f.buildKey .signature)
  else f.unhandled

/-- `= value`. -/
def defaultValue : Rule := fun f => do
  if f.shape.is ["EXPR"] then
    let equals ← f.sample .infixOperator f.self ['=']
    return .leaf equals :: (← f.buildKey .expr)
  else f.unhandled

end RakuTree.Rule
