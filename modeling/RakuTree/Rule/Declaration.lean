import RakuTree.Frame

/-!
# RakuTree.Rule.Declaration

Declarations of variables, packages, routines and types. `my $x = 1` comes to a
branch with `my` and `$x`, followed by the elements of the initializer.
-/

namespace RakuTree.Rule

/-! ### Variables -/

/-- Where the initializer inside a scoped declaration starts, if there is one with content
(`scopeDeclarator`). -/
def initializerStart? (declaration : Match) : Option Int := do
  let declarator ← declaration.capture? "declarator"
  let initializer ← declarator.capture? "initializer"
  if initializer.isWide then some initializer.start else none

/-- `my`, `our`, `has`, … and what follows. Everything before the initializer goes
into one branch. -/
def scopeDeclarator : Rule := fun f => do
  if f.shape.is ["sym", "scoped"] then
    let sym ← f.trimmedKey .bareword "sym"
    let nodes := sym ++ (← f.buildKey .scopedDecl)
    let declaration ← f.need .captures (f.get? "scoped")
    let split := initializerStart? declaration
    let inHead := fun (e : Element) => !split.any (· ≤ e.start)
    let head ← f.branch .scopeDeclarator (nodes.takeWhile inHead)
    return head :: nodes.dropWhile inHead
  else f.unhandled

/-- Builds the match under the first of `ps` that alone has content, a second
capture of the declarator apart. -/
def buildDeclared (f : Frame) (other : Plan f (List Element)) :
    List Production → Plan f (List Element)
  | [] => other
  | p :: ps =>
    if f.shape.is [p.key] || f.shape.is ["DECL", p.key] then f.buildKey p
    else buildDeclared f other ps

/-- What stands behind the scope: a `declarator`, perhaps with types. -/
def scopedDecl : Rule := fun f =>
  let s := f.shape
  buildDeclared f
    (if s.is ["typename", "declarator"] || s.is ["DECL", "typename", "declarator"] then do
      let types ← f.buildAll .typename (f.each "typename")
      return types ++ (← f.buildKey .declarator)
    else f.unhandled)
    [.declarator, .multiDeclarator, .packageDeclarator]

/-- A declarator: a variable, a list of variables, a term, or a routine, regex or type. An
`initializer` is built first, although it stands behind (`Production.BuildsFirst`). -/
def declarator : Rule := fun f => do
  let s := f.shape
  let initializer ← f.buildIf .initializer
  if s.fits ["variable_declarator"] ["initializer"] then
    return (← f.buildKey .variableDeclarator) ++ initializer
  else if s.fits ["signature"] ["initializer"] then
    let children ← f.buildKey .signature
    let signature ← f.need .source (f.get? "signature")
    return (← f.balancedAround .signature signature ['('] children) ++ initializer
  else if s.fits ["defterm"] ["initializer"] then
    let defterm ← f.need .start (f.get? "defterm")
    let backslash := f.find? .prefixOperator f.self.start defterm.start (.text ['\\'])
    return (backslash.map Element.leaf).toList ++ (← f.buildKey .defterm) ++ initializer
  else f.buildOnly f.unhandled [.routineDeclarator, .regexDeclarator, .typeDeclarator]

/-- A variable with its shape, traits and constraints, as in `@a[3] is rw`. -/
def variableDeclarator : Rule := fun f =>
  if f.shape.fits ["variable"] ["shape", "trait", "post_constraint"] then
    f.buildInOrder [.variableUse, .shape, .trait, .postConstraint]
  else f.unhandled

/-- `[3]`, `{Str}` or `(Int)` behind a declared variable. -/
def shape : Rule := fun f => do
  if f.shape.is ["semilist"] then
    f.balanced .postCircumfixOperator none .plain (← f.buildKey .semilist)
  else if f.shape.is ["signature"] then
    f.balanced .postCircumfixOperator none .plain (← f.buildKey .signature)
  else if f.shape.is [] then f.balanced .postCircumfixOperator none .plain []
  else f.unhandled

/-- `= value` or `.= method`. -/
def initializer : Rule := fun f => do
  if f.shape.is ["sym", "EXPR"] then
    let sym ← f.trimmedKey .infixOperator "sym"
    return sym ++ (← f.buildKey .expr)
  else if f.shape.is ["sym", "dottyopish"] then
    let sym ← f.trimmedKey .infixOperator "sym"
    return sym ++ (← f.build .dottyop ((f.get? "dottyopish").bind (·.inner? "term")))
  else f.unhandled

/-! ### Types and traits -/

/-- The name of a type, perhaps with arguments in brackets or `of` another type. -/
def typename : Rule := fun f => do
  let s := f.shape
  if s.is ["longname"] then f.buildKey .longname
  else if s.is ["longname", "arglist"] then
    let longname ← f.need .stop (f.get? "longname")
    let opening ← f.expect .balancedEnter longname.stop f.self.stop (.text ['['])
    match Text.findLast? f.src [']'] opening.span.stop f.self.stop with
    | none => f.refuse "unterminated type arguments"
    | some closing =>
      let args ← f.buildKey .arglist
      let nodes ← f.buildKey .longname
      let brackets ← f.delimited .postCircumfixOperator opening.span.start (closing + 1) 1 .plain args
      return nodes ++ [brackets]
  else if s.is ["longname", "typename"] then
    let longname ← f.need .stop (f.get? "longname")
    let inner ← f.need .start (f.get? "typename")
    let of ← f.expect .bareword longname.stop inner.start (.keyword [['o', 'f']])
    let nodes ← f.buildKey .longname
    return nodes ++ .leaf of :: (← f.buildKey .typename)
  else if s.fits ["identifier"] ["colonpair"] then f.trimmed .bareword f.self
  else f.unhandled

/-- A trait, `is rw` or a colon pair. -/
def trait : Rule := fun f => f.buildOnly f.unhandled [.traitMod, .colonpair]

/-- A trait with its word: `is`, `does`, `returns`, `handles`, … -/
def traitMod : Rule := fun f => do
  let s := f.shape
  let head ← f.trimmedKey .bareword "sym"
  if s.fits ["sym", "longname"] ["circumfix"] then
    let name ← f.buildKey .longname
    return head ++ name ++ (← f.buildIf .circumfix)
  else if s.is ["sym", "typename"] then return head ++ (← f.buildKey .typename)
  else if s.is ["sym", "identifier", "pblock"] then
    let name ← f.buildKey .identifier
    return head ++ name ++ (← f.buildKey .pblock)
  else if s.is ["sym", "term"] then return head ++ (← f.build .expr (f.get? "term"))
  else f.unhandled

/-- The captures of a type declaration with the word `sym`: those it needs and those it may have. -/
def typeDeclaratorKeys? (sym : Text) : Option (List String × List String) :=
  if sym = "enum".toList then some (["sym", "term"], ["longname", "variable", "trait"])
  else if sym = "subset".toList then some (["sym", "longname"], ["trait", "EXPR"])
  else if sym = "constant".toList then
    some (["sym", "initializer"], ["defterm", "variable", "trait"])
  else none

/-- The parts of a type declaration in source order; `nodes` comes before. -/
def typeParts (f : Frame) (nodes : List Element) :
    List (Part × f.self.Inner) → Plan f (List Element)
  | [] => pure nodes
  | (.named "EXPR", c) :: cs => do
    let head ← f.expect .bareword (← f.endOf nodes) c.val.start (.keyword ["where".toList])
    let built ← f.build .expr (some c)
    typeParts f (nodes ++ .leaf head :: built) cs
  | (.named "term", c) :: cs => do
    let built ← f.build .expr (some c)
    typeParts f (nodes ++ built) cs
  | (.named _, c) :: cs => do
    let built ← f.trimmed .bareword c.val
    typeParts f (nodes ++ built) cs
  | (.inner p, c) :: cs => do
    let built ← f.build p (some c)
    typeParts f (nodes ++ built) cs

/-- `enum`, `subset` and `constant`. -/
def typeDeclarator : Rule := fun f =>
  match typeDeclaratorKeys? (f.textOf "sym") with
  | some (required, optional) =>
    if f.shape.fits required optional then
      typeParts f [] (f.eachOf [.named "sym", .inner .longname, .inner .variableUse,
        .inner .defterm, .inner .trait, .named "EXPR", .named "term", .inner .initializer])
    else f.unhandled
  | none => f.unhandled

/-! ### Packages and routines -/

/-- `class`, `role`, `module`, … and what follows. -/
def packageDeclarator : Rule := fun f => do
  if f.shape.is ["sym", "package_def"] then
    let sym ← f.trimmedKey .bareword "sym"
    return sym ++ (← f.buildKey .packageDef)
  else f.unhandled

/-- A package: name, traits and a block, or the rest of the file behind a semicolon, as in `unit
module A;`. -/
def packageDef : Rule := fun f => do
  let s := f.shape
  if !s.content.isEmpty && s.fits [] ["longname", "trait", "blockoid"] then
    f.buildInOrder [.longname, .trait, .blockoid]
  else if s.fits ["statementlist"] ["longname", "trait"] then
    let nodes ← f.buildInOrder [.longname, .trait]
    let rest ← f.need .stop (f.get? "statementlist")
    let semi ← f.expect .semicolon (Element.lastEnd f.self.start nodes) rest.stop (.text [';'])
    return nodes ++ .leaf semi :: (← f.buildKey .statementlist)
  else f.unhandled

/-- The first of `ps` that has content beside the word of the declaration, behind
that word. -/
def wordAndOne (f : Frame) (other : Plan f (List Element)) :
    List Production → Plan f (List Element)
  | [] => other
  | p :: ps => do
    if f.shape.is ["sym", p.key] then
      let sym ← f.trimmedKey .bareword "sym"
      return sym ++ (← f.buildKey p)
    else wordAndOne f other ps

/-- `sub`, `method`, … and what follows. -/
def routineDeclarator : Rule := fun f => wordAndOne f f.unhandled [.routineDef, .methodDef]

/-- Name, signature, traits and body of a routine in source order. A special mark
in front of a name (`!` of a private method) becomes part of it; `specials` is the
last one seen. -/
def routineParts (f : Frame) (specials : Option f.self.Inner) :
    List (Part × f.self.Inner) → Plan f (List Element)
  | [] => pure []
  | (.named _, c) :: cs => routineParts f (some c) cs
  | (.inner p, c) :: cs => do
    let es ←
      match p, specials with
      | .longname, some mark => do
        let name ← f.leafOver .bareword mark.val.start c.val.stop
        pure [.leaf name]
      | .multisig, _ => do
        let children ← if c.val.isWide then f.build .multisig (some c) else pure []
        f.balancedAround .signature c.val ['('] children
      | p, _ => f.build p (some c)
    return es ++ (← routineParts f specials cs)

/-- All parts that a routine can have, in source order (`routineParts`). -/
def routine (f : Frame) : Plan f (List Element) :=
  routineParts f none (f.eachOf [.named "specials", .inner .deflongname, .inner .longname,
    .inner .multisig, .inner .trait, .inner .blockoid])

/-- A subroutine, behind `sub`. -/
def routineDef : Rule := fun f =>
  if f.shape.fits ["blockoid"] ["deflongname", "multisig", "trait"] then routine f else f.unhandled

/-- A method, behind `method`. -/
def methodDef : Rule := fun f =>
  if f.shape.fits ["blockoid"] ["specials", "longname", "multisig", "trait"] then routine f
  else f.unhandled

/-- `multi`, `proto`, `only` and what follows, or a plain declarator. -/
def multiDeclarator : Rule := fun f =>
  wordAndOne f (if f.shape.is ["declarator"] then f.buildKey .declarator else f.unhandled)
    [.declarator, .routineDef]

end RakuTree.Rule
