import RakuTree.Options
import RakuTree.Rule.Name
import RakuTree.Rule.Variable
import RakuTree.Rule.Number
import RakuTree.Rule.Quote
import RakuTree.Rule.Operator
import RakuTree.Rule.Term
import RakuTree.Rule.Statement
import RakuTree.Rule.Control
import RakuTree.Rule.Signature
import RakuTree.Rule.Declaration
import RakuTree.Rule.Regex
import RakuTree.Rule.Metachar

/-!
# RakuTree.Build

Following plans. Building keeps three things from one match to the next: the here-docs
that were claimed, the log, and which productions are at work. All of them survive a
fault, so a caller can go on with the same state after a match was refused.

Inner matches are smaller than the match that asks for them, so building ends.
-/

namespace RakuTree

/-- The `Rule` of each production. -/
def Production.rule : Production → Rule
  | args => Rule.args
  | arglist => Rule.arglist
  | assertion => Rule.assertion
  | atom => Rule.atom
  | babble => Rule.babble
  | backmod => Rule.backmod
  | backslash => Rule.backslash
  | block => Rule.block
  | blockoid => Rule.blockoid
  | blorst => Rule.blorst
  | capterm => Rule.capterm
  | cclassElem => Rule.cclassElem
  | circumfix => Rule.circumfix
  | codeblock => Rule.codeblock
  | coercee => Rule.coercee
  | coloncircumfix => Rule.coloncircumfix
  | colonpair => Rule.colonpair
  | contextualizer => Rule.contextualizer
  | decNumber => Rule.decNumber
  | declarator => Rule.declarator
  | defaultValue => Rule.defaultValue
  | deflongname => Rule.deflongname
  | defterm => Rule.defterm
  | dotty => Rule.dotty
  | dottyop => Rule.dottyop
  | expr => Rule.expr
  | fakesignature => Rule.fakesignature
  | fatarrow => Rule.fatarrow
  | identifier => Rule.identifier
  | infixOp => Rule.infixOp
  | initializer => Rule.initializer
  | integer => Rule.integer
  | label => Rule.label
  | longname => Rule.longname
  | metachar => Rule.metachar
  | methodDef => Rule.methodDef
  | methodop => Rule.methodop
  | modifierExpr => Rule.modifierExpr
  | moduleName => Rule.moduleName
  | multiDeclarator => Rule.multiDeclarator
  | multisig => Rule.multisig
  | name => Rule.name
  | namedParam => Rule.namedParam
  | nibble => Rule.nibble
  | nibbler => Rule.nibbler
  | number => Rule.number
  | numish => Rule.numish
  | packageDeclarator => Rule.packageDeclarator
  | packageDef => Rule.packageDef
  | paramVar => Rule.paramVar
  | parameter => Rule.parameter
  | pblock => Rule.pblock
  | postConstraint => Rule.postConstraint
  | postcircumfix => Rule.postcircumfix
  | postfixOp => Rule.postfixOp
  | postop => Rule.postop
  | prefixOp => Rule.prefixOp
  | quantifiedAtom => Rule.quantifiedAtom
  | quantifier => Rule.quantifier
  | quibble => Rule.quibble
  | quote => Rule.quote
  | quotepair => Rule.quotepair
  | radNumber => Rule.radNumber
  | regexDeclarator => Rule.regexDeclarator
  | regexDef => Rule.regexDef
  | routineDeclarator => Rule.routineDeclarator
  | routineDef => Rule.routineDef
  | scopeDeclarator => Rule.scopeDeclarator
  | scopedDecl => Rule.scopedDecl
  | semiarglist => Rule.semiarglist
  | semilist => Rule.semilist
  | separator => Rule.separator
  | shape => Rule.shape
  | signature => Rule.signature
  | sigterm => Rule.sigterm
  | smexpr => Rule.smexpr
  | statement => Rule.statement
  | statementControl => Rule.statementControl
  | statementModCond => Rule.statementModCond
  | statementModLoop => Rule.statementModLoop
  | statementPrefix => Rule.statementPrefix
  | statementlist => Rule.statementlist
  | termalt => Rule.termalt
  | termaltseq => Rule.termaltseq
  | termconj => Rule.termconj
  | termconjseq => Rule.termconjseq
  | termish => Rule.termish
  | termseq => Rule.termseq
  | top => Rule.top
  | trait => Rule.trait
  | traitMod => Rule.traitMod
  | typeConstraint => Rule.typeConstraint
  | typeDeclarator => Rule.typeDeclarator
  | typename => Rule.typename
  | value => Rule.value
  | variableUse => Rule.variableUse
  | variableDeclarator => Rule.variableDeclarator
  | version => Rule.version
  | xblock => Rule.xblock

/-! ### Building -/

/-- What a `Build` keeps while it runs. -/
structure BuildState where
  /-- Here-docs claimed so far, by `claimHereDoc`. -/
  ledger : Ledger := {}
  /-- The log so far, the oldest event first. -/
  log : List Event := []
  /-- The productions at work, innermost first (`enter`, `leave`). -/
  working : List Production := []

namespace BuildState

/-- The innermost production at work, if there is one. -/
def origin? (s : BuildState) : Option Production := s.working.head?

/-- Production `p` begins to work. -/
def enter (s : BuildState) (p : Production) : BuildState := { s with working := p :: s.working }

/-- The state when the innermost production is through with its work. -/
def leave (s : BuildState) : BuildState := { s with working := s.working.tail }

end BuildState

/-- A computation that may log, claim here-docs and stop with a `Fault`; what it logged and claimed
stays when it stops. -/
abbrev Build := EStateM Fault BuildState

namespace Build

/-- Writes `events` to the log. -/
def log (events : List Event) : Build Unit :=
  modify fun s => { s with log := s.log ++ events }

/-- Logs the refusal `r` and stops with it. -/
def refuse {α : Type} (r : Refusal) : Build α := do
  log [.refused r]
  throw (.refused r)

/-- The outcome of some work once the production that did it is through (`BuildState.leave`),
whether it returned or stopped. -/
def left {α : Type} : EStateM.Result Fault BuildState α → EStateM.Result Fault BuildState α
  | .ok a s => .ok a s.leave
  | .error e s => .error e s.leave

/-- Has production `p` do `x`. However `x` ends, `p` is no longer at work then. -/
def within {α : Type} (p : Production) (x : Build α) : Build α :=
  fun s => left (x.run (s.enter p))

end Build

/-- The note of the `Refusal` that a here-doc without a body leads to. -/
def HereDocError.note : HereDocError → String
  | noTerminator => "here-doc without terminator"
  | noBody => "here-doc body missing"
  | unterminated terminator => "here-doc terminator " ++ Text.quoted terminator ++ " not found"

namespace Plan

/-- Claims the lines up to `terminator` for a here-doc that `f.self` opens; the match is refused if
there are none. -/
def claimHereDoc (f : Frame) (terminator : Text) : Build Text := do
  let s ← get
  match s.ledger.claim f.src f.self.stop terminator with
  | .ok (lines, ledger) =>
    set { s with ledger }
    return lines
  | .error e => Build.refuse (f.refusal f.self (some e.note) true)

/-- Follows a plan; `inner` builds inner matches. -/
def run {f : Frame} {α : Type}
    (inner : Production → Option f.self.Inner → Build (List Element)) :
    Plan f α → Build α
  | done a => pure a
  | fail e => throw e
  | refuse r => Build.refuse r
  | hereDoc terminator next => do
    let lines ← claimHereDoc f terminator
    (next lines).run inner
  | build p c? next => do
    let es ← inner p c?
    (next es).run inner

end Plan

/-- What a match is asked first when a production begins to work on it. With `trace` on, it is asked
where it starts, for the record; else the rule asks for its captures. -/
def Options.firstAsked (options : Options) : Access :=
  if options.trace then .start else .captures

/-- Production `p` at work without a match: whatever is asked first stops it. -/
def produceAbsent (options : Options) (p : Production) : Build (List Element) :=
  Build.within p (throw (.absentCapture options.firstAsked))

/-- The elements production `p` makes of match `m`. -/
def produce (src : Text) (options : Options) (p : Production) (m : Match) :
    Build (List Element) := Build.within p do
  if options.trace then Build.log [.producing p.key m.start m.stop (Shape.of m)]
  (p.rule ⟨src, p, m⟩).run fun q c? =>
    c?.elim (produceAbsent options q) fun c => produce src options q c.val
termination_by sizeOf m
decreasing_by exact c.inside.sizeOf_lt

/-- The elements production `p` makes of a match that may be missing. A missing one is left to
`produceAbsent`. -/
def produceAny (src : Text) (options : Options) (p : Production) :
    Option Match → Build (List Element)
  | some m => produce src options p m
  | none => produceAbsent options p

/-- The elements that the production with the key `name` makes of a match. There has to be such a
production (`Production.ofKey?`), and then there has to be a match. -/
def produceNamed (src : Text) (options : Options) (name : String) (m? : Option Match) :
    Build (List Element) :=
  match Production.ofKey? name with
  | some p => produceAny src options p m?
  | none => throw (.unknownProduction name)

end RakuTree
