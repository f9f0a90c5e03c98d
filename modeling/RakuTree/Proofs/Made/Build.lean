import RakuTree.Proofs.Made.Regexes
import RakuTree.Proofs.Made.Statements
import RakuTree.Build

/-!
# RakuTree.Proofs.Made.Build

Everything that is built is made the way `Made` says: the rule of every production
hands it on, so the whole build does.
-/

namespace RakuTree

variable {src : Text} {ran : Production → Match → Prop}

/-- The rule of every production makes elements the way `Made` says. -/
theorem Production.rule_makes (p : Production) {m : Match} (hm : ran p m) :
    (p.rule ⟨src, p, m⟩).Makes ran := by
  cases p with
  | args => exact Rule.args_makes
  | arglist => exact Rule.arglist_makes
  | assertion => exact Rule.assertion_makes rfl hm
  | atom => exact Rule.atom_makes
  | babble => exact Rule.babble_makes
  | backmod => exact Rule.backmod_makes
  | backslash => exact Rule.backslash_makes
  | block => exact Rule.block_makes
  | blockoid => exact Rule.blockoid_makes
  | blorst => exact Rule.blorst_makes
  | capterm => exact Rule.capterm_makes rfl hm
  | cclassElem => exact Rule.cclassElem_makes
  | circumfix => exact Rule.circumfix_makes
  | codeblock => exact Rule.codeblock_makes
  | coercee => exact Rule.coercee_makes
  | coloncircumfix => exact Rule.coloncircumfix_makes
  | colonpair => exact Rule.colonpair_makes
  | contextualizer => exact Rule.contextualizer_makes hm
  | decNumber => exact Rule.decNumber_makes
  | declarator => exact Rule.declarator_makes
  | defaultValue => exact Rule.defaultValue_makes
  | deflongname => exact Rule.deflongname_makes
  | defterm => exact Rule.defterm_makes
  | dotty => exact Rule.dotty_makes
  | dottyop => exact Rule.dottyop_makes
  | expr => exact Rule.expr_makes
  | fakesignature => exact Rule.fakesignature_makes
  | fatarrow => exact Rule.fatarrow_makes
  | identifier => exact Rule.identifier_makes
  | infixOp => exact Rule.infixOp_makes
  | initializer => exact Rule.initializer_makes
  | integer => exact Rule.integer_makes
  | label => exact Rule.label_makes
  | longname => exact Rule.longname_makes
  | metachar => exact Rule.metachar_makes
  | methodDef => exact Rule.methodDef_makes
  | methodop => exact Rule.methodop_makes
  | modifierExpr => exact Rule.modifierExpr_makes
  | moduleName => exact Rule.moduleName_makes
  | multiDeclarator => exact Rule.multiDeclarator_makes
  | multisig => exact Rule.multisig_makes
  | name => exact Rule.name_makes
  | namedParam => exact Rule.namedParam_makes
  | nibble => exact Rule.nibble_makes
  | nibbler => exact Rule.nibbler_makes
  | number => exact Rule.number_makes
  | numish => exact Rule.numish_makes
  | packageDeclarator => exact Rule.packageDeclarator_makes
  | packageDef => exact Rule.packageDef_makes
  | paramVar => exact Rule.paramVar_makes rfl hm
  | parameter => exact Rule.parameter_makes
  | pblock => exact Rule.pblock_makes
  | postConstraint => exact Rule.postConstraint_makes
  | postcircumfix => exact Rule.postcircumfix_makes
  | postfixOp => exact Rule.postfixOp_makes
  | postop => exact Rule.postop_makes
  | prefixOp => exact Rule.prefixOp_makes
  | quantifiedAtom => exact Rule.quantifiedAtom_makes
  | quantifier => exact Rule.quantifier_makes
  | quibble => exact Rule.quibble_makes
  | quote => exact Rule.quote_makes rfl hm
  | quotepair => exact Rule.quotepair_makes
  | radNumber => exact Rule.radNumber_makes
  | regexDeclarator => exact Rule.regexDeclarator_makes
  | regexDef => exact Rule.regexDef_makes
  | routineDeclarator => exact Rule.routineDeclarator_makes
  | routineDef => exact Rule.routineDef_makes
  | scopeDeclarator => exact Rule.scopeDeclarator_makes
  | scopedDecl => exact Rule.scopedDecl_makes
  | semiarglist => exact Rule.semiarglist_makes
  | semilist => exact Rule.semilist_makes
  | separator => exact Rule.separator_makes
  | shape => exact Rule.shape_makes
  | signature => exact Rule.signature_makes
  | sigterm => exact Rule.sigterm_makes
  | smexpr => exact Rule.smexpr_makes
  | statement => exact Rule.statement_makes
  | statementControl => exact Rule.statementControl_makes
  | statementModCond => exact Rule.statementModCond_makes
  | statementModLoop => exact Rule.statementModLoop_makes
  | statementPrefix => exact Rule.statementPrefix_makes
  | statementlist => exact Rule.statementlist_makes
  | termalt => exact Rule.termalt_makes
  | termaltseq => exact Rule.termaltseq_makes
  | termconj => exact Rule.termconj_makes
  | termconjseq => exact Rule.termconjseq_makes
  | termish => exact Rule.termish_makes
  | termseq => exact Rule.termseq_makes
  | top => exact Rule.top_makes
  | trait => exact Rule.trait_makes
  | traitMod => exact Rule.traitMod_makes
  | typeConstraint => exact Rule.typeConstraint_makes
  | typeDeclarator => exact Rule.typeDeclarator_makes
  | typename => exact Rule.typename_makes
  | value => exact Rule.value_makes
  | variableUse => exact Rule.variableUse_makes rfl hm
  | variableDeclarator => exact Rule.variableDeclarator_makes
  | version => exact Rule.version_makes
  | xblock => exact Rule.xblock_makes

/-- All elements that production `p` builds of `m` are made by the rules that run. -/
theorem produce_made (options : Options) (p : Production) (m : Match) (s : BuildState) :
    (produce src options p m).Yields s
      (MadeAll src fun q d => (q, d) ∈ runs src options p m s) :=
  produce_yields (G := MadeAll src fun q d => (q, d) ∈ runs src options p m s) fun q _ hd =>
    q.rule_makes hd

end RakuTree
