import RakuTree.Match.Sketch
import RakuTree.Proofs.Document
import RakuTree.Proofs.Ignored.Regexes
import RakuTree.Proofs.Ignored.Statements

/-!
# RakuTree.Proofs.Ignored.Build

What says nothing about a match changes nothing about what is built of it.

All rules are blind, and building an inner match is following its rule again. So, by induction on
the size of the match, a match and its canonical form come to the same elements, faults, log and
here-docs (`produce_canonical`). Matches that can be rewritten into one another share their
canonical form, and therefore all that.
-/

namespace RakuTree

/-- The rule of every production is `Blind`. -/
theorem Production.rule_blind (p : Production) : Frame.Blind p.rule := by
  cases p with
  | args => exact Rule.args_blind
  | arglist => exact Rule.arglist_blind
  | assertion => exact Rule.assertion_blind
  | atom => exact Rule.atom_blind
  | babble => exact Rule.babble_blind
  | backmod => exact Rule.backmod_blind
  | backslash => exact Rule.backslash_blind
  | block => exact Rule.block_blind
  | blockoid => exact Rule.blockoid_blind
  | blorst => exact Rule.blorst_blind
  | capterm => exact Rule.capterm_blind
  | cclassElem => exact Rule.cclassElem_blind
  | circumfix => exact Rule.circumfix_blind
  | codeblock => exact Rule.codeblock_blind
  | coercee => exact Rule.coercee_blind
  | coloncircumfix => exact Rule.coloncircumfix_blind
  | colonpair => exact Rule.colonpair_blind
  | contextualizer => exact Rule.contextualizer_blind
  | decNumber => exact Rule.decNumber_blind
  | declarator => exact Rule.declarator_blind
  | defaultValue => exact Rule.defaultValue_blind
  | deflongname => exact Rule.deflongname_blind
  | defterm => exact Rule.defterm_blind
  | dotty => exact Rule.dotty_blind
  | dottyop => exact Rule.dottyop_blind
  | expr => exact Rule.expr_blind
  | fakesignature => exact Rule.fakesignature_blind
  | fatarrow => exact Rule.fatarrow_blind
  | identifier => exact Rule.identifier_blind
  | infixOp => exact Rule.infixOp_blind
  | initializer => exact Rule.initializer_blind
  | integer => exact Rule.integer_blind
  | label => exact Rule.label_blind
  | longname => exact Rule.longname_blind
  | metachar => exact Rule.metachar_blind
  | methodDef => exact Rule.methodDef_blind
  | methodop => exact Rule.methodop_blind
  | modifierExpr => exact Rule.modifierExpr_blind
  | moduleName => exact Rule.moduleName_blind
  | multiDeclarator => exact Rule.multiDeclarator_blind
  | multisig => exact Rule.multisig_blind
  | name => exact Rule.name_blind
  | namedParam => exact Rule.namedParam_blind
  | nibble => exact Rule.nibble_blind
  | nibbler => exact Rule.nibbler_blind
  | number => exact Rule.number_blind
  | numish => exact Rule.numish_blind
  | packageDeclarator => exact Rule.packageDeclarator_blind
  | packageDef => exact Rule.packageDef_blind
  | paramVar => exact Rule.paramVar_blind
  | parameter => exact Rule.parameter_blind
  | pblock => exact Rule.pblock_blind
  | postConstraint => exact Rule.postConstraint_blind
  | postcircumfix => exact Rule.postcircumfix_blind
  | postfixOp => exact Rule.postfixOp_blind
  | postop => exact Rule.postop_blind
  | prefixOp => exact Rule.prefixOp_blind
  | quantifiedAtom => exact Rule.quantifiedAtom_blind
  | quantifier => exact Rule.quantifier_blind
  | quibble => exact Rule.quibble_blind
  | quote => exact Rule.quote_blind
  | quotepair => exact Rule.quotepair_blind
  | radNumber => exact Rule.radNumber_blind
  | regexDeclarator => exact Rule.regexDeclarator_blind
  | regexDef => exact Rule.regexDef_blind
  | routineDeclarator => exact Rule.routineDeclarator_blind
  | routineDef => exact Rule.routineDef_blind
  | scopeDeclarator => exact Rule.scopeDeclarator_blind
  | scopedDecl => exact Rule.scopedDecl_blind
  | semiarglist => exact Rule.semiarglist_blind
  | semilist => exact Rule.semilist_blind
  | separator => exact Rule.separator_blind
  | shape => exact Rule.shape_blind
  | signature => exact Rule.signature_blind
  | sigterm => exact Rule.sigterm_blind
  | smexpr => exact Rule.smexpr_blind
  | statement => exact Rule.statement_blind
  | statementControl => exact Rule.statementControl_blind
  | statementModCond => exact Rule.statementModCond_blind
  | statementModLoop => exact Rule.statementModLoop_blind
  | statementPrefix => exact Rule.statementPrefix_blind
  | statementlist => exact Rule.statementlist_blind
  | termalt => exact Rule.termalt_blind
  | termaltseq => exact Rule.termaltseq_blind
  | termconj => exact Rule.termconj_blind
  | termconjseq => exact Rule.termconjseq_blind
  | termish => exact Rule.termish_blind
  | termseq => exact Rule.termseq_blind
  | top => exact Rule.top_blind
  | trait => exact Rule.trait_blind
  | traitMod => exact Rule.traitMod_blind
  | typeConstraint => exact Rule.typeConstraint_blind
  | typeDeclarator => exact Rule.typeDeclarator_blind
  | typename => exact Rule.typename_blind
  | value => exact Rule.value_blind
  | variableUse => exact Rule.variableUse_blind
  | variableDeclarator => exact Rule.variableDeclarator_blind
  | version => exact Rule.version_blind
  | xblock => exact Rule.xblock_blind

section Build

variable (src : Text) (options : Options)

theorem entered_canonical (p : Production) (m : Match) (s : BuildState) :
    s.entered options p m.canonical = s.entered options p m := by
  simp [BuildState.entered]

/-- A match and its `canonical` form are built alike. -/
theorem produce_canonical (p : Production) (m : Match) :
    produce src options p m.canonical = produce src options p m := by
  -- The rule asks for the canonical forms of inner matches only.
  induction m using Match.inner_induction generalizing p with
  | step m ih =>
      have hinner : (fun q (c? : Option m.Inner) =>
          Builder.canonically (produceAny src options) q (c?.map Match.Inner.val)) =
          produceInner src options := by
        funext q c?
        cases c? with
        | none => rfl
        | some c => exact ih c q
      have hrule : (p.rule ⟨src, p, m.canonical⟩).run (produceInner src options) =
          (p.rule ⟨src, p, m⟩).run (produceInner src options) := by
        rw [← hinner]
        exact p.rule_blind ⟨src, p, m⟩ (produceAny src options)
      funext s
      show (produce src options p m.canonical).run s = (produce src options p m).run s
      rw [produce_run, produce_run, hrule, entered_canonical]

theorem produce_eq_of_canonical_eq {m n : Match} (h : m.canonical = n.canonical) (p : Production) :
    produce src options p m = produce src options p n := by
  rw [← produce_canonical src options p m, h, produce_canonical]

end Build

/-- Matches that say the same are built alike by every production, called by its name or not,
and make the same document: whatever state building starts from, it ends with the same elements or
the same fault, and with the same log and the same here-docs. -/
theorem ignored_captures_change_nothing {m n : Match} (h : m.SaysSame n) (src : Text)
    (options : Options) (s : BuildState) :
    (∀ p, (produce src options p m).run s = (produce src options p n).run s) ∧
      (∀ name, (produceNamed src options name (some m)).run s =
        (produceNamed src options name (some n)).run s) ∧
      (Document.build src options m).run s = (Document.build src options n).run s := by
  have hproduce := produce_eq_of_canonical_eq src options h.canonical_eq
  refine ⟨fun p => by rw [hproduce p], fun name => ?_, ?_⟩
  · unfold produceNamed
    cases Production.ofKey? name with
    | none => rfl
    | some p => exact congrFun (hproduce p) s
  · unfold Document.build
    rw [hproduce .top]

/-! ### A sample -/

namespace Match

/-- The match of the number in `-1`. -/
def sampleOne : Match :=
  (Sketch.number ['-', '1'] ['1'] 0 "integer" []).toOption.getD (.plain 1 2)

/-- The match of `-1` as a parser hands it over: with precedence data on the operation and on its
sign. -/
def sampleNegation : Match :=
  .node 0 2
    [("O", .one (.plain 0 0)),
     ("prefix", .one (.node 0 1 [("sym", .one (.plain 0 1)), ("O", .many [])] [] none)),
     ("OPER", .one (.plain 0 1))] [sampleOne] none

/-- The match `sampleNegation` without precedence data, and with the captures of the operation the
other way round. -/
def sampleBareNegation : Match :=
  .node 0 2
    [("OPER", .one (.plain 0 1)), ("prefix", .one (.node 0 1 [("sym", .one (.plain 0 1))] [] none))]
    [sampleOne] none

theorem sampleNegation_saysSame : sampleNegation.SaysSame sampleBareNegation := by
  -- Drop the outer `O`, drop the inner one, and turn the two captures that are left around.
  refine .trans _ _ _ (.rel _ _ (@Rewrite.erase 0 2 [] _ _ _ _)) ?_
  refine .trans _ _ _ (.rel _ _ (@Rewrite.one 0 2 [] _ _ _ _ _ _
    (@Rewrite.erase 0 1 [("sym", .one (.plain 0 1))] [] _ _ _))) ?_
  exact .rel _ _ (.permute (.swap _ _ _) (by simp))

end Match

/-- The match of `-1` is built, and dropping its precedence data makes no difference to it. -/
theorem sample_precedence_changes_nothing :
    Match.sampleNegation.SaysSame Match.sampleBareNegation ∧
      Document.returned ((produce ['-', '1'] {} .expr Match.sampleNegation).run {}) = true ∧
      (∀ p, (produce ['-', '1'] {} p Match.sampleNegation).run {} =
        (produce ['-', '1'] {} p Match.sampleBareNegation).run {}) ∧
      (∀ name, (produceNamed ['-', '1'] {} name (some Match.sampleNegation)).run {} =
        (produceNamed ['-', '1'] {} name (some Match.sampleBareNegation)).run {}) ∧
      (Document.build ['-', '1'] {} Match.sampleNegation).run {} =
        (Document.build ['-', '1'] {} Match.sampleBareNegation).run {} :=
  ⟨Match.sampleNegation_saysSame, by decide +kernel,
    ignored_captures_change_nothing Match.sampleNegation_saysSame ['-', '1'] {} {}⟩

end RakuTree
