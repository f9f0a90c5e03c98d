import RakuTree.Proofs.Ignored.Terms
import RakuTree.Rule.Statement
import RakuTree.Rule.Control
import RakuTree.Rule.Signature
import RakuTree.Rule.Declaration

/-!
# RakuTree.Proofs.Ignored.Statements

The rules of statements are blind: statements, control statements, signatures and declarations.
-/

namespace RakuTree.Rule

open RakuTree.Frame

/-! ### Statements -/

theorem statements_canonical (f : Frame) (build : Builder) (stop : Int)
    {ds : List f.canonical.self.Inner} {cs : List f.self.Inner}
    (h : List.Forall₂ Match.Inner.IsCanonical ds cs) :
    (statements f.canonical stop ds).follow build =
      (statements f stop cs).follow build.canonically := by
  induction h with
  | nil => rfl
  | @cons _ _ ds cs hc hs ih =>
      -- The semicolon is looked for up to the start of the next statement, if there is one.
      have hnext : ds.head?.map (·.val.start) = cs.head?.map (·.val.start) := by
        cases hs with
        | nil => rfl
        | cons h _ => simp [h]
      simp [statements, hc, hnext, ih]

theorem top_blind : Blind top := by
  intro f build
  simp [top]

theorem statementlist_blind : Blind statementlist := by
  intro f build
  simp [statementlist,
    statements_canonical f build f.src.length (f.each_canonical "statement" (by simp))]

theorem semilist_blind : Blind semilist := by
  intro f build
  simp [semilist,
    statements_canonical f build f.self.stop (f.each_canonical "statement" (by simp))]

theorem statement_blind : Blind statement := by
  intro f build
  simp [statement]

theorem statementModCond_blind : Blind statementModCond := by
  intro f build
  simp [statementModCond]

theorem statementModLoop_blind : Blind statementModLoop := by
  intro f build
  simp [statementModLoop]

theorem modifierExpr_blind : Blind modifierExpr := by
  intro f build
  simp [modifierExpr]

theorem smexpr_blind : Blind smexpr := by
  intro f build
  simp [smexpr]

theorem statementPrefix_blind : Blind statementPrefix := by
  intro f build
  simp [statementPrefix]

theorem blorst_blind : Blind blorst := by
  intro f build
  exact buildOnly_canonical f build (by simp) _

/-! ### Control statements and blocks -/

theorem conditions_canonical (f : Frame) (build : Builder) (nodes : List Element)
    {syms' xblocks' : List f.canonical.self.Inner} {syms xblocks : List f.self.Inner}
    (hsyms : List.Forall₂ Match.Inner.IsCanonical syms' syms)
    (hxblocks : List.Forall₂ Match.Inner.IsCanonical xblocks' xblocks) :
    (conditions f.canonical nodes syms' xblocks').follow build =
      (conditions f nodes syms xblocks).follow build.canonically := by
  induction hxblocks generalizing nodes syms' syms with
  | nil => simp [conditions]
  | cons hx _ ih =>
      cases hsyms with
      | nil => simp [conditions, hx, ih _ .nil]
      | cons hs hsyms => simp [conditions, hs, hx, ih _ hsyms]

@[simp] theorem conditional_blind : Blind conditional := by
  intro f build
  have hconditions := conditions_canonical f build [] (f.each_canonical "sym" (by simp))
    (f.each_canonical "xblock" (by simp))
  simp [conditional, hconditions]

theorem loopHead_canonical (f : Frame) (build : Builder) (limit cursor : Int)
    (parts : List (String × Bool)) (hparts : ∀ part ∈ parts, part.1 ∉ Shape.ignored) :
    (loopHead f.canonical limit cursor parts).follow build =
      (loopHead f limit cursor parts).follow build.canonically := by
  induction parts generalizing cursor with
  | nil => rfl
  | cons part parts ih =>
      rw [List.forall_mem_cons] at hparts
      simp [loopHead, f.build_get?_canonical build _ hparts.1, ih _ hparts.2]

@[simp] theorem loop_blind : Blind loop := by
  intro f build
  have hhead := fun limit cursor =>
    loopHead_canonical f build limit cursor loopParts (by simp [loopParts])
  simp [loop, hhead]

theorem statementControl_blind : Blind statementControl := by
  intro f build
  simp [statementControl]

theorem xblock_blind : Blind xblock := by
  intro f build
  simp [xblock]

theorem pblock_blind : Blind pblock := by
  intro f build
  simp [pblock]

theorem block_blind : Blind block := by
  intro f build
  simp [block]

theorem blockoid_blind : Blind blockoid := by
  intro f build
  simp [blockoid]

theorem codeblock_blind : Blind codeblock := by
  intro f build
  simp [codeblock]

/-! ### Signatures -/

theorem parameters_canonical (f : Frame) (build : Builder)
    {ds : List (Part × f.canonical.self.Inner)} {cs : List (Part × f.self.Inner)}
    (h : List.Forall₂ Match.IsCanonicalPart ds cs) :
    (parameters f.canonical ds).follow build = (parameters f cs).follow build.canonically := by
  induction h with
  | nil => rfl
  | cons hc _ ih =>
      cases hc with
      | mk part h =>
          cases part with
          | inner p => simp [parameters, h, ih]
          | named key => simp [parameters, h, ih]

@[simp] theorem returns_blind (nodes : List Element) (ps : List Production) :
    Blind fun f => returns f nodes ps := by
  intro f build
  induction ps generalizing nodes with
  | nil => rfl
  | cons p ps ih => simp [returns, ih]

theorem signature_blind : Blind signature := by
  intro f build
  have hparameters := parameters_canonical f build
    (f.eachOf_canonical [.inner .parameter, .named "param_sep"] (by simp))
  simp [signature, hparameters]

theorem multisig_blind : Blind multisig := by
  intro f build
  simp [multisig]

theorem parameterParts_canonical (f : Frame) (build : Builder)
    {anchor' : Option f.canonical.self.Inner} {anchor : Option f.self.Inner}
    (hanchor : Option.Rel Match.Inner.IsCanonical anchor' anchor)
    {ds : List (Part × f.canonical.self.Inner)} {cs : List (Part × f.self.Inner)}
    (h : List.Forall₂ Match.IsCanonicalPart ds cs) :
    (parameterParts f.canonical anchor' ds).follow build =
      (parameterParts f anchor cs).follow build.canonically := by
  induction h with
  | nil => rfl
  | cons hc _ ih =>
      cases hc with
      | mk part h =>
          cases part with
          | inner p => simp [parameterParts, h, ih]
          | named key =>
              cases hanchor with
              | none => simp [parameterParts, h, ih]
              | some ha => simp [parameterParts, h, ha, ih]

theorem parameter_blind : Blind parameter := by
  intro f build
  have hanchor : Option.Rel Match.Inner.IsCanonical
      ((f.canonical.get? "param_var").or (f.canonical.get? "named_param"))
      ((f.get? "param_var").or (f.get? "named_param")) := by
    rcases f.get?_cases "param_var" (by simp) with ⟨hd, hc⟩ | ⟨d, c, hd, hc, h⟩
    · rw [hd, hc]
      exact f.get?_canonical "named_param" (by simp)
    · rw [hd, hc]
      exact .some h
  simp only [parameter, shape_canonical, Plan.follow_ite]
  split
  · exact parameterParts_canonical f build hanchor
      (f.eachOf_canonical _ (by simp [parameterExtras]))
  · simp

theorem paramVar_blind : Blind paramVar := by
  intro f build
  simp [paramVar]

@[simp] theorem renamedParam_blind (ps : List Production) : Blind fun f => renamedParam f ps := by
  intro f build
  induction ps with
  | nil => simp [renamedParam]
  | cons p ps ih => simp [renamedParam, ih]

theorem namedParam_blind : Blind namedParam := by
  intro f build
  simp [namedParam]

@[simp] theorem whereClause_blind : Blind whereClause := by
  intro f build
  simp [whereClause]

theorem typeConstraint_blind : Blind typeConstraint := by
  intro f build
  exact buildOnly_canonical f build (by simp) _

theorem postConstraint_blind : Blind postConstraint := by
  intro f build
  simp [postConstraint]

theorem defaultValue_blind : Blind defaultValue := by
  intro f build
  simp [defaultValue]

/-! ### Declarations -/

@[simp] theorem initializerStart?_canonical (m : Match) :
    initializerStart? m.canonical = initializerStart? m := by
  unfold initializerStart?
  rw [m.capture?_canonical (by simp)]
  cases m.capture? "declarator" with
  | none => rfl
  | some declarator =>
      have hinitializer : declarator.canonical.capture? "initializer" =
          (declarator.capture? "initializer").map Match.canonical :=
        declarator.capture?_canonical (by simp)
      cases h : declarator.capture? "initializer" with
      | none => simp [hinitializer, h]
      | some initializer => simp [hinitializer, h]

theorem scopeDeclarator_blind : Blind scopeDeclarator := by
  intro f build
  simp [scopeDeclarator]

theorem buildDeclared_canonical (f : Frame) (build : Builder)
    {other' : Plan f.canonical (List Element)} {other : Plan f (List Element)}
    (h : other'.follow build = other.follow build.canonically) (ps : List Production) :
    (buildDeclared f.canonical other' ps).follow build =
      (buildDeclared f other ps).follow build.canonically := by
  induction ps with
  | nil => exact h
  | cons p ps ih => simp [buildDeclared, ih]

theorem scopedDecl_blind : Blind scopedDecl := by
  intro f build
  exact buildDeclared_canonical f build (by simp) _

theorem declarator_blind : Blind declarator := by
  intro f build
  have hother := f.buildOnly_canonical build (f.unhandled_canonical build)
    [.routineDeclarator, .regexDeclarator, .typeDeclarator]
  simp [declarator, hother]

theorem variableDeclarator_blind : Blind variableDeclarator := by
  intro f build
  simp [variableDeclarator]

theorem shape_blind : Blind shape := by
  intro f build
  simp [shape]

theorem initializer_blind : Blind initializer := by
  intro f build
  simp [initializer]

theorem typename_blind : Blind typename := by
  intro f build
  simp only [typename, shape_canonical, Plan.follow_ite]
  split
  · simp
  split
  · apply need_bind_canonical f build (by simp)
    intro longname
    simp only [Match.stop_canonical, stop_self_canonical, src_canonical]
    apply Plan.follow_bind_congr (f.expect_canonical build _ _ _ _)
    intro opening
    cases Text.findLast? f.src [']'] opening.span.stop f.self.stop with
    | none => simp
    | some closing => simp
  · simp

theorem trait_blind : Blind trait := by
  intro f build
  exact buildOnly_canonical f build (by simp) _

theorem traitMod_blind : Blind traitMod := by
  intro f build
  simp [traitMod]

theorem typeParts_canonical (f : Frame) (build : Builder) (nodes : List Element)
    {ds : List (Part × f.canonical.self.Inner)} {cs : List (Part × f.self.Inner)}
    (h : List.Forall₂ Match.IsCanonicalPart ds cs) :
    (typeParts f.canonical nodes ds).follow build =
      (typeParts f nodes cs).follow build.canonically := by
  induction h generalizing nodes with
  | nil => rfl
  | cons hc _ ih =>
      cases hc with
      | mk part h =>
          cases part with
          | inner p => simp [typeParts, h, ih]
          | named key =>
              by_cases hexpr : key = "EXPR"
              · subst hexpr
                simp [typeParts, h, ih]
              · by_cases hterm : key = "term"
                · subst hterm
                  simp [typeParts, h, ih]
                · simp [typeParts, h, ih]

theorem typeDeclarator_blind : Blind typeDeclarator := by
  intro f build
  have hsym : f.canonical.textOf "sym" = f.textOf "sym" := by simp
  simp only [typeDeclarator, shape_canonical, hsym]
  cases typeDeclaratorKeys? (f.textOf "sym") with
  | none => simp
  | some keys =>
      simp only [Plan.follow_ite]
      split
      · exact typeParts_canonical f build [] (f.eachOf_canonical _ (by simp))
      · simp

theorem packageDeclarator_blind : Blind packageDeclarator := by
  intro f build
  simp [packageDeclarator]

theorem packageDef_blind : Blind packageDef := by
  intro f build
  simp [packageDef]

theorem wordAndOne_canonical (f : Frame) (build : Builder)
    {other' : Plan f.canonical (List Element)} {other : Plan f (List Element)}
    (h : other'.follow build = other.follow build.canonically) (ps : List Production) :
    (wordAndOne f.canonical other' ps).follow build =
      (wordAndOne f other ps).follow build.canonically := by
  induction ps with
  | nil => exact h
  | cons p ps ih => simp [wordAndOne, ih]

theorem routineDeclarator_blind : Blind routineDeclarator := by
  intro f build
  exact wordAndOne_canonical f build (by simp) _

theorem routineParts_canonical (f : Frame) (build : Builder)
    {specials' : Option f.canonical.self.Inner} {specials : Option f.self.Inner}
    (hspecials : Option.Rel Match.Inner.IsCanonical specials' specials)
    {ds : List (Part × f.canonical.self.Inner)} {cs : List (Part × f.self.Inner)}
    (h : List.Forall₂ Match.IsCanonicalPart ds cs) :
    (routineParts f.canonical specials' ds).follow build =
      (routineParts f specials cs).follow build.canonically := by
  induction h generalizing specials' specials with
  | nil => rfl
  | cons hc _ ih =>
      cases hc with
      | mk part h =>
          cases part with
          | inner p =>
              -- a signature gets its parentheses, and a name the mark in front of it
              by_cases hmultisig : p = .multisig
              · subst hmultisig
                simp [routineParts, h, ih hspecials]
              · by_cases hlongname : p = .longname
                · subst hlongname
                  cases hspecials with
                  | none => simp [routineParts, h, ih .none]
                  | some hs => simp [routineParts, h, hs, ih (.some hs)]
                · simp [routineParts, hlongname, h, ih hspecials]
          | named key => simp [routineParts, ih (.some h)]

@[simp] theorem routine_blind : Blind routine := by
  intro f build
  exact routineParts_canonical f build .none (f.eachOf_canonical _ (by simp))

theorem routineDef_blind : Blind routineDef := by
  intro f build
  simp [routineDef]

theorem methodDef_blind : Blind methodDef := by
  intro f build
  simp [methodDef]

theorem multiDeclarator_blind : Blind multiDeclarator := by
  intro f build
  exact wordAndOne_canonical f build (by simp) _

end RakuTree.Rule
