import RakuTree.Proofs.Made.Terms
import RakuTree.Rule.Statement
import RakuTree.Rule.Control
import RakuTree.Rule.Signature
import RakuTree.Rule.Declaration

/-!
# RakuTree.Proofs.Made.Statements

The rules of statements, control structures, signatures and declarations make their
elements the way `Made` says.
-/

namespace RakuTree.Rule

open RakuTree.Plan RakuTree.Frame

variable {f : Frame} {ran : Production → Match → Prop}

/-! ### Statements -/

/-- A semicolon is only picked up by `semicolonAt?` where the source has one. -/
theorem standsAt_semicolonAt? {src : Text} {cursor limit : Int} {i : Nat}
    (h : semicolonAt? src cursor limit = some i) : Text.StandsAt src i [';'] := by
  simp only [semicolonAt?] at h
  split at h
  · rename_i rest hrest
    cases h
    rw [Text.trimLeft_eq_drop, Text.window] at hrest
    exact Text.standsAt_window (s := [';']) ⟨rest, hrest.symm⟩
  · cases h

theorem statements_makes (stop : Int) (cs : List f.self.Inner) :
    (statements f stop cs).Makes ran := by
  induction cs with
  | nil => exact makes_nil
  | cons c cs ih =>
      refine Meets.bind (build_makes _ _) fun nodes hnodes => ?_
      extract_lets limit cursor semi all
      have hall : MadeAll f.src ran all := by
        refine hnodes.append fun e he => ?_
        obtain ⟨i, hi, rfl⟩ := Option.map_eq_some_iff.mp (Option.mem_toList.mp he)
        exact .leaf (Leaf.found_standsIn (standsAt_semicolonAt? hi))
      refine .ite ih ?_
      refine Meets.bind (branch_makes _ hall) fun statement hstatement => ?_
      exact Meets.bind ih fun rest hrest => .pure (.cons hstatement hrest)

theorem top_makes : (top f).Makes ran := .ite (buildKey_makes _) (.ite makes_nil unhandled_makes)

theorem statementlist_makes : (statementlist f).Makes ran :=
  .ite (statements_makes _ _) (.ite makes_nil unhandled_makes)

theorem semilist_makes : (semilist f).Makes ran :=
  .ite (statements_makes _ _) (.ite makes_nil unhandled_makes)

theorem statement_makes : (statement f).Makes ran := by
  refine .ite ((buildKey_makes _).append (buildKey_makes _)) (.ite (buildKey_makes _) ?_)
  refine .ite ((buildKey_makes _).append (buildInOrder_makes _)) ?_
  exact .ite makes_nil unhandled_makes

theorem statementModCond_makes : (statementModCond f).Makes ran :=
  .ite ((trimmedKey_makes _ _).append (buildKey_makes _)) unhandled_makes

theorem statementModLoop_makes : (statementModLoop f).Makes ran :=
  .ite ((trimmedKey_makes _ _).append (buildKey_makes _)) unhandled_makes

theorem modifierExpr_makes : (modifierExpr f).Makes ran := .ite (buildKey_makes _) unhandled_makes

theorem smexpr_makes : (smexpr f).Makes ran := .ite (buildKey_makes _) unhandled_makes

theorem statementPrefix_makes : (statementPrefix f).Makes ran :=
  .ite ((trimmedKey_makes _ _).append (buildKey_makes _)) unhandled_makes

theorem blorst_makes : (blorst f).Makes ran := buildOnly_makes unhandled_makes _

/-! ### Control structures -/

/-- The two lists of `conditions` run down together; only the blocks have to be used up. -/
theorem conditions_makes (xblocks : List f.self.Inner) : ∀ (syms : List f.self.Inner)
    {nodes : List Element}, MadeAll f.src ran nodes →
      (conditions f nodes syms xblocks).Makes ran := by
  induction xblocks with
  | nil =>
      intro syms nodes hnodes
      cases syms <;> exact .pure hnodes
  | cons xblock xblocks ih =>
      intro syms nodes hnodes
      cases syms with
      | cons sym syms =>
          refine Meets.bind (trimmed_makes _ _) fun head hhead => ?_
          refine Meets.bind (build_makes _ _) fun built hbuilt => ?_
          exact ih _ ((hnodes.append hhead).append hbuilt)
      | nil =>
          refine Meets.bind (endOf_meets _) fun _ _ => ?_
          refine Meets.bind (expect_makes _ _ _ _) fun head hhead => ?_
          refine Meets.bind (build_makes _ _) fun built hbuilt => ?_
          exact ih _ (hnodes.append (.cons hhead hbuilt))

theorem conditional_makes : (conditional f).Makes ran := by
  refine Meets.bind (conditions_makes _ _ .nil) fun nodes hnodes => ?_
  refine .ite ?_ (.pure hnodes)
  refine Meets.bind (need_meets _) fun otherwise _ => ?_
  refine Meets.bind (endOf_meets _) fun _ _ => ?_
  refine Meets.bind (expect_makes _ _ _ _) fun head hhead => ?_
  exact Meets.bind (build_makes _ _) fun built hbuilt => .pure (hnodes.append (.cons hhead hbuilt))

theorem loopHead_makes (limit : Int) (parts : List (String × Bool)) : ∀ cursor : Int,
    (loopHead f limit cursor parts).Meets (MadeAll f.src ran) fun head =>
      MadeAll f.src ran head.1 := by
  induction parts with
  | nil => exact fun _ => .pure .nil
  | cons part parts ih =>
      obtain ⟨key, hasSemicolon⟩ := part
      intro cursor
      unfold loopHead
      extract_lets rest
      have hrest : ∀ built, MadeAll f.src ran built →
          (rest built).Meets (MadeAll f.src ran) fun head => MadeAll f.src ran head.1 := by
        intro built hmade
        refine Meets.ite ?_ ?_
        · refine Meets.bind (expect_makes _ _ _ _) fun semi hsemi => ?_
          refine Meets.bind (ih _) fun head hhead => .pure ?_
          exact hmade.append (.cons hsemi hhead)
        · exact Meets.bind (ih _) fun head hhead => .pure (hmade.append hhead)
      split
      · exact Meets.bind (build_makes _ _) hrest
      · exact hrest [] .nil

theorem loop_makes : (loop f).Makes ran := by
  refine Meets.bind (need_meets _) fun sym _ => ?_
  refine Meets.bind (need_meets _) fun block _ => ?_
  refine Meets.bind (expect_makes _ _ _ _) fun opening hopening => ?_
  refine Meets.bind (loopHead_makes _ _ _) fun head hhead => ?_
  refine Meets.bind (expect_makes _ _ _ _) fun closing hclosing => ?_
  have hchildren := (MadeAll.cons hopening hhead).append (.single hclosing)
  refine Meets.bind (branch_makes _ hchildren) fun head hhead => ?_
  refine Meets.bind (trimmed_makes _ _) fun name hname => ?_
  exact Meets.bind (buildKey_makes _) fun body hbody => .pure (hname.append (.cons hhead hbody))

theorem statementControl_makes : (statementControl f).Makes ran := by
  refine .ite conditional_makes (.ite loop_makes ?_)
  refine .ite ((trimmedKey_makes _ _).append (buildKey_makes _)) (.ite (buildMixed_makes _ _) ?_)
  refine .ite ?_ ?_
  · refine Meets.bind (trimmedKey_makes _ _) fun sym hsym => ?_
    refine Meets.bind (buildKey_makes _) fun name hname => ?_
    exact Meets.bind (buildIf_makes _) fun args hargs => .pure ((hsym.append hname).append hargs)
  · refine .ite ((trimmedKey_makes _ _).append (buildKey_makes _)) ?_
    exact .ite ((trimmedKey_makes _ _).append (buildKey_makes _)) unhandled_makes

theorem xblock_makes : (xblock f).Makes ran :=
  .ite ((buildKey_makes _).append (buildKey_makes _)) unhandled_makes

theorem pblock_makes : (pblock f).Makes ran := by
  refine .ite ?_ (.ite ((trimmedKey_makes _ _).append (buildKey_makes _)) ?_)
  · refine Meets.bind (trimmedKey_makes _ _) fun arrow harrow => ?_
    refine Meets.bind (buildKey_makes _) fun signature hsignature => ?_
    refine Meets.bind (buildKey_makes _) fun body hbody => .pure ?_
    exact (harrow.append hsignature).append hbody
  · exact .ite (buildKey_makes _) unhandled_makes

theorem block_makes : (block f).Makes ran := .ite (buildKey_makes _) unhandled_makes

theorem blockoid_makes : (blockoid f).Makes ran := by
  refine .ite (balanced_bind_makes _ _ _ (buildKey_makes _)) ?_
  exact .ite (balanced_makes _ _ _ .nil) unhandled_makes

theorem codeblock_makes : (codeblock f).Makes ran := .ite (buildKey_makes _) unhandled_makes

/-! ### Signatures -/

/-- A part `m` that is no element when there is no text in it, and what comes behind. -/
theorem trimmedOrNone_bind_makes (cls : LeafClass) (m : Match) {c : Prop} [Decidable c]
    {rest : List Element → Plan f (List Element)}
    (hrest : ∀ es, MadeAll f.src ran es → (rest es).Makes ran) :
    (if c then pure [] >>= rest else f.trimmed cls m >>= rest).Makes ran :=
  .ite (hrest [] .nil) (Meets.bind (trimmed_makes _ _) hrest)

theorem parameters_makes (cs : List (Part × f.self.Inner)) : (parameters f cs).Makes ran := by
  induction cs with
  | nil => exact makes_nil
  | cons c cs ih =>
      obtain ⟨part, c⟩ := c
      cases part with
      | inner p => exact (build_makes p (some c)).append ih
      | named key =>
          refine trimmedOrNone_bind_makes _ c.val fun es hes => ?_
          exact Meets.bind ih fun rest hrest => .pure (hes.append hrest)

theorem returns_makes (ps : List Production) : ∀ {nodes : List Element}, MadeAll f.src ran nodes →
    (returns f nodes ps).Makes ran := by
  induction ps with
  | nil => exact fun hnodes => .pure hnodes
  | cons p ps ih =>
      intro nodes hnodes
      refine .ite ?_ (ih hnodes)
      refine Meets.bind (need_meets _) fun result _ => ?_
      refine Meets.bind (expect_makes _ _ _ _) fun arrow harrow => ?_
      exact Meets.bind (buildKey_makes _) fun built hbuilt => ih (hnodes.append (.cons harrow hbuilt))

theorem signature_makes : (signature f).Makes ran := by
  refine .ite ?_ unhandled_makes
  exact Meets.bind (parameters_makes _) fun nodes hnodes => returns_makes _ hnodes

theorem multisig_makes : (multisig f).Makes ran :=
  .ite (buildKey_makes _) (.ite makes_nil unhandled_makes)

theorem parameterParts_makes (anchor : Option f.self.Inner) (cs : List (Part × f.self.Inner)) :
    (parameterParts f anchor cs).Makes ran := by
  induction cs with
  | nil => exact makes_nil
  | cons c cs ih =>
      obtain ⟨part, c⟩ := c
      cases part with
      | inner p => exact (build_makes p (some c)).append ih
      | named key =>
          refine trimmedOrNone_bind_makes _ c.val fun es hes => ?_
          exact Meets.bind ih fun rest hrest => .pure (hes.append hrest)

theorem parameter_makes : (parameter f).Makes ran := .ite (parameterParts_makes _ _) unhandled_makes

theorem paramVar_makes (hp : f.production = .paramVar) (hf : ran f.production f.self) :
    (paramVar f).Makes ran := by
  refine .ite (balanced_bind_makes _ _ _ (buildKey_makes _)) ?_
  split
  · rename_i h
    refine variableLeaf_makes hf ?_
    rw [hp]
    exact if_pos h
  · exact .ite (wholeVariable_makes _ _) unhandled_makes

theorem renamedParam_makes (ps : List Production) : (renamedParam f ps).Makes ran := by
  induction ps with
  | nil => exact unhandled_makes
  | cons p ps ih =>
      refine .ite ?_ ih
      refine Meets.bind (need_meets _) fun name _ => ?_
      refine Meets.bind (expect_makes _ _ _ _) fun opening _ => ?_
      refine Meets.bind (buildKey_makes _) fun inner hinner => ?_
      refine Meets.bind (leafOver_makes _ _ _) fun head hhead => ?_
      refine Meets.bind (delimited_makes _ _ _ _ _ hinner) fun brackets hbrackets => ?_
      exact .pure (.cons hhead (.single hbrackets))

theorem namedParam_makes : (namedParam f).Makes ran := by
  refine .ite ?_ (renamedParam_makes _)
  exact Meets.bind (need_meets _) fun var _ => (leafOver_makes _ _ _).cons (buildKey_makes _)

theorem whereClause_makes : (whereClause f).Makes ran :=
  Meets.bind (need_meets _) fun _ _ => (expect_makes _ _ _ _).cons (buildKey_makes _)

theorem typeConstraint_makes : (typeConstraint f).Makes ran :=
  buildOnly_makes (.ite whereClause_makes unhandled_makes) _

theorem postConstraint_makes : (postConstraint f).Makes ran :=
  .ite whereClause_makes (.ite (balanced_bind_makes _ _ _ (buildKey_makes _)) unhandled_makes)

theorem defaultValue_makes : (defaultValue f).Makes ran :=
  .ite ((sample_makes _ _ _).cons (buildKey_makes _)) unhandled_makes

/-! ### Declarations -/

theorem scopeDeclarator_makes : (scopeDeclarator f).Makes ran := by
  refine .ite ?_ unhandled_makes
  refine Meets.bind (trimmedKey_makes _ _) fun sym hsym => ?_
  refine Meets.bind (buildKey_makes _) fun declared hdeclared => ?_
  refine Meets.bind (need_meets _) fun declaration _ => ?_
  have hnodes := hsym.append hdeclared
  refine Meets.bind (branch_makes _ ?_) fun head hhead => .pure (.cons hhead ?_)
  · exact hnodes.of_subset (List.takeWhile_sublist _).subset
  · exact hnodes.of_subset (List.dropWhile_sublist _).subset

theorem buildDeclared_makes {other : Plan f (List Element)} (ho : other.Makes ran)
    (ps : List Production) : (buildDeclared f other ps).Makes ran := by
  induction ps with
  | nil => exact ho
  | cons p ps ih => exact .ite (buildKey_makes _) ih

theorem scopedDecl_makes : (scopedDecl f).Makes ran := by
  refine buildDeclared_makes (.ite ?_ unhandled_makes) _
  exact (buildAll_makes _ _).append (buildKey_makes _)

theorem declarator_makes : (declarator f).Makes ran := by
  refine Meets.bind (buildIf_makes _) fun initializer hinitializer => ?_
  refine .ite ?_ (.ite ?_ (.ite ?_ (buildOnly_makes unhandled_makes _)))
  · exact Meets.bind (buildKey_makes _) fun var hvar => .pure (hvar.append hinitializer)
  · refine Meets.bind (buildKey_makes _) fun children hchildren => ?_
    refine Meets.bind (need_meets _) fun signature _ => ?_
    refine Meets.bind (balancedAround_makes _ _ _ hchildren) fun brackets hbrackets => ?_
    exact .pure (hbrackets.append hinitializer)
  · refine Meets.bind (need_meets _) fun defterm _ => ?_
    refine Meets.bind (buildKey_makes _) fun term hterm => .pure ?_
    exact ((MadeAll.toList find?_standsIn).append hterm).append hinitializer

theorem variableDeclarator_makes : (variableDeclarator f).Makes ran :=
  .ite (buildInOrder_makes _) unhandled_makes

theorem shape_makes : (shape f).Makes ran := by
  refine .ite (balanced_bind_makes _ _ _ (buildKey_makes _)) ?_
  refine .ite (balanced_bind_makes _ _ _ (buildKey_makes _)) ?_
  exact .ite (balanced_makes _ _ _ .nil) unhandled_makes

theorem initializer_makes : (initializer f).Makes ran := by
  refine .ite ((trimmedKey_makes _ _).append (buildKey_makes _)) ?_
  exact .ite ((trimmedKey_makes _ _).append (build_makes _ _)) unhandled_makes

theorem typename_makes : (typename f).Makes ran := by
  refine .ite (buildKey_makes _) (.ite ?_ (.ite ?_ (.ite (trimmed_makes _ _) unhandled_makes)))
  · refine Meets.bind (need_meets _) fun longname _ => ?_
    refine Meets.bind (expect_makes _ _ _ _) fun opening _ => ?_
    split
    · trivial
    · refine Meets.bind (buildKey_makes _) fun args hargs => ?_
      refine Meets.bind (buildKey_makes _) fun nodes hnodes => ?_
      refine Meets.bind (delimited_makes _ _ _ _ _ hargs) fun brackets hbrackets => ?_
      exact .pure (hnodes.append (.single hbrackets))
  · refine Meets.bind (need_meets _) fun longname _ => ?_
    refine Meets.bind (need_meets _) fun inner _ => ?_
    refine Meets.bind (expect_makes _ _ _ _) fun of hof => ?_
    refine Meets.bind (buildKey_makes _) fun nodes hnodes => ?_
    exact Meets.bind (buildKey_makes _) fun types htypes => .pure (hnodes.append (.cons hof htypes))

theorem trait_makes : (trait f).Makes ran := buildOnly_makes unhandled_makes _

theorem traitMod_makes : (traitMod f).Makes ran := by
  refine Meets.bind (trimmedKey_makes _ _) fun head hhead => ?_
  have hbehind : ∀ {x : Plan f (List Element)}, x.Makes ran →
      (do return head ++ (← x) : Plan f (List Element)).Makes ran :=
    fun hx => Meets.bind hx fun _ hes => .pure (hhead.append hes)
  refine .ite ?_ (.ite (hbehind (buildKey_makes _)) (.ite ?_ ?_))
  · refine Meets.bind (buildKey_makes _) fun name hname => ?_
    exact Meets.bind (buildIf_makes _) fun args hargs => .pure ((hhead.append hname).append hargs)
  · refine Meets.bind (buildKey_makes _) fun name hname => ?_
    exact Meets.bind (buildKey_makes _) fun body hbody => .pure ((hhead.append hname).append hbody)
  · exact .ite (hbehind (build_makes _ _)) unhandled_makes

theorem typeParts_makes (cs : List (Part × f.self.Inner)) : ∀ {nodes : List Element},
    MadeAll f.src ran nodes → (typeParts f nodes cs).Makes ran := by
  induction cs with
  | nil => exact fun hnodes => .pure hnodes
  | cons c cs ih =>
      intro nodes hnodes
      obtain ⟨part, c⟩ := c
      unfold typeParts
      split
      · exact .pure hnodes
      · rename_i heq
        cases heq
        refine Meets.bind (endOf_meets _) fun _ _ => ?_
        refine Meets.bind (expect_makes _ _ _ _) fun head hhead => ?_
        refine Meets.bind (build_makes _ _) fun built hbuilt => ?_
        exact ih (hnodes.append (.cons hhead hbuilt))
      · rename_i heq
        cases heq
        exact Meets.bind (build_makes _ _) fun built hbuilt => ih (hnodes.append hbuilt)
      · rename_i heq
        cases heq
        exact Meets.bind (trimmed_makes _ _) fun built hbuilt => ih (hnodes.append hbuilt)
      · rename_i heq
        cases heq
        exact Meets.bind (build_makes _ _) fun built hbuilt => ih (hnodes.append hbuilt)

theorem typeDeclarator_makes : (typeDeclarator f).Makes ran := by
  unfold typeDeclarator
  split
  · exact .ite (typeParts_makes _ .nil) unhandled_makes
  · exact unhandled_makes

theorem packageDeclarator_makes : (packageDeclarator f).Makes ran :=
  .ite ((trimmedKey_makes _ _).append (buildKey_makes _)) unhandled_makes

theorem packageDef_makes : (packageDef f).Makes ran := by
  refine .ite (buildInOrder_makes _) (.ite ?_ unhandled_makes)
  refine Meets.bind (buildInOrder_makes _) fun nodes hnodes => ?_
  refine Meets.bind (need_meets _) fun rest _ => ?_
  refine Meets.bind (expect_makes _ _ _ _) fun semi hsemi => ?_
  exact Meets.bind (buildKey_makes _) fun body hbody => .pure (hnodes.append (.cons hsemi hbody))

theorem wordAndOne_makes {other : Plan f (List Element)} (ho : other.Makes ran)
    (ps : List Production) : (wordAndOne f other ps).Makes ran := by
  induction ps with
  | nil => exact ho
  | cons p ps ih => exact .ite ((trimmedKey_makes _ _).append (buildKey_makes _)) ih

theorem routineDeclarator_makes : (routineDeclarator f).Makes ran :=
  wordAndOne_makes unhandled_makes _

theorem routineParts_makes (cs : List (Part × f.self.Inner)) : ∀ specials : Option f.self.Inner,
    (routineParts f specials cs).Makes ran := by
  induction cs with
  | nil => exact fun _ => makes_nil
  | cons c cs ih =>
      intro specials
      obtain ⟨part, c⟩ := c
      cases part with
      | named key => exact ih (some c)
      | inner p =>
          unfold routineParts
          extract_lets rest signature
          have hrest : ∀ es, MadeAll f.src ran es → (rest es).Makes ran :=
            fun es hes => Meets.bind (ih specials) fun tail htail => .pure (hes.append htail)
          have hsignature : ∀ children, MadeAll f.src ran children →
              (signature children).Makes ran := fun children hchildren =>
            Meets.bind (balancedAround_makes _ _ _ hchildren) hrest
          split
          · refine Meets.bind (leafOver_makes _ _ _) fun name hname => ?_
            exact hrest _ (.single hname)
          · exact .ite (Meets.bind (build_makes _ _) hsignature) (hsignature [] .nil)
          · exact Meets.bind (build_makes _ _) hrest

theorem routineDef_makes : (routineDef f).Makes ran := .ite (routineParts_makes _ _) unhandled_makes

theorem methodDef_makes : (methodDef f).Makes ran := .ite (routineParts_makes _ _) unhandled_makes

theorem multiDeclarator_makes : (multiDeclarator f).Makes ran :=
  wordAndOne_makes (.ite (buildKey_makes _) unhandled_makes) _

end RakuTree.Rule
