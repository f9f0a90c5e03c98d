import RakuTree.Proofs.Made.Terms
import RakuTree.Rule.Regex
import RakuTree.Rule.Metachar

/-!
# RakuTree.Proofs.Made.Regexes

The rules of declared regexes make their elements the way `Made` says. The sign in
front of a block of code is the one leaf that is placed by counting back from the end
of the match.
-/

namespace RakuTree.Rule

open RakuTree.Plan RakuTree.Frame

variable {f : Frame} {ran : Production → Match → Prop}

/-! ### Declarations -/

theorem regexDeclarator_makes : (regexDeclarator f).Makes ran :=
  .ite ((trimmedKey_makes _ _).append (buildKey_makes _)) unhandled_makes

theorem regexHead_makes (cs : List (Production × f.self.Inner)) : (regexHead f cs).Makes ran := by
  induction cs with
  | nil => exact makes_nil
  | cons c cs ih =>
      obtain ⟨p, c⟩ := c
      unfold regexHead
      extract_lets rest
      have hrest : ∀ es, MadeAll f.src ran es → (rest es).Makes ran :=
        fun es hes => Meets.bind ih fun tail htail => .pure (hes.append htail)
      split
      · refine Meets.bind (build_makes _ _) fun children hchildren => ?_
        exact Meets.bind (balancedAround_makes _ _ _ hchildren) hrest
      · exact Meets.bind (build_makes _ _) hrest

theorem regexDef_makes : (regexDef f).Makes ran := by
  refine .ite ?_ unhandled_makes
  refine Meets.bind (regexHead_makes _) fun nodes hnodes => ?_
  extract_lets nibble stop
  split
  · trivial
  · split
    · trivial
    · extract_lets rest
      have hrest : ∀ body, MadeAll f.src ran body → (rest body).Makes ran := by
        intro body hbody
        refine Meets.bind (delimited_makes _ _ _ _ _ hbody) fun brackets hbrackets => ?_
        exact .pure (hnodes.append (.single hbrackets))
      clear_value nibble
      cases nibble with
      | none => exact hrest [] .nil
      | some c => exact Meets.bind (build_makes _ _) hrest

/-! ### Sequences -/

theorem nibbler_makes : (nibbler f).Makes ran :=
  .ite (buildKey_makes _) (.ite makes_nil unhandled_makes)

theorem termseq_makes : (termseq f).Makes ran :=
  .ite (buildKey_makes _) (.ite makes_nil unhandled_makes)

theorem separatedFrom_makes (p : Production) (separator : Text) (cs : List f.self.Inner) :
    ∀ (i : Nat) (cursor : Int), (separatedFrom f p separator i cursor cs).Makes ran := by
  induction cs with
  | nil => exact fun _ _ => makes_nil
  | cons c cs ih =>
      intro i cursor
      unfold separatedFrom
      extract_lets found behind
      refine .ite trivial ?_
      refine Meets.bind (build_makes _ _) fun built hbuilt => ?_
      refine Meets.bind (ih _ _) fun rest hrest => .pure ?_
      exact ((MadeAll.toList find?_standsIn).append hbuilt).append hrest

theorem separated_makes (p : Production) (separator : Text) : (separated f p separator).Makes ran :=
  separatedFrom_makes _ _ _ _ _

theorem termaltseq_makes : (termaltseq f).Makes ran := .ite (separated_makes _ _) unhandled_makes

theorem termconjseq_makes : (termconjseq f).Makes ran := .ite (separated_makes _ _) unhandled_makes

theorem termalt_makes : (termalt f).Makes ran := .ite (separated_makes _ _) unhandled_makes

theorem termconj_makes : (termconj f).Makes ran := .ite (separated_makes _ _) unhandled_makes

theorem termish_makes : (termish f).Makes ran := .ite (buildAll_makes _ _) unhandled_makes

theorem quantifiedAtom_makes : (quantifiedAtom f).Makes ran :=
  .ite (buildInOrder_makes _) unhandled_makes

theorem separator_makes : (separator f).Makes ran :=
  .ite ((trimmedKey_makes _ _).append (buildKey_makes _)) unhandled_makes

theorem quantifier_makes : (quantifier f).Makes ran := .ite (trimmed_makes _ _) unhandled_makes

theorem backmod_makes : (backmod f).Makes ran :=
  .ite (.ite makes_nil (trimmed_makes _ _)) unhandled_makes

/-! ### Metacharacters -/

theorem trimmedIfAny_makes (cls : LeafClass) : (trimmedIfAny f cls).Makes ran :=
  .ite makes_nil (trimmed_makes _ _)

theorem atom_makes : (atom f).Makes ran :=
  .ite (buildKey_makes _) (.ite (trimmedIfAny_makes _) unhandled_makes)

theorem binding_makes {target : List Element} (ht : MadeAll f.src ran target) :
    (binding f target).Makes ran := by
  unfold binding
  split
  · exact .pure ht
  · refine .ite ?_ (.pure ht)
    refine Meets.bind (endOf_meets _) fun _ _ => ?_
    refine Meets.bind (expect_makes _ _ _ _) fun equals hequals => ?_
    exact Meets.bind (build_makes _ _) fun built hbuilt => .pure (ht.append (.cons hequals hbuilt))

theorem namedBinding_makes : (namedBinding f).Makes ran := by
  refine Meets.bind (need_meets _) fun name _ => ?_
  split
  · trivial
  · exact Meets.bind (leafOver_makes _ _ _) fun target htarget => binding_makes (.single htarget)

theorem embeddedStatement_makes : (embeddedStatement f).Makes ran := by
  refine Meets.bind (need_meets _) fun statement _ => ?_
  refine Meets.bind (expect_makes _ _ _ _) fun head hhead => ?_
  refine Meets.bind (buildKey_makes _) fun built hbuilt => ?_
  refine Meets.bind (endOf_meets _) fun _ _ => .pure ?_
  exact (MadeAll.cons hhead hbuilt).append (.toList find?_standsIn)

theorem metachar_makes : (metachar f).Makes ran := by
  refine .ite (trimmedIfAny_makes _) (.ite (buildKey_makes _) ?_)
  refine .ite (balanced_bind_makes _ _ _ (buildKey_makes _)) ?_
  refine .ite (balanced_bind_makes _ _ _ (buildKey_makes _)) ?_
  refine .ite (buildKey_makes _) (.ite (buildKey_makes _) (.ite ?_ ?_))
  · exact Meets.bind (build_makes _ _) fun target htarget => binding_makes htarget
  · exact .ite namedBinding_makes (.ite embeddedStatement_makes unhandled_makes)

theorem backslash_makes : (backslash f).Makes ran := .ite (trimmed_makes _ _) unhandled_makes

/-! ### Assertions -/

theorem assertionArguments_makes {nodes : List Element} (hnodes : MadeAll f.src ran nodes) :
    (assertionArguments f nodes).Makes ran := by
  refine Meets.bind (buildKey_makes _) fun args hargs => ?_
  refine Meets.bind (need_meets _) fun longname _ => ?_
  refine Meets.bind (need_meets _) fun arglist _ => ?_
  split
  · split
    · trivial
    · refine Meets.bind (delimited_makes _ _ _ _ _ hargs) fun brackets hbrackets => ?_
      exact .pure (hnodes.append (.single hbrackets))
  · refine Meets.bind (between_makes _ _) fun colon hcolon => ?_
    exact .pure (hnodes.append (.cons hcolon hargs))

theorem namedAssertion_makes : (namedAssertion f).Makes ran := by
  unfold namedAssertion
  refine Meets.bind (buildKey_makes _) fun name hname => ?_
  extract_lets rest
  have hrest : ∀ nodes, MadeAll f.src ran nodes → (rest nodes).Makes ran := by
    intro nodes hnodes
    refine Meets.bind (buildIf_makes _) fun inner hinner => ?_
    have hall := hnodes.append hinner
    refine .ite ?_ (.pure hall)
    refine Meets.bind (need_meets _) fun _ _ => ?_
    refine Meets.bind (endOf_meets _) fun _ _ => ?_
    refine Meets.bind (expect_makes _ _ _ _) fun equals hequals => ?_
    exact Meets.bind (buildKey_makes _) fun built hbuilt => .pure (hall.append (.cons hequals hbuilt))
  split
  · exact Meets.bind (assertionArguments_makes hname) hrest
  · exact hrest name hname

theorem assertion_makes (hp : f.production = .assertion) (hf : ran f.production f.self) :
    (assertion f).Makes ran := by
  rw [hp] at hf
  refine .ite ?_ (.ite namedAssertion_makes (.ite (buildAll_makes _ _) (.ite ?_ (.ite ?_ unhandled_makes))))
  · refine Meets.bind (need_meets _) fun inner _ => ?_
    exact (leafOver_makes _ _ _).cons (buildKey_makes _)
  · refine Meets.bind (buildKey_makes _) fun nodes hnodes => ?_
    cases htext : Text.trimLeft f.text with
    | nil => exact .pure hnodes
    | cons c rest =>
        refine .ite ?_ (.pure hnodes)
        refine Meets.bind (leafAt_meets _ _ _) fun sign hsign => .pure (.cons ?_ hnodes)
        exact .sign hf htext hsign
  · refine .ite makes_nil (.ite (trimmed_makes _ _) (trimmed_makes _ _))

/-! ### Character classes -/

theorem classSign_makes : (classSign f).Makes ran := by
  unfold classSign
  split
  · exact .ite makes_nil (trimmed_makes _ _)
  · exact makes_nil

theorem cclassElem_makes : (cclassElem f).Makes ran := by
  refine .ite ?_ unhandled_makes
  refine Meets.bind classSign_makes fun sign hsign => ?_
  refine .ite ?_ (.ite ?_ ?_)
  · exact Meets.bind (trimmedKey_makes _ _) fun name hname => .pure (hsign.append hname)
  · refine Meets.bind (expect_makes _ _ _ _) fun colon _ => ?_
    refine Meets.bind (need_meets _) fun property _ => ?_
    exact Meets.bind (leafOver_makes _ _ _) fun l hl => .pure (hsign.append (.single hl))
  · split
    · refine .ite ?_ trivial
      exact Meets.bind (leafOver_makes _ _ _) fun l hl => .pure (hsign.append (.single hl))
    · trivial

end RakuTree.Rule
