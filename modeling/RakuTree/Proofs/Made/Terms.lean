import RakuTree.Proofs.Made.Basic
import RakuTree.Rule.Name
import RakuTree.Rule.Number
import RakuTree.Rule.Variable
import RakuTree.Rule.Quote
import RakuTree.Rule.Operator
import RakuTree.Rule.Term

/-!
# RakuTree.Proofs.Made.Terms

The rules of expressions make their elements the way `Made` says: names, numbers,
variables, quotes, operators and terms. Most proofs follow the cases of the rule and
the makers in each case. The few rules that put a leaf at an offset of their own
(`quoted`, `variableLeaf`, `postfixed`, `capterm`) use the constructor of `Made` that
is there for them.
-/

namespace RakuTree.Rule

open RakuTree.Plan RakuTree.Frame

variable {f : Frame} {ran : Production → Match → Prop}

/-! ### Names -/

theorem nameLeaf_makes : (nameLeaf f).Makes ran := trimmed_makes _ _

theorem longname_makes : (longname f).Makes ran := by
  unfold longname
  refine .ite ?_ (.ite nameLeaf_makes unhandled_makes)
  exact (buildKey_makes _).append (buildAll_makes _ _)

theorem deflongname_makes : (deflongname f).Makes ran := .ite (trimmed_makes _ _) unhandled_makes

theorem name_makes : (name f).Makes ran := .ite nameLeaf_makes unhandled_makes

theorem identifier_makes : (identifier f).Makes ran := .ite (trimmed_makes _ _) unhandled_makes

theorem defterm_makes : (defterm f).Makes ran := .ite (trimmed_makes _ _) unhandled_makes

theorem label_makes : (label f).Makes ran := .ite (trimmed_makes _ _) unhandled_makes

theorem moduleName_makes : (moduleName f).Makes ran := by
  unfold moduleName
  refine .ite (buildKey_makes _) (.ite ?_ unhandled_makes)
  refine Meets.bind (need_meets _) fun longname _ => ?_
  refine Meets.bind (expect_makes _ _ _ _) fun opening _ => ?_
  refine Meets.bind (buildKey_makes _) fun args hargs => ?_
  refine Meets.bind (buildKey_makes _) fun nodes hnodes => ?_
  refine Meets.bind (delimited_makes _ _ _ _ _ hargs) fun brackets hbrackets => ?_
  exact .pure (hnodes.append (.single hbrackets))

/-! ### Numbers -/

theorem value_makes : (value f).Makes ran := buildOnly_makes unhandled_makes _

theorem number_makes : (number f).Makes ran := .ite (buildKey_makes _) unhandled_makes

theorem numish_makes : (numish f).Makes ran := by
  refine buildOnly_makes ?_ _
  exact .ite (trimmed_makes _ _) (.ite (trimmed_makes _ _) unhandled_makes)

theorem integer_makes : (integer f).Makes ran := by
  unfold integer
  refine .ite (trimmed_makes _ _) (.ite (trimmed_makes _ _) (.ite (trimmed_makes _ _) ?_))
  exact .ite (trimmed_makes _ _) unhandled_makes

theorem decNumber_makes : (decNumber f).Makes ran := .ite (trimmed_makes _ _) unhandled_makes

theorem radNumber_makes : (radNumber f).Makes ran := .ite (trimmed_makes _ _) unhandled_makes

theorem version_makes : (version f).Makes ran := .ite (trimmed_makes _ _) unhandled_makes

/-! ### Variables -/

theorem variableClass_meets {G : List Element → Prop} (sigil twigil : Text) :
    (variableClass f sigil twigil).Meets G fun _ => True := by
  unfold variableClass
  split
  · exact .pure trivial
  · trivial

/-- A variable that is put together has the text that `rebuiltVariable?` says. -/
theorem variableLeaf_makes {sigil twigil name : Text} (hf : ran f.production f.self)
    (hs : rebuiltVariable? f.src f.production f.self = some (sigil ++ twigil ++ name)) :
    (variableLeaf f sigil twigil name).Makes ran := by
  unfold variableLeaf
  refine Meets.bind (variableClass_meets _ _) fun cls _ => ?_
  refine Meets.bind (leafAt_meets _ _ _) fun l hl => ?_
  exact .pure (.single (.rebuilt hf hs hl))

theorem wholeVariable_makes (sigil twigil : Text) : (wholeVariable f sigil twigil).Makes ran :=
  Meets.bind (variableClass_meets _ _) fun _ _ => trimmed_makes _ _

theorem variableUse_makes (hp : f.production = .variableUse) (hf : ran f.production f.self) :
    (variableUse f).Makes ran := by
  unfold variableUse
  refine .ite (buildKey_makes _) ?_
  split
  · rename_i h
    refine variableLeaf_makes hf ?_
    rw [hp]
    exact if_pos h
  · rename_i hno
    split
    · rename_i h
      refine variableLeaf_makes hf ?_
      rw [hp, List.append_nil]
      exact (if_neg hno).trans (if_pos h)
    · refine .ite (wholeVariable_makes _ _) (.ite (wholeVariable_makes _ _) ?_)
      exact .ite (wholeVariable_makes _ _) (.ite (wholeVariable_makes _ _) unhandled_makes)

theorem charAt_meets {G : List Element → Prop} (i : Int) :
    (f.charAt i).Meets G fun c => Text.charAt? f.src i = some c := by
  unfold charAt
  split
  · rename_i c hc
    exact hc
  · exact rfl

/-- A delimiter `c` put where the source has that character. -/
theorem leafAt_charAt_makes (cls : LeafClass) {i : Int} {c : Char}
    (hc : Text.charAt? f.src i = some c) :
    (f.leafAt cls i [c]).Meets (MadeAll f.src ran) fun l =>
      l.span.start = i ∧ Made f.src ran (.leaf l) := by
  refine (leafAt_meets cls i [c]).mono fun l hl => ⟨hl.start, .leaf (hl.standsIn ?_)⟩
  have h := Text.standsAt_charAt? f.src hl.nonneg
  rw [hc] at h
  exact h

theorem contextualizer_makes (hf : ran f.production f.self) : (contextualizer f).Makes ran := by
  unfold contextualizer
  refine .ite ?_ unhandled_makes
  refine Meets.bind (need_meets _) fun sigil hsigil => ?_
  split
  · trivial
  · rename_i g _
    extract_lets rest
    have hrest : ∀ body, MadeAll f.src ran body → (rest body).Makes ran := by
      intro body hbody
      refine Meets.bind (charAt_meets _) fun c hc => ?_
      refine Meets.bind (leafAt_charAt_makes _ hc) fun opening hopening => ?_
      refine Meets.bind (charAt_meets _) fun d hd => ?_
      refine Meets.bind (leafAt_charAt_makes _ hd) fun closing hclosing => ?_
      refine Meets.bind (R := Made f.src ran) ?_ fun e he => .pure (.single he)
      refine ofElement_meets fun e he => ?_
      simp only [Element.makeContextualizer, Span.make, Span.of?] at he
      split at he
      · rename_i span hspan
        split at hspan
        · cases hspan
          cases he
          refine .contextualizer hf hsigil rfl rfl hopening.1 ?_
          exact (MadeAll.cons hopening.2 hbody).append (.single hclosing.2)
        · cases hspan
      · cases he
    split
    · exact Meets.bind (build_makes _ _) hrest
    · exact hrest [] .nil

theorem coercee_makes : (coercee f).Makes ran :=
  .ite (buildKey_makes _) (.ite makes_nil unhandled_makes)

/-! ### Quotes -/

theorem quoted_makes {cls : StringClass} {lexeme : Text} {captured : List Text}
    (hp : f.production = .quote) (hf : ran f.production f.self) :
    (quoted f cls lexeme captured).Makes ran := by
  unfold quoted
  extract_lets _ _ rest
  have hrest : ∀ hereDoc, (rest hereDoc).Makes ran := by
    intro hereDoc
    refine Meets.bind (leaf_meets _ _ _) fun l hl => ?_
    rw [hp] at hf
    exact .pure (.single (.quote hf hl.1 hl.2.1 hl.2.2))
  split
  · exact fun lines => hrest (some lines)
  · exact hrest none

theorem quote_makes (hp : f.production = .quote) (hf : ran f.production f.self) :
    (quote f).Makes ran := by
  unfold quote
  extract_lets
  refine .ite ?_ (.ite ?_ ?_)
  · split
    · exact quoted_makes hp hf
    · trivial
  · extract_lets
    split
    · exact Meets.bind (buildKey_makes _) fun adverbs _ => quoted_makes hp hf
    · trivial
  · split
    · exact .ite (quoted_makes hp hf) unhandled_makes
    · trivial

theorem quibble_makes : (quibble f).Makes ran :=
  .ite (buildKey_makes _) (.ite makes_nil unhandled_makes)

theorem babble_makes : (babble f).Makes ran :=
  .ite (buildAll_makes _ _) (.ite makes_nil unhandled_makes)

theorem quotepair_makes : (quotepair f).Makes ran := .ite (trimmed_makes _ _) unhandled_makes

/-- Each word of `wordsFrom` stands at its offset. The induction is on what is still to be read; the
part of a word that was read already stands in front of it. -/
theorem prefix_drop_of_mem_wordsFrom {s : Text} :
    ∀ (rest word : Text) (i : Nat), word.length ≤ i →
      s.drop (i - word.length) = word.reverse ++ rest →
        ∀ w ∈ wordsFrom i word rest, w.2 <+: s.drop w.1
  | [], word, i, hi, hs, w, hw => by
      rw [wordsFrom] at hw
      split at hw
      · cases hw
      · rw [List.mem_singleton] at hw
        subst hw
        exact hs ▸ List.prefix_append _ _
  | c :: cs, word, i, hi, hs, w, hw => by
      have hnext : s.drop (i + 1) = cs := by
        have hsum : i + 1 = i - word.length + (word.reverse.length + 1) := by
          rw [List.length_reverse]
          omega
        rw [hsum, ← List.drop_drop, hs, List.drop_length_add_append]
        rfl
      rw [wordsFrom] at hw
      split at hw
      · split at hw
        · exact prefix_drop_of_mem_wordsFrom cs [] (i + 1) (by simp) (by simpa using hnext) w hw
        · rcases List.mem_cons.mp hw with rfl | hw
          · exact hs ▸ List.prefix_append _ _
          · exact prefix_drop_of_mem_wordsFrom cs [] (i + 1) (by simp) (by simpa using hnext) w hw
      · refine prefix_drop_of_mem_wordsFrom cs (c :: word) (i + 1) (by simpa using hi) ?_ w hw
        rw [List.length_cons, Nat.add_sub_add_right, hs]
        simp

theorem barewords_makes (ws : List (Nat × Text)) (hws : ∀ w ∈ ws, w.2 <+: f.text.drop w.1) :
    (barewords f ws).Makes ran := by
  induction ws with
  | nil => exact makes_nil
  | cons w ws ih =>
      obtain ⟨i, word⟩ := w
      refine MakesLeaf.cons ?_ (ih fun w hw => hws w (List.mem_cons_of_mem _ hw))
      refine (leafAt_meets _ _ _).mono fun l hl => .leaf (hl.standsIn ?_)
      exact Text.standsAt_of_prefix_drop_slice hl.nonneg (hws _ List.mem_cons_self)

theorem nibble_makes : (nibble f).Makes ran := by
  unfold nibble
  refine .ite (buildKey_makes _) (.ite (barewords_makes _ ?_) unhandled_makes)
  exact prefix_drop_of_mem_wordsFrom f.text [] 0 (by simp) (by simp)

/-! ### Operators -/

theorem operandOf_makes (i : Nat) (c? : Option f.self.Inner) : (operandOf f i c?).Makes ran := by
  cases c? with
  | none => trivial
  | some c => exact Meets.bind (build_makes _ _) fun _ hbuilt => .ite trivial (.pure hbuilt)

theorem operand_makes (i : Nat) : (operand f i).Makes ran := operandOf_makes i _

theorem operatorLeaf_makes (cls : LeafClass) (keys : List String) :
    (operatorLeaf f cls keys).MakesLeaf ran := by
  unfold operatorLeaf
  extract_lets
  split
  · trivial
  · exact trimmedLeaf_makes _ _ _

theorem placeOperator_makes (cls : LeafClass) {operator : Leaf} (left right : List Element)
    (ho : Made f.src ran (.leaf operator)) :
    (placeOperator f cls operator left right).MakesLeaf ran :=
  Meets.ite (.pure ho) (expect_makes _ _ _ _)

theorem joinOperands_makes (cls : LeafClass) {operator : Leaf} (ho : Made f.src ran (.leaf operator))
    (cs : List f.self.Inner) : ∀ (i : Nat) {nodes : List Element}, MadeAll f.src ran nodes →
      (joinOperands f cls operator i nodes cs).Makes ran := by
  induction cs with
  | nil => exact fun _ _ hnodes => .pure hnodes
  | cons c cs ih =>
      intro i nodes hnodes
      refine Meets.bind (operandOf_makes _ _) fun built hbuilt => .ite ?_ ?_
      · exact ih _ (hnodes.append hbuilt)
      · refine Meets.bind (placeOperator_makes _ _ _ ho) fun op hop => ?_
        exact ih _ (hnodes.append (.cons hop hbuilt))

theorem firstLeaf_makes {es : List Element} (hes : MadeAll f.src ran es) :
    (firstLeaf f es).MakesLeaf ran := by
  unfold firstLeaf
  split
  · exact .pure (hes _ List.mem_cons_self)
  · exact rfl

theorem infixChain_makes (cls : LeafClass) (keys : List String) :
    (infixChain f cls keys).Makes ran := by
  unfold infixChain
  extract_lets rest
  have hrest : ∀ operator, Made f.src ran (.leaf operator) → (rest operator).Makes ran := by
    intro operator ho
    refine .ite trivial ?_
    refine Meets.bind (joinOperands_makes _ ho _ _ .nil) fun nodes hnodes => ?_
    refine Meets.bind (endOf_meets _) fun _ _ => ?_
    exact .pure (hnodes.append (.toList find?_standsIn))
  split
  · refine Meets.bind (buildKey_makes _) fun es hes => ?_
    exact Meets.bind (firstLeaf_makes hes) hrest
  · exact Meets.bind (operatorLeaf_makes _ _) hrest

theorem ternary_makes : (ternary f).Makes ran := by
  refine Meets.bind (operand_makes _) fun condition hcondition => ?_
  refine Meets.bind (build_makes _ _) fun middle hmiddle => ?_
  refine Meets.bind (operand_makes _) fun otherwise hotherwise => ?_
  refine Meets.bind (between_makes _ _) fun thenOp hthen => ?_
  refine Meets.bind (between_makes _ _) fun elseOp helse => .pure ?_
  exact (hcondition.append (.cons hthen hmiddle)).append (.cons helse hotherwise)

/-- The only operands that do not stay as they are: a number and the `i` right behind
it. -/
theorem postfixed_makes {operand postfixes : List Element} (ho : MadeAll f.src ran operand)
    (hp : MadeAll f.src ran postfixes) : (postfixed f operand postfixes).Makes ran := by
  have hboth : (pure (operand ++ postfixes) : Plan f (List Element)).Makes ran :=
    .pure (ho.append hp)
  unfold postfixed
  split
  · rename_i n p ps
    split
    · split
      · rename_i h
        refine Meets.bind (leafAt_meets _ _ _) fun l hl => .pure (.single ?_)
        exact .imaginary (ho _ List.mem_cons_self) (hp _ List.mem_cons_self) h.2.1 h.2.2 hl
      · exact hboth
    · exact hboth
  · exact hboth

theorem reduction_makes : (reduction f).Makes ran := by
  refine Meets.bind (need_meets _) fun op _ => ?_
  split
  · exact (leafOver_makes _ _ _).cons (buildIf_makes _)
  · trivial

theorem term_makes : (term f).Makes ran := by
  refine buildOnly_makes ?_ _
  refine .ite ((buildKey_makes _).append (buildKey_makes _)) (.ite (buildKey_makes _) ?_)
  refine .ite ((buildKey_makes _).append (buildKey_makes _)) (.ite (buildKey_makes _) ?_)
  refine .ite ((trimmedKey_makes _ _).append (buildKey_makes _)) ?_
  exact .ite (trimmedKey_makes _ _) unhandled_makes

theorem hyperPostfix_makes (ps : List Production) : (hyperPostfix f ps).Makes ran := by
  induction ps with
  | nil => exact .ite reduction_makes term_makes
  | cons p ps ih =>
      refine .ite ?_ ih
      refine Meets.bind (trimmedKey_makes _ _) fun hyper hhyper => ?_
      refine Meets.bind (operand_makes _) fun head hhead => ?_
      refine Meets.bind (buildKey_makes _) fun es hes => .pure ?_
      exact (hhead.append hhyper).append hes

theorem expr_makes : (expr f).Makes ran := by
  refine .ite ternary_makes (.ite (infixChain_makes _ _) (.ite (infixChain_makes _ _) ?_))
  refine .ite ((buildKey_makes _).append (operand_makes _)) ?_
  refine .ite ((buildMixed_makes _ _).append (operand_makes _)) (.ite ?_ ?_)
  · refine Meets.bind (operand_makes _) fun head hhead => ?_
    exact Meets.bind (buildKey_makes _) fun ps hps => postfixed_makes hhead hps
  · refine .ite ((operand_makes _).append (buildKey_makes _)) ?_
    exact .ite ((operand_makes _).append (buildKey_makes _)) (hyperPostfix_makes _)

theorem infixOp_makes : (infixOp f).Makes ran := .ite (trimmed_makes _ _) unhandled_makes

theorem prefixOp_makes : (prefixOp f).Makes ran := .ite (trimmed_makes _ _) unhandled_makes

theorem postfixOp_makes : (postfixOp f).Makes ran := .ite (trimmed_makes _ _) unhandled_makes

theorem dotty_makes : (dotty f).Makes ran :=
  .ite ((trimmedKey_makes _ _).append (buildKey_makes _)) unhandled_makes

theorem dottyop_makes : (dottyop f).Makes ran := buildOnly_makes unhandled_makes _

theorem postop_makes : (postop f).Makes ran := buildOnly_makes unhandled_makes _

theorem methodop_makes : (methodop f).Makes ran := by
  refine Meets.bind (buildIf_makes _) fun args hargs => ?_
  have hwith : ∀ p : Production,
      (do return (← f.buildKey p) ++ args : Plan f (List Element)).Makes ran :=
    fun p => Meets.bind (buildKey_makes p) fun _ hes => .pure (hes.append hargs)
  exact .ite (hwith _) (.ite (hwith _) (.ite (hwith _) unhandled_makes))

/-! ### Terms -/

theorem postcircumfix_makes : (postcircumfix f).Makes ran := by
  refine .ite (balanced_bind_makes _ _ _ (buildIf_makes _)) ?_
  refine .ite (balanced_bind_makes _ _ _ (buildIf_makes _)) ?_
  exact .ite (balanced_bind_makes _ _ _ (buildIf_makes _)) unhandled_makes

theorem circumfix_makes : (circumfix f).Makes ran := by
  refine .ite (balanced_bind_makes _ _ _ (buildIf_makes _)) (.ite (buildKey_makes _) ?_)
  refine .ite ?_ unhandled_makes
  exact Meets.bind (trimmedLeaf_makes _ _ _) fun l hl => .pure (.single hl)

theorem args_makes : (args f).Makes ran := by
  refine .ite (balanced_bind_makes _ _ _ (buildKey_makes _)) (.ite (buildKey_makes _) ?_)
  exact .ite (.ite (balanced_makes _ _ _ .nil) makes_nil) unhandled_makes

theorem joinArglists_makes (cs : List f.self.Inner) : ∀ (i : Nat) {nodes : List Element},
    MadeAll f.src ran nodes → (joinArglists f i nodes cs).Makes ran := by
  induction cs with
  | nil => exact fun _ _ hnodes => .pure hnodes
  | cons c cs ih =>
      intro i nodes hnodes
      refine Meets.bind (build_makes _ _) fun built hbuilt => .ite ?_ ?_
      · exact ih _ (hnodes.append hbuilt)
      · refine Meets.bind (between_makes _ _) fun semi hsemi => ?_
        exact ih _ (hnodes.append (.cons hsemi hbuilt))

theorem semiarglist_makes : (semiarglist f).Makes ran :=
  .ite (joinArglists_makes _ _ .nil) (.ite makes_nil unhandled_makes)

theorem arglist_makes : (arglist f).Makes ran :=
  .ite (buildKey_makes _) (.ite makes_nil unhandled_makes)

theorem fatarrow_makes : (fatarrow f).Makes ran := by
  refine .ite ?_ unhandled_makes
  refine Meets.bind (trimmedKey_makes _ _) fun key hkey => ?_
  refine Meets.bind (build_makes _ _) fun value hvalue => ?_
  exact Meets.bind (between_makes _ _) fun arrow harrow => .pure (hkey.append (.cons harrow hvalue))

/-- A bracketed branch over the whole match, by `delimited`. -/
theorem delimited_self_makes (cls : BranchClass) (front : Nat) {x : Plan f (List Element)}
    (hx : x.Makes ran) :
    (do let ks ← x; return [← f.delimited cls f.self.start f.self.stop front .plain ks]).Makes
      ran :=
  Meets.bind hx fun _ hks =>
    Meets.bind (delimited_makes _ _ _ _ _ hks) fun _ he => .pure (.single he)

theorem colonpair_makes : (colonpair f).Makes ran := by
  refine .ite ?_ (.ite (trimmed_makes _ _) (.ite ?_ (.ite ?_ (.ite ?_ unhandled_makes))))
  · refine Meets.bind (need_meets _) fun identifier _ => ?_
    exact (leafOver_makes _ _ _).cons (buildKey_makes _)
  · refine Meets.bind (need_meets _) fun circumfix _ => ?_
    exact (leafOver_makes _ _ _).cons (buildKey_makes _)
  · refine Meets.bind (need_meets _) fun var _ => ?_
    exact (leafOver_makes _ _ _).cons (build_makes _ _)
  · exact delimited_self_makes _ _ (buildKey_makes _)

theorem coloncircumfix_makes : (coloncircumfix f).Makes ran :=
  .ite (buildKey_makes _) unhandled_makes

theorem sigterm_makes : (sigterm f).Makes ran :=
  .ite (delimited_self_makes _ _ (buildKey_makes _)) unhandled_makes

theorem fakesignature_makes : (fakesignature f).Makes ran :=
  .ite (buildKey_makes _) (.ite makes_nil unhandled_makes)

theorem capterm_makes (hp : f.production = .capterm) (hf : ran f.production f.self) :
    (capterm f).Makes ran := by
  rw [hp] at hf
  refine Meets.bind (leafAt_meets _ _ _) fun slash hslash => ?_
  have hmade : Made f.src ran (.leaf slash) := .backslash hf hslash
  have hbefore : ∀ {x : Plan f (List Element)}, x.Makes ran →
      (do return .leaf slash :: (← x) : Plan f (List Element)).Makes ran :=
    fun hx => Meets.bind hx fun _ hes => .pure (.cons hmade hes)
  refine .ite ?_ (.ite (hbefore (build_makes _ _)) (.ite (hbefore (buildKey_makes _)) unhandled_makes))
  refine Meets.bind (buildIf_makes _) fun children hchildren => ?_
  refine Meets.bind (delimited_makes _ _ _ _ _ hchildren) fun brackets hbrackets => ?_
  exact .pure (.cons hmade (.single hbrackets))

end RakuTree.Rule
