import RakuTree.Proofs.Ignored.Frames
import RakuTree.Rule.Name
import RakuTree.Rule.Number
import RakuTree.Rule.Variable
import RakuTree.Rule.Quote
import RakuTree.Rule.Operator
import RakuTree.Rule.Term

/-!
# RakuTree.Proofs.Ignored.Terms

The rules of expressions are blind: names, numbers, variables, quotes, operators and terms.

A rule looks at a match through its frame only, so unfolding it leaves nothing but steps that
`RakuTree.Proofs.Ignored.Frames` has equations for. What is left to say is said here: which inner
matches a rule goes through by recursion, and where it goes on by what it finds.
-/

namespace RakuTree.Rule

open RakuTree.Frame

/-! ### Names -/

@[simp] theorem nameLeaf_blind : Blind nameLeaf := by
  intro f build
  simp [nameLeaf]

theorem longname_blind : Blind longname := by
  intro f build
  simp [longname]

theorem deflongname_blind : Blind deflongname := by
  intro f build
  simp [deflongname]

theorem name_blind : Blind name := by
  intro f build
  simp [name]

theorem identifier_blind : Blind identifier := by
  intro f build
  simp [identifier]

theorem defterm_blind : Blind defterm := by
  intro f build
  simp [defterm]

theorem label_blind : Blind label := by
  intro f build
  simp [label]

theorem moduleName_blind : Blind moduleName := by
  intro f build
  simp [moduleName]

/-! ### Numbers -/

theorem value_blind : Blind value := by
  intro f build
  exact buildOnly_canonical f build (by simp) _

theorem number_blind : Blind number := by
  intro f build
  simp [number]

theorem numish_blind : Blind numish := by
  intro f build
  exact buildOnly_canonical f build (by simp) _

theorem integer_blind : Blind integer := by
  intro f build
  simp [integer]

theorem decNumber_blind : Blind decNumber := by
  intro f build
  simp [decNumber]

theorem radNumber_blind : Blind radNumber := by
  intro f build
  simp [radNumber]

theorem version_blind : Blind version := by
  intro f build
  simp [version]

/-! ### Variables -/

@[simp] theorem variableClass_blind (sigil twigil : Text) :
    Blind fun f => variableClass f sigil twigil := by
  intro f build
  unfold variableClass
  cases VariableClass.ofText? (sigil ++ twigil) with
  | none => simp
  | some c => rfl

@[simp] theorem variableLeaf_blind (sigil twigil name : Text) :
    Blind fun f => variableLeaf f sigil twigil name := by
  intro f build
  simp [variableLeaf]

@[simp] theorem wholeVariable_blind (sigil twigil : Text) :
    Blind fun f => wholeVariable f sigil twigil := by
  intro f build
  simp [wholeVariable]

theorem variableUse_blind : Blind variableUse := by
  intro f build
  simp [variableUse]

theorem contextualizer_blind : Blind contextualizer := by
  intro f build
  unfold contextualizer
  rw [shape_canonical, Plan.follow_ite, Plan.follow_ite]
  split
  · apply need_bind_canonical f build (by simp)
    intro sigil
    simp only [Match.start_canonical, Match.stop_canonical, Match.text_canonical, src_canonical]
    cases Sigil.ofText? (sigil.text f.src) with
    | none => simp
    | some g =>
        rcases f.get?_cases "coercee" (by simp) with ⟨hd, hc⟩ | ⟨d, c, hd, hc, h⟩
        · simp [hd, hc]
        · simp [hd, hc, h]
  · simp

theorem coercee_blind : Blind coercee := by
  intro f build
  simp [coercee]

/-! ### Quotes -/

@[simp] theorem quoted_blind (cls : StringClass) (lexeme : Text) (captured : List Text) :
    Blind fun f => quoted f cls lexeme captured := by
  intro f build
  simp [quoted]

theorem quote_blind : Blind quote := by
  intro f build
  have hsym : f.canonical.textOf "sym" = f.textOf "sym" := by simp
  have hmod : f.canonical.textOf "quote_mod" = f.textOf "quote_mod" := by simp
  simp only [quote, shape_canonical, text_canonical, hsym, hmod, Plan.follow_ite]
  split
  · cases Quote.delimiterClasses.lookup (f.text.take 1) with
    | none => simp
    | some cls => simp
  · split
    · cases Quote.wordClasses.lookup (f.textOf "sym" ++ f.textOf "quote_mod") with
      | none => simp
      | some cls => simp
    · cases Quote.regexClasses.lookup (f.textOf "sym") with
      | none => simp
      | some cls => simp

theorem quibble_blind : Blind quibble := by
  intro f build
  simp [quibble]

theorem babble_blind : Blind babble := by
  intro f build
  simp [babble]

theorem quotepair_blind : Blind quotepair := by
  intro f build
  simp [quotepair]

@[simp] theorem barewords_blind (words : List (Nat × Text)) : Blind fun f => barewords f words := by
  intro f build
  induction words with
  | nil => rfl
  | cons word words ih => simp [barewords, ih]

theorem nibble_blind : Blind nibble := by
  intro f build
  simp [nibble]

/-! ### Operators -/

theorem operandOf_canonical (f : Frame) (build : Builder) (i : Nat)
    {d : f.canonical.self.Inner} {c : f.self.Inner} (h : d.IsCanonical c) :
    (operandOf f.canonical i (some d)).follow build =
      (operandOf f i (some c)).follow build.canonically := by
  simp [operandOf, h]

@[simp] theorem operand_blind (i : Nat) : Blind fun f => operand f i := by
  intro f build
  have hrel := Match.rel_getElem? f.innerOperands_canonical i
  rcases Match.rel_cases hrel with ⟨hd, hc⟩ | ⟨d, c, hd, hc, h⟩
  · simp [operand, operandOf, hd, hc]
  · simp [operand, hd, hc, operandOf_canonical f build i h]

@[simp] theorem operatorLeaf_blind (cls : LeafClass) {keys : List String}
    (hkeys : ∀ key ∈ keys, key ∉ Shape.ignored) : Blind fun f => operatorLeaf f cls keys := by
  intro f build
  have hcaptures : keys.flatMap f.canonical.self.captures =
      (keys.flatMap f.self.captures).map Match.canonical := by
    rw [List.map_flatMap]
    exact List.flatMap_congr fun key hkey => f.self.captures_canonical (hkeys key hkey)
  have hwide : (keys.flatMap f.canonical.self.captures).filter Match.isWide =
      ((keys.flatMap f.self.captures).filter Match.isWide).map Match.canonical := by
    simp [hcaptures, List.filter_map, Function.comp_def]
  have hoper : f.canonical.self.captures "OPER" = (f.self.captures "OPER").map Match.canonical :=
    f.self.captures_canonical (by simp)
  -- only where the parts of the operator start and stop counts
  unfold operatorLeaf
  simp only [hwide, hoper, List.isEmpty_map, ← apply_ite (List.map Match.canonical)]
  generalize (if ((keys.flatMap f.self.captures).filter Match.isWide).isEmpty
    then f.self.captures "OPER" else (keys.flatMap f.self.captures).filter Match.isWide) = parts
  cases parts with
  | nil => simp
  | cons p ps => simp [List.foldl_map]

@[simp] theorem placeOperator_blind (cls : LeafClass) (operator : Leaf)
    (left right : List Element) : Blind fun f => placeOperator f cls operator left right := by
  intro f build
  simp [placeOperator]

theorem joinOperands_canonical (f : Frame) (build : Builder) (cls : LeafClass) (operator : Leaf)
    (i : Nat) (nodes : List Element) {ds : List f.canonical.self.Inner} {cs : List f.self.Inner}
    (h : List.Forall₂ Match.Inner.IsCanonical ds cs) :
    (joinOperands f.canonical cls operator i nodes ds).follow build =
      (joinOperands f cls operator i nodes cs).follow build.canonically := by
  induction h generalizing i nodes with
  | nil => rfl
  | cons hc _ ih => simp [joinOperands, operandOf_canonical f build i hc, ih]

@[simp] theorem firstLeaf_blind (es : List Element) : Blind fun f => firstLeaf f es := by
  intro f build
  unfold firstLeaf
  split
  · rfl
  · simp

@[simp] theorem infixChain_blind (cls : LeafClass) {keys : List String}
    (hkeys : ∀ key ∈ keys, key ∉ Shape.ignored) :
    Blind fun f => infixChain f cls keys := by
  intro f build
  have hjoin := fun operator =>
    joinOperands_canonical f build cls operator 0 [] f.innerOperands_canonical
  simp [infixChain, operatorLeaf_blind cls hkeys f build, hjoin]

@[simp] theorem ternary_blind : Blind ternary := by
  intro f build
  simp [ternary]

@[simp] theorem postfixed_blind (operand postfixes : List Element) :
    Blind fun f => postfixed f operand postfixes := by
  intro f build
  unfold postfixed
  split
  · split
    · simp
    · rfl
  · rfl

@[simp] theorem reduction_blind : Blind reduction := by
  intro f build
  unfold reduction
  apply need_bind_canonical f build (by simp)
  intro op
  simp only [start_self_canonical, stop_self_canonical, src_canonical, Match.start_canonical,
    Match.stop_canonical]
  split
  · simp
  · simp

@[simp] theorem term_blind : Blind term := by
  intro f build
  exact buildOnly_canonical f build (by simp) _

@[simp] theorem hyperPostfix_blind (ps : List Production) : Blind fun f => hyperPostfix f ps := by
  intro f build
  induction ps with
  | nil => simp [hyperPostfix]
  | cons p ps ih => simp [hyperPostfix, ih]

theorem expr_blind : Blind expr := by
  intro f build
  have hinfix : ((f.canonical.get? "infix").any fun c => (Shape.of c.val).has "EXPR") =
      (f.get? "infix").any fun c => (Shape.of c.val).has "EXPR" := by
    rcases f.get?_cases "infix" (by simp) with ⟨hd, hc⟩ | ⟨d, c, hd, hc, h⟩
    · rw [hd, hc]
      rfl
    · simp [hd, hc, h]
  simp [expr, hinfix]

theorem infixOp_blind : Blind infixOp := by
  intro f build
  simp [infixOp]

theorem prefixOp_blind : Blind prefixOp := by
  intro f build
  simp [prefixOp]

theorem postfixOp_blind : Blind postfixOp := by
  intro f build
  simp [postfixOp]

theorem dotty_blind : Blind dotty := by
  intro f build
  simp [dotty]

theorem dottyop_blind : Blind dottyop := by
  intro f build
  exact buildOnly_canonical f build (by simp) _

theorem postop_blind : Blind postop := by
  intro f build
  exact buildOnly_canonical f build (by simp) _

theorem methodop_blind : Blind methodop := by
  intro f build
  simp [methodop]

/-! ### Bracketed terms, arguments and pairs -/

theorem postcircumfix_blind : Blind postcircumfix := by
  intro f build
  simp [postcircumfix]

theorem circumfix_blind : Blind circumfix := by
  intro f build
  simp [circumfix]

theorem args_blind : Blind args := by
  intro f build
  simp [args]

theorem joinArglists_canonical (f : Frame) (build : Builder) (i : Nat) (nodes : List Element)
    {ds : List f.canonical.self.Inner} {cs : List f.self.Inner}
    (h : List.Forall₂ Match.Inner.IsCanonical ds cs) :
    (joinArglists f.canonical i nodes ds).follow build =
      (joinArglists f i nodes cs).follow build.canonically := by
  induction h generalizing i nodes with
  | nil => rfl
  | cons hc _ ih => simp [joinArglists, hc, ih]

theorem semiarglist_blind : Blind semiarglist := by
  intro f build
  simp [semiarglist, joinArglists_canonical f build 0 [] (f.each_canonical "arglist" (by simp))]

theorem arglist_blind : Blind arglist := by
  intro f build
  simp [arglist]

theorem fatarrow_blind : Blind fatarrow := by
  intro f build
  simp [fatarrow]

theorem colonpair_blind : Blind colonpair := by
  intro f build
  simp [colonpair]

theorem coloncircumfix_blind : Blind coloncircumfix := by
  intro f build
  simp [coloncircumfix]

theorem sigterm_blind : Blind sigterm := by
  intro f build
  simp [sigterm]

theorem fakesignature_blind : Blind fakesignature := by
  intro f build
  simp [fakesignature]

theorem capterm_blind : Blind capterm := by
  intro f build
  simp [capterm]

end RakuTree.Rule
