import Mathlib.Data.List.Induction
import RakuTree.Proofs.Complete.Expressions
import RakuTree.Proofs.RoundTrip
import RakuTree.Proofs.Separators
import RakuTree.Proofs.Simulation

/-!
# RakuTree.Proofs.InfixChains

Operands joined by an infix operator.

An operator is captured once, and stands for every place where it joins two operands. The leaf that
was captured is used where it lies between them, and the text of the operator is searched for
otherwise (`Leaf.HasPlace`). `Chain` says what the operands built so far come to: their elements in
order, with an operator in each gap. One more operand makes the chain longer if there is a place for
the operator in front of it, and is refused if there is none; what a whole match comes to follows by
going through its operands from the first one on.
-/

namespace RakuTree

open Element

/-! ### Occurrences -/

namespace Text

variable {src s t : Text}

/-- `s` stands in the source somewhere between two offsets. -/
def OccursIn (src s : Text) (a b : Int) : Prop :=
  ∃ i : Nat, a ≤ i ∧ (i + s.length : Int) ≤ b ∧ i + s.length ≤ src.length ∧ StandsAt src i s

theorem add_length_le_of_first? {i : Nat} (h : first? s t = some i) : i + s.length ≤ t.length := by
  induction t generalizing i with
  | nil =>
      simp only [first?] at h
      split at h
      · rename_i hempty
        cases h
        simp [List.isEmpty_iff.mp hempty]
      · cases h
  | cons c t ih =>
      simp only [first?] at h
      split at h
      · rename_i hprefix
        cases h
        have hle := (List.isPrefixOf_iff_prefix.mp hprefix).length_le
        omega
      · obtain ⟨j, hj, rfl⟩ := Option.map_eq_some_iff.mp h
        have hle := ih hj
        rw [List.length_cons]
        omega

/-- What `find?` finds lies where it was looked for, between `a` and `b`. -/
theorem bounds_of_find? {a b : Int} {i : Nat} (ha : 0 ≤ a) (hb : 0 ≤ b)
    (h : find? src s a b = some i) :
    a ≤ i ∧ (i + s.length : Int) ≤ b ∧ i + s.length ≤ src.length := by
  simp only [find?, place_of_nonneg ha, place_of_nonneg hb] at h
  split at h
  · obtain ⟨j, hj, rfl⟩ := Option.map_eq_some_iff.mp h
    have hle := add_length_le_of_first? hj
    rw [List.length_drop, List.length_take] at hle
    omega
  · cases h

/-- What stands between `a` and `b` stands in the part of the source that `find?` searches. -/
theorem prefix_window {a b : Int} {i : Nat} (ha : a ≤ i) (hb : (i + s.length : Int) ≤ b)
    (hsrc : i + s.length ≤ src.length) (hstands : StandsAt src i s) :
    s <+: ((src.take (min b.toNat src.length)).drop a.toNat).drop (i - a.toNat) := by
  have hplace : a.toNat + (i - a.toNat) = i := by omega
  rw [List.drop_drop, hplace, List.drop_take]
  exact List.prefix_take_iff.mpr ⟨hstands, by omega⟩

/-- A search by `find?` finds something exactly if there is something to be found. -/
theorem exists_find?_iff {a b : Int} (ha : 0 ≤ a) (hb : 0 ≤ b) :
    (∃ i, find? src s a b = some i) ↔ OccursIn src s a b := by
  constructor
  · rintro ⟨i, hi⟩
    obtain ⟨hai, hib, hisrc⟩ := bounds_of_find? ha hb hi
    exact ⟨i, hai, hib, hisrc, standsAt_of_find? hi⟩
  · rintro ⟨i, hai, hib, hisrc, hstands⟩
    obtain ⟨j, -, hj, -⟩ := exists_first? (prefix_window hai hib hisrc hstands)
    refine ⟨a.toNat + j, ?_⟩
    simp only [find?, place_of_nonneg ha, place_of_nonneg hb]
    rw [if_pos (by omega), hj]
    rfl

end Text

/-! ### The place of an operator -/

namespace Leaf

variable {src : Text} {operator : Leaf} {a b : Int}

/-- Leaf `q` stands for the operator between two offsets. -/
structure Joins (src : Text) (operator : Leaf) (a b : Int) (q : Leaf) : Prop where
  /-- The leaf `q` is of the class of `operator`. -/
  cls : q.cls = operator.cls
  /-- The leaf `q` has the text of `operator`. -/
  content : q.content = operator.content
  /-- The text stands in the source where the leaf `q` says. -/
  stands : q.StandsIn src
  /-- The leaf `q` starts no sooner than `a`. -/
  start : a ≤ q.span.start
  /-- The leaf `q` ends no later than `b`. -/
  stop : q.span.stop ≤ b

/-- There is a place for `operator` between `a` and `b`: it lies there itself, or its text occurs
there. -/
def HasPlace (src : Text) (operator : Leaf) (a b : Int) : Prop :=
  (a ≤ operator.span.start ∧ operator.span.stop ≤ b) ∨ Text.OccursIn src operator.content a b

/-- An operator that has text has a place, by `HasPlace`, exactly where its text occurs. -/
theorem StandsIn.hasPlace_iff (h : operator.StandsIn src) (hne : operator.content ≠ []) :
    operator.HasPlace src a b ↔ Text.OccursIn src operator.content a b := by
  refine ⟨fun hplace => ?_, .inr⟩
  rcases hplace with ⟨hstart, hstop⟩ | hoccurs
  · have hnonneg := operator.span.nonneg
    have hwidth := h.width
    have hsrc := h.stop_le hne
    exact ⟨operator.span.start.toNat, by omega, by omega, by omega, h.stands⟩
  · exact hoccurs

/-- What may stand behind the last operand, between `a` and `b`: the operator, exactly if its text
occurs there. -/
structure Trails (src : Text) (operator : Leaf) (a b : Int) (trailing : Option Leaf) : Prop where
  /-- A `trailing` leaf stands for the operator, by `Joins`. -/
  joins : ∀ q, trailing = some q → operator.Joins src a b q
  /-- A `trailing` leaf is there exactly if the text of `operator` occurs between `a` and `b`. -/
  isSome_iff : trailing.isSome = true ↔ Text.OccursIn src operator.content a b

/-- A leaf for what `find?` finds of the text of an operator stands for it, by `Joins`. -/
theorem found_joins {i : Nat} {origin : Option String} (ha : 0 ≤ a) (hb : 0 ≤ b)
    (h : Text.find? src operator.content a b = some i) :
    operator.Joins src a b (found operator.cls i operator.content origin) := by
  obtain ⟨hai, hib, -⟩ := Text.bounds_of_find? ha hb h
  exact ⟨rfl, rfl, found_standsIn (Text.standsAt_of_find? h), hai, hib⟩

theorem found_trails {origin : Option String} (ha : 0 ≤ a) (hb : 0 ≤ b) :
    operator.Trails src a b ((Text.find? src operator.content a b).map fun i =>
      found operator.cls i operator.content origin) := by
  refine ⟨fun q hq => ?_, ?_⟩
  · obtain ⟨i, hi, rfl⟩ := Option.map_eq_some_iff.mp hq
    exact found_joins ha hb hi
  · rw [Option.isSome_map, Option.isSome_iff_exists]
    exact Text.exists_find?_iff ha hb

end Leaf

namespace Element

theorem firstStart_nonneg {es : List Element} (hne : es ≠ []) (d : Int) : 0 ≤ firstStart d es := by
  cases es with
  | nil => exact absurd rfl hne
  | cons e es => exact e.span.nonneg

theorem lastEnd_nonneg_of_ne_nil {es : List Element} (hne : es ≠ []) (d : Int) :
    0 ≤ lastEnd d es := by
  cases es with
  | nil => exact absurd rfl hne
  | cons e es =>
      rw [lastEnd_cons]
      exact lastEnd_nonneg (outerEnd_nonneg e) es

theorem lastEnd_eq_of_ne_nil {es : List Element} (hne : es ≠ []) (d d' : Int) :
    lastEnd d es = lastEnd d' es := by
  cases es with
  | nil => exact absurd rfl hne
  | cons e es => rw [lastEnd_cons, lastEnd_cons]

theorem firstStart_eq_of_ne_nil {es : List Element} (hne : es ≠ []) (d d' : Int) :
    firstStart d es = firstStart d' es := by
  cases es with
  | nil => exact absurd rfl hne
  | cons e es => rfl

end Element

/-- Between two rows of elements, `placeOperator` puts an operator in its place if it `HasPlace`,
and refuses the match otherwise. -/
theorem Rule.placeOperator_cases (f : Frame) {operator : Leaf} (hoperator : operator.StandsIn f.src)
    {left right : List Element} (hleft : left ≠ []) (hright : right ≠ []) :
    (operator.HasPlace f.src (lastEnd 0 left) (firstStart 0 right) ∧
      ∃ q, placeOperator f operator.cls operator left right = .done q ∧
        operator.Joins f.src (lastEnd 0 left) (firstStart 0 right) q) ∨
    (¬ operator.HasPlace f.src (lastEnd 0 left) (firstStart 0 right) ∧
      ∃ note, placeOperator f operator.cls operator left right = f.refuse note) := by
  have ha := lastEnd_nonneg_of_ne_nil hleft 0
  have hb := firstStart_nonneg hright 0
  simp only [placeOperator, lastEnd_eq_of_ne_nil hleft f.self.start 0,
    firstStart_eq_of_ne_nil hright f.self.stop 0]
  generalize lastEnd 0 left = a at ha ⊢
  generalize firstStart 0 right = b at hb ⊢
  by_cases hfits : a ≤ operator.span.start ∧ operator.span.stop ≤ b
  · refine .inl ⟨.inl hfits, operator, ?_, rfl, rfl, hoperator, hfits.1, hfits.2⟩
    simp only [if_pos hfits, Plan.pure_eq_done]
  · simp only [if_neg hfits, Frame.expect, Frame.find?, Token.find?]
    cases hfind : Text.find? f.src operator.content a b with
    | some i =>
        refine .inl ⟨.inr ((Text.exists_find?_iff ha hb).mp ⟨i, hfind⟩), _, rfl, ?_⟩
        exact Leaf.found_joins ha hb hfind
    | none =>
        refine .inr ⟨fun hplace => ?_, _, rfl⟩
        rcases hplace with hplace | hoccurs
        · exact hfits hplace
        · obtain ⟨i, hi⟩ := (Text.exists_find?_iff ha hb).mpr hoccurs
          rw [hfind] at hi
          cases hi

/-! ### The operator of a chain -/

namespace Match

/-- How an expression that is an infix chain has its operator captured: the class of the operator,
and the names of its parts. It is `none` for any other expression. -/
def chain? (m : Match) : Option (LeafClass × List String) :=
  let s := Shape.of m
  if s.fits ["infix"] ["OPER"] && (m.capture? "infix").any fun c => (Shape.of c).has "EXPR" then
    none
  else if s.fits ["infix"]
      ["OPER", "infix_prefix_meta_operator", "infix_postfix_meta_operator"] then
    some (.infixOperator, ["infix_prefix_meta_operator", "infix", "infix_postfix_meta_operator"])
  else if s.fits ["infix_circumfix_meta_operator"] ["OPER", "infix"] then
    some (.hyperOperator, ["infix_circumfix_meta_operator"])
  else none

/-- The leaf of an infix operator `c` that is a match of its own, if nothing but its symbol was
captured. -/
def infixLeaf? (src : Text) (c : Match) : Option Leaf :=
  if (Shape.of c).fits [] ["sym"] then
    (Leaf.trimmed .infixOperator src c.start c.stop (some Production.infixOp.key) {}).toOption
  else none

/-- From where to where the parts of an operator reach; `OPER` stands in for parts that are not
there. -/
def operatorRange? (m : Match) (keys : List String) : Option (Int × Int) :=
  let wide := (keys.flatMap m.captures).filter isWide
  match if wide.isEmpty then m.captures "OPER" else wide with
  | [] => none
  | p :: ps =>
    some (ps.foldl (fun i q => min i q.start) p.start, ps.foldl (fun i q => max i q.stop) p.stop)

/-- The operator of a chain `m`, as a leaf without surrounding whitespace: over its match if there
are no meta-operators, and over all of its parts otherwise. -/
def operator? (src : Text) (m : Match) : Option Leaf :=
  m.chain?.bind fun form =>
    if form.1 = .infixOperator ∧ (Shape.of m).fits ["infix"] ["OPER"] then
      (m.capture? "infix").bind (infixLeaf? src)
    else (m.operatorRange? form.2).bind fun range =>
      (Leaf.trimmed form.1 src range.1 range.2 (some Production.expr.key) {}).toOption

end Match

variable {src : Text} {options : Options} {m : Match} {cls : LeafClass} {keys : List String}
  {s t : BuildState}

theorem Leaf.cls_of_trimmed {a b : Int} {origin : Option String} {quoting : Quoting} {l : Leaf}
    (h : trimmed cls src a b origin quoting = .ok l) : l.cls = cls := by
  simp only [trimmed, placed, make] at h
  cases hspan : Span.make (.leaf cls) (a + Text.leadingSpace (Text.slice src a b))
      (a + Text.leadingSpace (Text.slice src a b) + (Text.trim (Text.slice src a b)).length) with
  | error e =>
      rw [hspan] at h
      cases h
  | ok span =>
      rw [hspan] at h
      cases h
      rfl

theorem eq_ok_of_toOption {ε α : Type} {x : Except ε α} {a : α} (h : x.toOption = some a) :
    x = .ok a := by
  cases x with
  | ok b =>
      cases h
      rfl
  | error e => cases h

/-- The operator of a chain, `operator?`, is a leaf of the source. -/
theorem Match.operator?_eq_some {l : Leaf} (hchain : m.chain? = some (cls, keys))
    (h : m.operator? src = some l) : l.cls = cls ∧ l.StandsIn src := by
  have htrimmed : ∃ a b origin, Leaf.trimmed cls src a b origin {} = .ok l := by
    rw [operator?, hchain, Option.bind_some] at h
    split at h
    · rename_i hplain
      obtain ⟨c, -, h⟩ := Option.bind_eq_some_iff.mp h
      have hcls : cls = .infixOperator := hplain.1
      rw [infixLeaf?] at h
      split at h
      · rw [hcls]
        exact ⟨_, _, _, eq_ok_of_toOption h⟩
      · cases h
    · obtain ⟨range, -, h⟩ := Option.bind_eq_some_iff.mp h
      exact ⟨_, _, _, eq_ok_of_toOption h⟩
  obtain ⟨a, b, origin, hleaf⟩ := htrimmed
  exact ⟨Leaf.cls_of_trimmed hleaf, Leaf.trimmed_standsIn hleaf⟩

namespace Rule

/-- The operator of a chain, by itself or made of its parts: the first half of `infixChain`. -/
def chainOperator (f : Frame) (cls : LeafClass) (keys : List String) : Plan f Leaf :=
  if cls = .infixOperator ∧ f.shape.fits ["infix"] ["OPER"] then do
    firstLeaf f (← f.buildKey .infixOp)
  else operatorLeaf f cls keys

theorem expr_eq_infixChain (f : Frame) (hchain : f.self.chain? = some (cls, keys)) :
    expr f = infixChain f cls keys := by
  have hternary : ((f.get? "infix").any fun c => (Shape.of c.val).has "EXPR") =
      (f.self.capture? "infix").any fun c => (Shape.of c).has "EXPR" := by
    rw [← Match.map_val_inner?, Option.any_map]
    rfl
  have hshape : Shape.of f.self = f.shape := rfl
  simp only [Match.chain?, hshape, ← hternary] at hchain
  simp only [expr]
  split at hchain
  · cases hchain
  · rename_i h
    rw [if_neg h]
    split at hchain
    · rename_i h
      cases hchain
      rw [if_pos h]
    · rename_i h
      rw [if_neg h]
      split at hchain
      · rename_i h
        cases hchain
        rw [if_pos h]
      · cases hchain

/-- The operands of a chain with `operator` between them, and perhaps behind the last of them: the
second half of `infixChain`. -/
def joinAll (f : Frame) (cls : LeafClass) (operator : Leaf) : Plan f (List Element) :=
  if f.self.operands.isEmpty then f.refuse "infix without operands"
  else do
    let nodes ← joinOperands f cls operator 0 [] f.self.innerOperands
    let stop ← f.endOf nodes
    return nodes ++ ((f.find? cls stop f.self.stop (.text operator.content)).map Element.leaf).toList

theorem infixChain_eq (f : Frame) :
    infixChain f cls keys = chainOperator f cls keys >>= joinAll f cls := by
  by_cases h : cls = .infixOperator ∧ f.shape.fits ["infix"] ["OPER"] = true
  · simp only [infixChain, chainOperator, if_pos h, bind_assoc]
    rfl
  · simp only [infixChain, chainOperator, if_neg h]
    rfl

/-- An infix operator that is a match of its own comes to its `infixLeaf?`. -/
theorem infixOp_gives (src : Text) (options : Options) (c : Match) (s : BuildState) :
    (produce src options .infixOp c).Gives s ((c.infixLeaf? src).map fun l => [.leaf l]) := by
  have hrule : Production.infixOp.rule ⟨src, .infixOp, c⟩ =
      if (Shape.of c).fits [] ["sym"] then Frame.trimmed ⟨src, .infixOp, c⟩ .infixOperator c
      else Frame.unhandled _ := rfl
  apply produce_gives
  rw [hrule, Match.infixLeaf?]
  split
  · exact Frame.trimmed_gives _ _ c _
  · exact Plan.refuse_gives _

/-- An operator that is a match of its own is handed on by `firstLeaf`. -/
theorem ownOperator_gives (f : Frame) (s : BuildState) :
    ((f.buildKey .infixOp >>= firstLeaf f).run (produceInner f.src options)).Gives s
      ((f.self.capture? "infix").bind (Match.infixLeaf? f.src)) := by
  have hkey : f.buildKey .infixOp = f.build .infixOp (f.self.inner? "infix") := rfl
  rw [hkey, ← Match.map_val_inner?]
  cases f.self.inner? "infix" with
  | none => exact .of_error rfl
  | some c =>
      have hrun : ((f.build .infixOp (some c) >>= firstLeaf f).run
            (produceInner f.src options)) =
          produce f.src options .infixOp c.val >>= fun es =>
            (firstLeaf f es).run (produceInner f.src options) := rfl
      have hown := infixOp_gives f.src options c.val s
      rw [hrun, Option.map_some, Option.bind_some]
      cases hleaf : c.val.infixLeaf? f.src with
      | none =>
          rw [hleaf, Option.map_none] at hown
          exact hown.bind (l := fun _ => none) fun _ _ h => absurd h.symm (Option.some_ne_none _)
      | some l =>
          rw [hleaf, Option.map_some] at hown
          refine hown.bind (l := fun _ => some l) fun es t hes => ?_
          cases hes
          exact Plan.done_gives l

theorem operatorLeaf_gives (s : BuildState) :
    ((operatorLeaf ⟨src, .expr, m⟩ cls keys).run (produceInner src options)).Gives s
      ((m.operatorRange? keys).bind fun range =>
        (Leaf.trimmed cls src range.1 range.2 (some Production.expr.key) {}).toOption) := by
  simp only [operatorLeaf, Match.operatorRange?]
  generalize (if ((keys.flatMap m.captures).filter Match.isWide).isEmpty = true then
    m.captures "OPER" else (keys.flatMap m.captures).filter Match.isWide) = parts
  cases parts with
  | nil => exact Plan.refuse_gives _
  | cons p ps => exact Plan.ofElement_gives _

/-- Making the operator of a chain comes to `Match.operator?`. -/
theorem chainOperator_gives (options : Options) (hchain : m.chain? = some (cls, keys))
    (s : BuildState) :
    ((chainOperator ⟨src, .expr, m⟩ cls keys).run (produceInner src options)).Gives s
      (m.operator? src) := by
  have hshape : Frame.shape ⟨src, .expr, m⟩ = Shape.of m := rfl
  rw [Match.operator?, hchain, Option.bind_some]
  by_cases hplain : cls = .infixOperator ∧ (Shape.of m).fits ["infix"] ["OPER"] = true
  · simp only [chainOperator, hshape, if_pos hplain]
    exact ownOperator_gives ⟨src, .expr, m⟩ s
  · simp only [chainOperator, hshape, if_neg hplain]
    exact operatorLeaf_gives s

end Rule

/-! ### Chains -/

/-- From state `s` on, the operands come to elements, the last of which are those of the last
operand. Each operand comes to something, and between any two of them stands the operator. -/
inductive Chain (src : Text) (options : Options) (operator : Leaf) (s : BuildState) :
    List Match → List Element → List Element → BuildState → Prop
  /-- The first operand `c`, which comes to some elements `o`. -/
  | first {c : Match} {o : List Element} {t : BuildState}
      (built : (produce src options .expr c).run s = .ok o t) (full : o ≠ []) :
      Chain src options operator s [c] o o t
  /-- One more operand `c`, and the leaf `q` for the operator in front of it. -/
  | join {cs : List Match} {c : Match} {last es o : List Element} {q : Leaf} {t u : BuildState}
      (front : Chain src options operator s cs last es t)
      (built : (produce src options .expr c).run t = .ok o u) (full : o ≠ [])
      (place : operator.HasPlace src (lastEnd 0 last) (firstStart 0 o))
      (joins : operator.Joins src (lastEnd 0 last) (firstStart 0 o) q) :
      Chain src options operator s (cs ++ [c]) o (es ++ .leaf q :: o) u

namespace Chain

variable {operator : Leaf} {cs : List Match} {last es : List Element}

theorem operands_ne_nil (h : Chain src options operator s cs last es t) : cs ≠ [] := by
  cases h with
  | first => exact List.cons_ne_nil _ _
  | join => exact List.append_ne_nil_of_right_ne_nil _ (List.cons_ne_nil _ _)

theorem last_ne_nil (h : Chain src options operator s cs last es t) : last ≠ [] := by
  cases h with
  | first _ full => exact full
  | join _ _ full => exact full

theorem elements_ne_nil (h : Chain src options operator s cs last es t) : es ≠ [] := by
  cases h with
  | first _ full => exact full
  | join => exact List.append_ne_nil_of_right_ne_nil _ (List.cons_ne_nil _ _)

/-- A `Chain` ends where its `last` operand ends. -/
theorem lastEnd_eq (h : Chain src options operator s cs last es t) (d : Int) :
    lastEnd d es = lastEnd 0 last := by
  cases h with
  | first _ full => exact lastEnd_eq_of_ne_nil full d 0
  | join _ _ full =>
      rw [lastEnd_append, lastEnd_cons]
      exact lastEnd_eq_of_ne_nil full _ 0

/-- Of the state it starts in, a `Chain` depends on the ledger only. -/
theorem transfer {s' : BuildState} (h : Chain src options operator s cs last es t)
    (hledger : s.SameLedger s') :
    ∃ t', Chain src options operator s' cs last es t' ∧ t.SameLedger t' := by
  have hkept := fun c => produce_related BuildState.sameLedger_kept src options options .expr c
  induction h with
  | first built full =>
      obtain ⟨t', built', hledger'⟩ := (hkept _).ok hledger built
      exact ⟨t', .first built' full, hledger'⟩
  | join front built full place joins ih =>
      obtain ⟨t', front', hledger'⟩ := ih
      obtain ⟨u', built', hledger''⟩ := (hkept _).ok hledger' built
      exact ⟨u', .join front' built' full place joins, hledger''⟩

end Chain

/-! ### Going through the operands -/

namespace Rule

variable {f : Frame} {operator : Leaf} {es : List Element}

theorem operandOf_run (i : Nat) (c : f.self.Inner) :
    ((operandOf f i (some c)).run (produceInner f.src options)) =
      produce f.src options .expr c.val >>= fun o =>
        (if o.isEmpty then f.refuse ("operand " ++ toString i ++ " is empty")
          else pure o : Plan f (List Element)).run (produceInner f.src options) := rfl

/-- Building an operand by `operandOf` returns exactly if the match comes to something. -/
theorem operandOf_ok_iff {i : Nat} {c : f.self.Inner} {o : List Element} :
    ((operandOf f i (some c)).run (produceInner f.src options)).run s = .ok o t ↔
      (produce f.src options .expr c.val).run s = .ok o t ∧ o ≠ [] := by
  rw [operandOf_run]
  constructor
  · intro h
    obtain ⟨o', t', hbuilt, h⟩ := Build.bind_ok h
    split at h
    · cases h
    · rename_i hfull
      cases h
      exact ⟨hbuilt, fun hempty => hfull (by rw [hempty]; rfl)⟩
  · rintro ⟨hbuilt, hfull⟩
    rw [Build.run_bind_of_ok hbuilt, if_neg (by simpa using hfull)]
    rfl

/-- An operand that comes to nothing is refused by `operandOf`. -/
theorem operandOf_empty {i : Nat} {c : f.self.Inner}
    (h : (produce f.src options .expr c.val).run s = .ok [] t) :
    ∃ note v, ((operandOf f i (some c)).run (produceInner f.src options)).run s =
      .error (.refused (f.refusal f.self (some note) false)) v := by
  rw [operandOf_run, Build.run_bind_of_ok h]
  exact ⟨_, _, rfl⟩

theorem joinOperands_append (i : Nat) (nodes : List Element) (xs ys : List f.self.Inner) :
    joinOperands f cls operator i nodes (xs ++ ys) =
      joinOperands f cls operator i nodes xs >>= fun ns =>
        joinOperands f cls operator (i + xs.length) ns ys := by
  induction xs generalizing i nodes with
  | nil => rfl
  | cons c xs ih =>
      have hlength : i + (c :: xs).length = i + 1 + xs.length := by
        rw [List.length_cons]
        omega
      simp only [List.cons_append, joinOperands, ih, hlength, bind_assoc]
      refine bind_congr fun o => ?_
      split
      · rfl
      · rw [bind_assoc]

/-- Joining one more operand to `nodes`: it is built, and the operator put in front of it. -/
theorem joinOperands_one {i : Nat} (hi : i ≠ 0) (nodes : List Element) (c : f.self.Inner) :
    joinOperands f cls operator i nodes [c] =
      operandOf f i (some c) >>= fun o =>
        placeOperator f cls operator nodes o >>= fun q => pure (nodes ++ .leaf q :: o) := by
  simp only [joinOperands, if_neg hi]

theorem index_ne_zero {cs : List f.self.Inner} (h : cs.map Match.Inner.val ≠ []) :
    0 + cs.length ≠ 0 := by
  have hpos := List.length_pos_iff.mpr h
  rw [List.length_map] at hpos
  omega

/-- Operands that are joined by `joinOperands` make up a `Chain`. -/
theorem joinOperands_ok (hoperator : operator.StandsIn f.src) {cs : List f.self.Inner}
    (hne : cs ≠ [])
    (h : ((joinOperands f operator.cls operator 0 [] cs).run
      (produceInner f.src options)).run s = .ok es t) :
    ∃ last, Chain f.src options operator s (cs.map Match.Inner.val) last es t := by
  induction cs using List.reverseRecOn generalizing es t with
  | nil => exact absurd rfl hne
  | append_singleton cs c ih =>
      rw [joinOperands_append, Plan.run_bind] at h
      obtain ⟨ns, u, hfront, h⟩ := Build.bind_ok h
      by_cases hcs : cs = []
      · subst hcs
        cases hfront
        obtain ⟨o, v, ho, h⟩ := Build.bind_ok (Plan.run_bind .. ▸ h)
        obtain ⟨hbuilt, hfull⟩ := operandOf_ok_iff.mp ho
        cases h
        exact ⟨o, .first hbuilt hfull⟩
      · obtain ⟨last, hchain⟩ := ih hcs hfront
        rw [joinOperands_one (index_ne_zero hchain.operands_ne_nil), Plan.run_bind] at h
        obtain ⟨o, v, ho, h⟩ := Build.bind_ok h
        obtain ⟨hbuilt, hfull⟩ := operandOf_ok_iff.mp ho
        rcases placeOperator_cases f hoperator hchain.elements_ne_nil hfull with
          ⟨hplace, q, hq, hjoins⟩ | ⟨-, note, hq⟩
        · rw [hchain.lastEnd_eq] at hplace hjoins
          rw [hq] at h
          cases h
          rw [List.map_append]
          exact ⟨o, .join hchain hbuilt hfull hplace hjoins⟩
        · rw [hq] at h
          cases h

/-- The operands of a `Chain` are joined by `joinOperands`. -/
theorem joinOperands_of_chain (hoperator : operator.StandsIn f.src) {ms : List Match}
    {last : List Element} (h : Chain f.src options operator s ms last es t)
    {cs : List f.self.Inner} (hcs : cs.map Match.Inner.val = ms) :
    ∃ ns, ((joinOperands f operator.cls operator 0 [] cs).run
        (produceInner f.src options)).run s = .ok ns t ∧
      Chain f.src options operator s ms last ns t := by
  induction h generalizing cs with
  | first built full =>
      obtain ⟨d, rfl, rfl⟩ := List.map_eq_singleton_iff.mp hcs
      refine ⟨_, ?_, .first built full⟩
      rw [joinOperands, Plan.run_bind, Build.run_bind_of_ok (operandOf_ok_iff.mpr ⟨built, full⟩)]
      rfl
  | @join ms c last es o q t u front built full place joins ih =>
      obtain ⟨ds, rest, rfl, hds, hrest⟩ := List.map_eq_append_iff.mp hcs
      obtain ⟨d, rfl, rfl⟩ := List.map_eq_singleton_iff.mp hrest
      obtain ⟨ns, hns, hchain⟩ := ih hds
      have hpos : 0 + ds.length ≠ 0 := index_ne_zero (hds ▸ front.operands_ne_nil)
      rcases placeOperator_cases f hoperator hchain.elements_ne_nil full with
        ⟨-, q', hq, hjoins⟩ | ⟨hnone, -⟩
      · rw [hchain.lastEnd_eq] at hjoins
        refine ⟨_, ?_, .join hchain built full place hjoins⟩
        rw [joinOperands_append, Plan.run_bind, Build.run_bind_of_ok hns, joinOperands_one hpos,
          Plan.run_bind, Build.run_bind_of_ok (operandOf_ok_iff.mpr ⟨built, full⟩), hq]
        rfl
      · rw [hchain.lastEnd_eq] at hnone
        exact absurd place hnone

/-- A `Chain` that has no place for the operator in front of its next operand is refused. -/
theorem joinOperands_refused (hoperator : operator.StandsIn f.src) {front : List Match}
    {last o : List Element} {u : BuildState}
    (hchain : Chain f.src options operator s front last es t) {cs : List f.self.Inner}
    {c : Match} {back : List Match} (hcs : cs.map Match.Inner.val = front ++ c :: back)
    (hbuilt : (produce f.src options .expr c).run t = .ok o u)
    (hnone : ¬ operator.HasPlace f.src (lastEnd 0 last) (firstStart 0 o)) :
    ∃ note v, ((joinOperands f operator.cls operator 0 [] cs).run
      (produceInner f.src options)).run s =
        .error (.refused (f.refusal f.self (some note) false)) v := by
  obtain ⟨ds, rest, rfl, hds, hrest⟩ := List.map_eq_append_iff.mp hcs
  obtain ⟨d, rest, rfl, rfl, -⟩ := List.map_eq_cons_iff.mp hrest
  obtain ⟨ns, hns, hchain⟩ := joinOperands_of_chain hoperator hchain hds
  have hpos : 0 + ds.length ≠ 0 := index_ne_zero (hds ▸ hchain.operands_ne_nil)
  rw [joinOperands_append, Plan.run_bind, Build.run_bind_of_ok hns, joinOperands, Plan.run_bind]
  by_cases hfull : o = []
  · obtain ⟨note, v, hempty⟩ := operandOf_empty (i := 0 + ds.length) (hfull ▸ hbuilt)
    rw [Build.run_bind, hempty]
    exact ⟨note, v, rfl⟩
  · rw [Build.run_bind_of_ok (operandOf_ok_iff.mpr ⟨hbuilt, hfull⟩), if_neg hpos, Plan.run_bind]
    rcases placeOperator_cases f hoperator hchain.elements_ne_nil hfull with
      ⟨hplace, -⟩ | ⟨-, note, hq⟩
    · rw [hchain.lastEnd_eq] at hplace
      exact absurd hplace hnone
    · rw [hq]
      exact ⟨note, _, rfl⟩

/-! ### The whole match -/

theorem endOf_eq {nodes : List Element} (hne : nodes ≠ []) :
    f.endOf nodes = .done (lastEnd 0 nodes) := by
  cases nodes with
  | nil => exact absurd rfl hne
  | cons k ks =>
      rw [lastEnd_cons]
      rfl

/-- What `joinAll` adds to the operands once they are joined: the operator, if it occurs behind
them. -/
theorem joinAll_of_joined (hne : f.self.operands ≠ []) {nodes : List Element}
    (hnodes : nodes ≠ [])
    (h : ((joinOperands f cls operator 0 [] f.self.innerOperands).run
      (produceInner f.src options)).run s = .ok nodes t) :
    ((joinAll f cls operator).run (produceInner f.src options)).run s =
      .ok (nodes ++ (((Text.find? f.src operator.content (lastEnd 0 nodes) f.self.stop).map fun i =>
        Leaf.found cls i operator.content f.origin).map Element.leaf).toList) t := by
  rw [joinAll, if_neg (by simpa using hne), Plan.run_bind, Build.run_bind_of_ok h, endOf_eq hnodes]
  simp only [Frame.find?, Token.find?, Option.map_map]
  rfl

theorem joinAll_ok (hoperator : operator.StandsIn f.src) (hstop : 0 ≤ f.self.stop)
    (h : ((joinAll f operator.cls operator).run (produceInner f.src options)).run s =
      .ok es t) :
    ∃ last nodes trailing, Chain f.src options operator s f.self.operands last nodes t ∧
      operator.Trails f.src (lastEnd 0 last) f.self.stop trailing ∧
      es = nodes ++ (trailing.map Element.leaf).toList := by
  have hne : f.self.operands ≠ [] := by
    intro hempty
    rw [joinAll, hempty] at h
    cases h
  have hcs : f.self.innerOperands ≠ [] := by
    intro hempty
    rw [← Match.map_val_innerOperands, hempty] at hne
    exact hne rfl
  have hjoin := h
  rw [joinAll, if_neg (by simpa using hne), Plan.run_bind] at hjoin
  obtain ⟨nodes, u, hjoined, -⟩ := Build.bind_ok hjoin
  obtain ⟨last, hchain⟩ := joinOperands_ok hoperator hcs hjoined
  rw [joinAll_of_joined hne hchain.elements_ne_nil hjoined, hchain.lastEnd_eq] at h
  cases h
  rw [Match.map_val_innerOperands] at hchain
  have hlast := lastEnd_nonneg_of_ne_nil hchain.last_ne_nil 0
  exact ⟨last, nodes, _, hchain, Leaf.found_trails hlast hstop, rfl⟩

/-- Building an infix chain `m`: its operator first, then its operands. -/
theorem expr_run (hchain : m.chain? = some (cls, keys)) (s : BuildState) :
    (produce src options .expr m).run s =
      Build.left ((((chainOperator ⟨src, .expr, m⟩ cls keys).run
          (produceInner src options)) >>= fun operator =>
        (joinAll ⟨src, .expr, m⟩ cls operator).run (produceInner src options)).run
          (s.entered options .expr m)) := by
  have hrule : Production.expr.rule ⟨src, .expr, m⟩ =
      chainOperator ⟨src, .expr, m⟩ cls keys >>= joinAll ⟨src, .expr, m⟩ cls :=
    (expr_eq_infixChain ⟨src, .expr, m⟩ hchain).trans (infixChain_eq _)
  rw [produce_run, hrule, Plan.run_bind]

/-- Once the operator is made, by `operator?`, the operands are joined from a state with the same
ledger. -/
theorem expr_run_of_operator (options : Options) {operator : Leaf}
    (hchain : m.chain? = some (cls, keys)) (h : m.operator? src = some operator) (s : BuildState) :
    ∃ t, s.SameLedger t ∧ (produce src options .expr m).run s =
      Build.left (((joinAll ⟨src, .expr, m⟩ operator.cls operator).run
        (produceInner src options)).run t) := by
  obtain ⟨t, ht, hledger⟩ :=
    (chainOperator_gives options hchain (s.entered options .expr m)).ok operator h
  obtain ⟨hcls, -⟩ := Match.operator?_eq_some hchain h
  refine ⟨t, (s.entered_ledger options .expr m).symm.trans hledger, ?_⟩
  rw [expr_run hchain, Build.run_bind_of_ok ht, hcls]

end Rule

/-- **Infix chains interleave without loss.** Let an expression be an infix chain whose match does
not end below zero.

* If it is built, the elements are those of its operands in order, with one leaf for the operator
  between any two of them; one more stands at the end exactly if the text of the operator occurs
  behind the last operand.
* It is built if the operator and the operands can be built, with a place for the operator in every
  gap.
* It is refused if there is no place in the gap before an operand, the first ones all being built and
  joined.
* An operator that has text has a place exactly where its text occurs. -/
theorem infix_chain_interleaves (src : Text) (options : Options) {m : Match}
    (hchain : m.chain? ≠ none) (hstop : 0 ≤ m.stop) (s : BuildState) :
    (∀ es t, (produce src options .expr m).run s = .ok es t →
      ∃ operator last nodes trailing u, m.operator? src = some operator ∧
        Chain src options operator s m.operands last nodes u ∧ u.SameLedger t ∧
        operator.Trails src (lastEnd 0 last) m.stop trailing ∧
        es = nodes ++ (trailing.map Element.leaf).toList) ∧
    (∀ operator last nodes u, m.operator? src = some operator →
      Chain src options operator s m.operands last nodes u →
      ∃ es t, (produce src options .expr m).run s = .ok es t) ∧
    (∀ operator front c back last nodes t o u, m.operator? src = some operator →
      m.operands = front ++ c :: back → Chain src options operator s front last nodes t →
      (produce src options .expr c).run t = .ok o u →
      ¬ operator.HasPlace src (lastEnd 0 last) (firstStart 0 o) →
      ∃ r v, (produce src options .expr m).run s = .error (.refused r) v ∧ r.hereDoc = false) ∧
    (∀ operator, m.operator? src = some operator → operator.content ≠ [] →
      ∀ a b, operator.HasPlace src a b ↔ Text.OccursIn src operator.content a b) := by
  obtain ⟨⟨cls, keys⟩, hform⟩ := Option.ne_none_iff_exists'.mp hchain
  refine ⟨fun es t hrun => ?_, ?_, ?_, ?_⟩
  · rw [Rule.expr_run hform] at hrun
    obtain ⟨u, hrun, hleave⟩ := Build.left_ok hrun
    obtain ⟨operator, s', hmade, hrun⟩ := Build.bind_ok hrun
    obtain ⟨hoperator, hledger⟩ := (Rule.chainOperator_gives options hform _).eq_some hmade
    obtain ⟨rfl, hstands⟩ := Match.operator?_eq_some hform hoperator
    obtain ⟨last, nodes, trailing, hjoined, htrails, hes⟩ := Rule.joinAll_ok hstands hstop hrun
    have hback : s'.SameLedger s := hledger.symm.trans (s.entered_ledger options .expr m)
    obtain ⟨v, hjoined, hledger'⟩ := hjoined.transfer hback
    exact ⟨operator, last, nodes, trailing, v, hoperator, hjoined, hledger'.symm.trans hleave,
      htrails, hes⟩
  · intro operator last nodes u hoperator hjoined
    obtain ⟨-, hstands⟩ := Match.operator?_eq_some hform hoperator
    obtain ⟨t, hledger, hrun⟩ := Rule.expr_run_of_operator options hform hoperator s
    obtain ⟨v, hjoined, -⟩ := hjoined.transfer hledger
    obtain ⟨ns, hns, hjoined⟩ := Rule.joinOperands_of_chain (f := ⟨src, .expr, m⟩) hstands
      hjoined (Match.map_val_innerOperands m)
    rw [hrun, Rule.joinAll_of_joined hjoined.operands_ne_nil hjoined.elements_ne_nil hns]
    exact ⟨_, _, rfl⟩
  · intro operator front c back last nodes t o u hoperator hsplit hjoined hbuilt hnone
    obtain ⟨-, hstands⟩ := Match.operator?_eq_some hform hoperator
    obtain ⟨s', hledger, hrun⟩ := Rule.expr_run_of_operator options hform hoperator s
    obtain ⟨t', hjoined, hledger'⟩ := hjoined.transfer hledger
    obtain ⟨u', hbuilt, -⟩ := (produce_related BuildState.sameLedger_kept src options options .expr
      c).ok hledger' hbuilt
    obtain ⟨note, v, hrefused⟩ := Rule.joinOperands_refused (f := ⟨src, .expr, m⟩) hstands
      hjoined ((Match.map_val_innerOperands m).trans hsplit) hbuilt hnone
    have hne : m.operands ≠ [] := by simp [hsplit]
    rw [hrun, Rule.joinAll, if_neg (by simpa using hne), Plan.run_bind, Build.run_bind, hrefused]
    exact ⟨_, _, rfl, rfl⟩
  · intro operator hoperator hne a b
    exact (Match.operator?_eq_some hform hoperator).2.hasPlace_iff hne

/-- The elements that a build came to; none if it is an `error`. -/
def Build.elementsOf : EStateM.Result Fault BuildState (List Element) → List Element
  | .ok es _ => es
  | .error _ _ => []

namespace Match

/-- A word of one character, at offset `i`. -/
def sampleWord (i : Int) : Match := Sketch.span i (i + 1) [("sym", .one (.plain i (i + 1)))] []

/-- A `sampleWord` comes to a leaf. -/
theorem sampleWord_gives (src : Text) (i : Int) (s : BuildState) :
    (produce src {} .expr (sampleWord i)).Gives s
      ((Leaf.trimmed .bareword src i (i + 1) (some "EXPR") {}).toOption.map fun l => [.leaf l]) := by
  have hshape : Frame.shape ⟨src, .expr, sampleWord i⟩ = ⟨["sym"], []⟩ :=
    Frame.shape_one rfl (by decide) (isWide_of_lt (Int.lt_succ i) [] [])
  have hrule : Production.expr.rule ⟨src, .expr, sampleWord i⟩ =
      Frame.trimmedKey ⟨src, .expr, sampleWord i⟩ .bareword "sym" := by
    simp [Production.rule, Rule.expr, Rule.hyperPostfix, Rule.term, Rule.terms, Frame.buildOnly,
      hshape, Shape.fits, Shape.has, Shape.is, Production.key]
  apply produce_gives
  rw [hrule]
  exact Frame.trimmed_gives _ _ (.plain i (i + 1)) _

/-- Words joined by an operator that was captured at `i`. -/
def sampleJoined (stop i : Int) (words : List Match) : Match :=
  Sketch.span 0 stop [("infix", .one (.plain i (i + 1)))] words

/-- `a,b,c,` with the second comma captured. -/
def sampleList : Match := sampleJoined 6 3 [sampleWord 0, sampleWord 2, sampleWord 4]

/-- `a b+` with an operator that stands behind both words. -/
def sampleApart : Match := sampleJoined 4 3 [sampleWord 0, sampleWord 2]

/-- The match `sampleList` comes to its words with a comma behind each, and words with no operator
between them are refused. -/
theorem sampleList_interleaves :
    (∃ es t operator last nodes trailing u,
      (produce "a,b,c,".toList {} .expr sampleList).run {} = .ok es t ∧ operator.content = [','] ∧
      Chain "a,b,c,".toList {} operator {} sampleList.operands last nodes u ∧
      operator.Trails "a,b,c,".toList (lastEnd 0 last) 6 trailing ∧
      es = nodes ++ (trailing.map Element.leaf).toList ∧
      es.map (fun e => (e.start, e.text?)) =
        [(0, some ['a']), (1, some [',']), (2, some ['b']), (3, some [',']), (4, some ['c']),
          (5, some [','])]) ∧
    ∃ r v, (produce "a b+".toList {} .expr sampleApart).run {} = .error (.refused r) v := by
  refine ⟨?_, ?_⟩
  · obtain ⟨hbuilt, -⟩ := infix_chain_interleaves "a,b,c,".toList {} (m := sampleList) (by decide)
      (by decide) {}
    have helements : (Build.elementsOf ((produce "a,b,c,".toList {} .expr sampleList).run {})).map
          (fun e => (e.start, e.text?)) =
        [(0, some ['a']), (1, some [',']), (2, some ['b']), (3, some [',']), (4, some ['c']),
          (5, some [','])] := by
      decide +kernel
    obtain ⟨es, t, hrun⟩ := Document.exists_of_returned
      (x := produce "a,b,c,".toList {} .expr sampleList) (s := {}) (by decide +kernel)
    rw [hrun] at helements
    obtain ⟨operator, last, nodes, trailing, u, hoperator, hchain, -, htrails, hes⟩ :=
      hbuilt es t hrun
    cases hoperator
    exact ⟨es, t, _, last, nodes, trailing, u, hrun, rfl, hchain, htrails, hes, helements⟩
  · obtain ⟨-, -, hrefused, -⟩ := infix_chain_interleaves "a b+".toList {} (m := sampleApart)
      (by decide) (by decide) {}
    obtain ⟨t, hfirst, -⟩ := (sampleWord_gives "a b+".toList 0 {}).ok
      [.leaf (Leaf.found .bareword 0 ['a'] (some "EXPR"))] rfl
    obtain ⟨u, hsecond, -⟩ := (sampleWord_gives "a b+".toList 2 t).ok
      [.leaf (Leaf.found .bareword 2 ['b'] (some "EXPR"))] rfl
    -- the captured operator ends at 4, and the only character of the gap is a blank
    have hnone : ¬ (Leaf.found .infixOperator 3 ['+'] (some "infix")).HasPlace "a b+".toList 1 2 := by
      rintro (⟨-, hstop⟩ | ⟨i, hstart, hstop, -, hstands⟩)
      · exact absurd hstop (by decide)
      · obtain rfl : i = 1 := by
          have hlength : (Leaf.found .infixOperator 3 ['+'] (some "infix")).content.length = 1 := rfl
          omega
        exact absurd hstands (by decide)
    obtain ⟨r, v, hrun, -⟩ := hrefused (Leaf.found .infixOperator 3 ['+'] (some "infix"))
      [sampleWord 0] (sampleWord 2) [] _ _ t _ u rfl rfl (.first hfirst (List.cons_ne_nil _ _)) hsecond
      hnone
    exact ⟨r, v, hrun⟩

/-- Two words and an operator that are captured behind the end of the empty source, as
`sampleJoined`. -/
def sampleBeyond : Match := sampleJoined 4 2 [sampleWord 1, sampleWord 3]

/-- Both words are built, and the empty text of the operator occurs nowhere between them, since
the source ends before. All the same the captured operator is put there. If the empty text
were taken to occur behind the source, then also behind the second word; but no fourth
element stands there. -/
theorem sampleBeyond_joined :
    sampleBeyond.chain? ≠ none ∧ 0 ≤ sampleBeyond.stop ∧
    ∃ operator last t o u es v, sampleBeyond.operator? [] = some operator ∧
      sampleBeyond.operands = [sampleWord 1, sampleWord 3] ∧
      Chain [] {} operator {} [sampleWord 1] last last t ∧
      (produce [] {} .expr (sampleWord 3)).run t = .ok o u ∧
      ¬ Text.OccursIn [] operator.content (lastEnd 0 last) (firstStart 0 o) ∧
      (produce [] {} .expr sampleBeyond).run {} = .ok es v ∧ es.length = 3 := by
  obtain ⟨t, hfirst, -⟩ := (sampleWord_gives [] 1 {}).ok
    [.leaf (Leaf.found .bareword 1 [] (some "EXPR"))] rfl
  obtain ⟨u, hsecond, -⟩ := (sampleWord_gives [] 3 t).ok
    [.leaf (Leaf.found .bareword 3 [] (some "EXPR"))] rfl
  have hlength : (Build.elementsOf ((produce [] {} .expr sampleBeyond).run {})).length = 3 := by
    decide +kernel
  obtain ⟨es, v, hrun⟩ := Document.exists_of_returned (x := produce [] {} .expr sampleBeyond)
    (s := {}) (by decide +kernel)
  rw [hrun] at hlength
  refine ⟨by decide, by decide, Leaf.found .infixOperator 2 [] (some "infix"), _, t, _, u, es, v,
    rfl, rfl, .first hfirst (List.cons_ne_nil _ _), hsecond, ?_, hrun, hlength⟩
  rintro ⟨i, hstart, -, hsrc, -⟩
  have hone : (1 : Int) ≤ i := hstart
  rw [List.length_nil] at hsrc
  omega

end Match

end RakuTree
