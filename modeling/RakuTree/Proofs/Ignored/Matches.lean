import RakuTree.Match.Shape
import Mathlib.Data.List.Forall2
import Mathlib.Data.List.Nodup
import Mathlib.Data.List.Perm.Basic
import Mathlib.Data.String.Basic
import Mathlib.Logic.Relation

/-!
# RakuTree.Proofs.Ignored.Matches

What there is in a match that says nothing.

The order in which the captures of a match were made is an accident of the parser, and the
capture `O` is precedence data that the parser keeps for itself. `Match.Rewrite` changes either
of the two somewhere in a match. `Match.canonical` puts all names in order and drops `O`
throughout, so matches that can be rewritten into one another have the same canonical form
(`Match.SaysSame.canonical_eq`), while everything that can be asked of a match is still there to be
asked of its canonical form.
-/

namespace RakuTree

/-! ### Changes that say nothing -/

/-- One change, at some depth of a match, that says nothing (`SaysSame`). -/
inductive Match.Rewrite : Match → Match → Prop
  /-- The capture `O` is dropped. -/
  | erase {start stop : Int} {front back : List (String × Capture)} {c : Capture}
      {operands : List Match} {rule : Option String} :
      Rewrite (.node start stop (front ++ ("O", c) :: back) operands rule)
        (.node start stop (front ++ back) operands rule)
  /-- Captures, all of different names, come in another order: `named` becomes `named'`. -/
  | permute {start stop : Int} {named named' : List (String × Capture)} {operands : List Match}
      {rule : Option String} (h : named.Perm named') (hnodup : (named.map Prod.fst).Nodup) :
      Rewrite (.node start stop named operands rule) (.node start stop named' operands rule)
  /-- The match `m` captured under `key` changes inside. -/
  | one {start stop : Int} {front back : List (String × Capture)} {key : String} {m m' : Match}
      {operands : List Match} {rule : Option String} (h : Rewrite m m') :
      Rewrite (.node start stop (front ++ (key, .one m) :: back) operands rule)
        (.node start stop (front ++ (key, .one m') :: back) operands rule)
  /-- One of several matches under `key` changes inside. -/
  | many {start stop : Int} {front back : List (String × Capture)} {key : String}
      {before behind : List Match} {m m' : Match} {operands : List Match} {rule : Option String}
      (h : Rewrite m m') :
      Rewrite
        (.node start stop (front ++ (key, .many (before ++ m :: behind)) :: back) operands rule)
        (.node start stop (front ++ (key, .many (before ++ m' :: behind)) :: back) operands rule)
  /-- The operand `m` changes inside. -/
  | operand {start stop : Int} {named : List (String × Capture)} {before behind : List Match}
      {m m' : Match} {rule : Option String} (h : Rewrite m m') :
      Rewrite (.node start stop named (before ++ m :: behind) rule)
        (.node start stop named (before ++ m' :: behind) rule)

/-! ### Names in order -/

namespace Capture

/-- The list with `p` put before the first capture whose name is not smaller. -/
def insertNamed (p : String × Capture) : List (String × Capture) → List (String × Capture)
  | [] => [p]
  | q :: qs => if p.1 ≤ q.1 then p :: q :: qs else q :: insertNamed p qs

/-- Named captures sorted by name, without those that are in `Shape.ignored`. -/
def tidy (named : List (String × Capture)) : List (String × Capture) :=
  (named.filter fun p => !Shape.ignored.contains p.1).foldr insertNamed []

theorem insertNamed_perm (p : String × Capture) (named : List (String × Capture)) :
    (insertNamed p named).Perm (p :: named) := by
  induction named with
  | nil => exact .refl _
  | cons q qs ih =>
      rw [insertNamed]
      split
      · exact .refl _
      · exact (ih.cons q).trans (.swap p q qs)

theorem tidy_perm (named : List (String × Capture)) :
    (tidy named).Perm (named.filter fun p => !Shape.ignored.contains p.1) := by
  unfold tidy
  induction named.filter fun p => !Shape.ignored.contains p.1 with
  | nil => exact .refl _
  | cons p ps ih => exact (insertNamed_perm p _).trans (ih.cons p)

/-- Putting in two captures of different names by `insertNamed`, the order makes no difference. -/
theorem insertNamed_comm {p q : String × Capture} (h : p.1 ≠ q.1)
    (named : List (String × Capture)) :
    insertNamed p (insertNamed q named) = insertNamed q (insertNamed p named) := by
  induction named with
  | nil =>
      rcases lt_or_gt_of_ne h with hlt | hgt
      · simp [insertNamed, hlt.le, hlt.not_ge]
      · simp [insertNamed, hgt.le, hgt.not_ge]
  | cons r rs ih =>
      by_cases hp : p.1 ≤ r.1
      · by_cases hq : q.1 ≤ r.1
        · rcases lt_or_gt_of_ne h with hlt | hgt
          · simp [insertNamed, hp, hq, hlt.le, hlt.not_ge]
          · simp [insertNamed, hp, hq, hgt.le, hgt.not_ge]
        · have hqp : ¬q.1 ≤ p.1 := fun hle => hq (hle.trans hp)
          simp [insertNamed, hp, hq, hqp]
      · by_cases hq : q.1 ≤ r.1
        · have hpq : ¬p.1 ≤ q.1 := fun hle => hp (hle.trans hq)
          simp [insertNamed, hp, hq, hpq]
        · simp [insertNamed, hp, hq, ih]

theorem tidy_eq_of_perm {named named' : List (String × Capture)} (h : named.Perm named')
    (hnodup : (named.map Prod.fst).Nodup) : tidy named = tidy named' := by
  unfold tidy
  refine List.Perm.foldr_eq' (h.filter _) (fun p hp q hq rest => ?_) []
  by_cases hpq : p.1 = q.1
  · rw [List.inj_on_of_nodup_map hnodup (List.mem_of_mem_filter hp) (List.mem_of_mem_filter hq) hpq]
  · exact insertNamed_comm (fun heq => hpq heq.symm) rest

theorem lookup_cons_eq (key : String) (p : String × Capture) (named : List (String × Capture)) :
    (p :: named).lookup key = if key = p.1 then some p.2 else named.lookup key := by
  rw [List.lookup_cons]
  by_cases h : key = p.1
  · simp [h]
  · have hne : (key == p.1) = false := beq_eq_false_iff_ne.mpr h
    rw [hne, if_neg h]

theorem lookup_insertNamed (key : String) (p : String × Capture)
    (named : List (String × Capture)) :
    (insertNamed p named).lookup key = if key = p.1 then some p.2 else named.lookup key := by
  induction named with
  | nil => exact lookup_cons_eq key p []
  | cons q qs ih =>
      rw [insertNamed]
      by_cases hp : p.1 ≤ q.1
      · rw [if_pos hp, lookup_cons_eq]
      · rw [if_neg hp, lookup_cons_eq, lookup_cons_eq, ih]
        by_cases hq : key = q.1
        · have hne : key ≠ p.1 := fun heq => hp (heq.symm.trans hq).le
          rw [if_pos hq, if_neg hne, if_pos hq]
        · rw [if_neg hq, if_neg hq]

/-- A name that is not in `Shape.ignored` finds the same capture when captures are tidied. -/
theorem lookup_tidy {key : String} (hkey : key ∉ Shape.ignored)
    (named : List (String × Capture)) : (tidy named).lookup key = named.lookup key := by
  unfold tidy
  induction named with
  | nil => rfl
  | cons p ps ih =>
      rw [lookup_cons_eq]
      by_cases hp : p.1 ∈ Shape.ignored
      · have hne : key ≠ p.1 := fun heq => hkey (heq ▸ hp)
        rw [List.filter_cons_of_neg (by simpa using hp), ih, if_neg hne]
      · rw [List.filter_cons_of_pos (by simpa using hp), List.foldr_cons, lookup_insertNamed, ih]

end Capture

/-! ### The canonical form -/

mutual

/-- The match with all names in order and nothing that is in `Shape.ignored`. -/
def Match.canonical : Match → Match
  | .node start stop named operands rule =>
    .node start stop (Capture.tidy (Match.canonicalNamed named)) (Match.canonicalList operands) rule

/-- The `Match.canonical` form of what a name holds. -/
def Capture.canonical : Capture → Capture
  | .absent => .absent
  | .one m => .one m.canonical
  | .many ms => .many (Match.canonicalList ms)

/-- Named captures, each in `canonical` form; they are not sorted yet. -/
def Match.canonicalNamed : List (String × Capture) → List (String × Capture)
  | [] => []
  | (key, c) :: named => (key, c.canonical) :: Match.canonicalNamed named

/-- Matches, each in `canonical` form. -/
def Match.canonicalList : List Match → List Match
  | [] => []
  | m :: ms => m.canonical :: Match.canonicalList ms

end

namespace Match

theorem canonicalNamed_eq (named : List (String × Capture)) :
    canonicalNamed named = named.map fun p => (p.1, p.2.canonical) := by
  induction named with
  | nil => rw [canonicalNamed, List.map_nil]
  | cons p ps ih => rw [canonicalNamed, ih, List.map_cons]

theorem canonicalList_eq (ms : List Match) : canonicalList ms = ms.map canonical := by
  induction ms with
  | nil => rw [canonicalList, List.map_nil]
  | cons m ms ih => rw [canonicalList, ih, List.map_cons]

theorem canonical_node (start stop : Int) (named : List (String × Capture))
    (operands : List Match) (rule : Option String) :
    (node start stop named operands rule).canonical =
      node start stop (Capture.tidy (named.map fun p => (p.1, p.2.canonical)))
        (operands.map canonical) rule := by
  rw [canonical, canonicalNamed_eq, canonicalList_eq]

end Match

namespace Capture

theorem toList_canonical (c : Capture) : c.canonical.toList = c.toList.map Match.canonical := by
  cases c with
  | absent => simp [canonical, toList]
  | one m => simp [canonical, toList]
  | many ms => simp [canonical, toList, Match.canonicalList_eq]

end Capture

namespace Match

variable (m : Match)

@[simp] theorem start_canonical : m.canonical.start = m.start := by
  cases m
  rw [canonical_node]
  rfl

@[simp] theorem stop_canonical : m.canonical.stop = m.stop := by
  cases m
  rw [canonical_node]
  rfl

@[simp] theorem text_canonical (src : Text) : m.canonical.text src = m.text src := by
  rw [text, start_canonical, stop_canonical, text]

@[simp] theorem isWide_canonical : m.canonical.isWide = m.isWide := by
  rw [isWide, start_canonical, stop_canonical, isWide]

@[simp] theorem operands_canonical : m.canonical.operands = m.operands.map canonical := by
  cases m
  rw [canonical_node]
  rfl

theorem named_canonical :
    m.canonical.named = Capture.tidy (m.named.map fun p => (p.1, p.2.canonical)) := by
  cases m
  rw [canonical_node]
  rfl

/-- What is captured under a `key` that is not ignored is `canonical`. -/
theorem captures_canonical {key : String} (hkey : key ∉ Shape.ignored) :
    m.canonical.captures key = (m.captures key).map canonical := by
  have hmap : ∀ named : List (String × Capture),
      (named.map fun p => (p.1, p.2.canonical)).lookup key =
        (named.lookup key).map Capture.canonical := by
    intro named
    induction named with
    | nil => rfl
    | cons p ps ih =>
        rw [List.map_cons, Capture.lookup_cons_eq, Capture.lookup_cons_eq, ih]
        by_cases h : key = p.1
        · rw [if_pos h, if_pos h, Option.map_some]
        · rw [if_neg h, if_neg h]
  rw [captures, named_canonical, Capture.lookup_tidy hkey, hmap, captures]
  cases m.named.lookup key with
  | none => rfl
  | some c => exact c.toList_canonical

theorem hasContent_canonical (c : Capture) : c.canonical.hasContent = c.hasContent := by
  cases c with
  | absent => simp [Capture.canonical]
  | one m => simp [Capture.canonical, Capture.hasContent]
  | many ms => simp [Capture.canonical, Capture.hasContent, canonicalList_eq]

end Match

namespace Shape

theorem insertSorted_comm (j k : String) (ks : List String) :
    insertSorted j (insertSorted k ks) = insertSorted k (insertSorted j ks) := by
  rcases lt_trichotomy j k with hlt | rfl | hgt
  · induction ks with
    | nil => simp [insertSorted, hlt.le, hlt.not_ge]
    | cons l ls ih =>
        by_cases hk : k ≤ l
        · simp [insertSorted, hk, hlt.le.trans hk, hlt.le, hlt.not_ge]
        · by_cases hj : j ≤ l
          · simp [insertSorted, hj, hk, hlt.not_ge]
          · simp [insertSorted, hj, hk, ih]
  · rfl
  · induction ks with
    | nil => simp [insertSorted, hgt.le, hgt.not_ge]
    | cons l ls ih =>
        by_cases hj : j ≤ l
        · simp [insertSorted, hj, hgt.le.trans hj, hgt.le, hgt.not_ge]
        · by_cases hk : k ≤ l
          · simp [insertSorted, hj, hk, hgt.not_ge]
          · simp [insertSorted, hj, hk, ih]

/-- Sorting by `sorted` forgets the order. -/
theorem sorted_eq_of_perm {ks ls : List String} (h : ks.Perm ls) : sorted ks = sorted ls := by
  induction h with
  | nil => rfl
  | cons k _ ih => rw [sorted, sorted, ih]
  | swap j k ks => rw [sorted, sorted, sorted, sorted, insertSorted_comm]
  | trans _ _ ih ih' => rw [ih, ih']

/-- The shape of a match is that of its `canonical` form. -/
@[simp] theorem of_canonical (m : Match) : Shape.of m.canonical = Shape.of m := by
  have hkeys : ∀ keep : Capture → Bool, (∀ c : Capture, keep c.canonical = keep c) →
      sorted (((m.canonical.named.filter fun p => !ignored.contains p.1).filter
        fun p => keep p.2).map Prod.fst) =
      sorted (((m.named.filter fun p => !ignored.contains p.1).filter
        fun p => keep p.2).map Prod.fst) := by
    intro keep hkeep
    rw [Match.named_canonical]
    refine (sorted_eq_of_perm ((((Capture.tidy_perm _).filter _).filter _).map _)).trans ?_
    simp [List.filter_map, Function.comp_def, hkeep]
  unfold Shape.of
  simp only [hkeys Capture.hasContent Match.hasContent_canonical,
    hkeys (fun c => !c.hasContent) fun c => by rw [Match.hasContent_canonical]]

end Shape

/-! ### Inner matches -/

namespace Match

variable (m : Match)

theorem capture?_canonical {key : String} (hkey : key ∉ Shape.ignored) :
    m.canonical.capture? key = (m.capture? key).map canonical := by
  rw [capture?, captures_canonical m hkey, List.head?_map, capture?]

theorem textOf_canonical (src : Text) {key : String} (hkey : key ∉ Shape.ignored) :
    m.canonical.textOf src key = m.textOf src key := by
  rw [textOf, capture?_canonical m hkey, textOf]
  cases m.capture? key with
  | none => rfl
  | some c => simp

/-- The inner match `d` is the canonical form of `c`. -/
abbrev Inner.IsCanonical {m n : Match} (d : n.Inner) (c : m.Inner) : Prop :=
  d.val = c.val.canonical

theorem forall₂_isCanonical {n : Match} {ds : List n.Inner} {cs : List m.Inner}
    (h : ds.map Inner.val = (cs.map Inner.val).map canonical) :
    List.Forall₂ Inner.IsCanonical ds cs := by
  rw [List.map_map, ← List.forall₂_eq_eq_eq, List.forall₂_map_left_iff,
    List.forall₂_map_right_iff] at h
  exact h

theorem rel_cases {α β : Type} {R : α → β → Prop} {a? : Option α} {b? : Option β}
    (h : Option.Rel R a? b?) :
    (a? = none ∧ b? = none) ∨ ∃ a b, a? = some a ∧ b? = some b ∧ R a b := by
  cases h with
  | some h => exact .inr ⟨_, _, rfl, rfl, h⟩
  | none => exact .inl ⟨rfl, rfl⟩

/-- Of two inner matches at place `i`, both are there or none is. -/
theorem rel_getElem? {m n : Match} {ds : List n.Inner} {cs : List m.Inner}
    (h : List.Forall₂ Inner.IsCanonical ds cs) (i : Nat) :
    Option.Rel Inner.IsCanonical ds[i]? cs[i]? := by
  induction h generalizing i with
  | nil => exact .none
  | cons hc _ ih =>
      cases i with
      | zero => exact .some hc
      | succ i => exact ih i

theorem inners_canonical {key : String} (hkey : key ∉ Shape.ignored) :
    List.Forall₂ Inner.IsCanonical (m.canonical.inners key) (m.inners key) := by
  apply forall₂_isCanonical
  rw [map_val_inners, map_val_inners, captures_canonical m hkey]

theorem innerOperands_canonical :
    List.Forall₂ Inner.IsCanonical m.canonical.innerOperands m.innerOperands := by
  apply forall₂_isCanonical
  rw [map_val_innerOperands, map_val_innerOperands, operands_canonical]

theorem inner?_canonical {key : String} (hkey : key ∉ Shape.ignored) :
    Option.Rel Inner.IsCanonical (m.canonical.inner? key) (m.inner? key) := by
  rw [inner?, inner?, List.head?_eq_getElem?, List.head?_eq_getElem?]
  exact rel_getElem? (m.inners_canonical hkey) 0

theorem Inner.inner?_canonical {m n : Match} {d : n.Inner} {c : m.Inner} (h : d.IsCanonical c)
    {key : String} (hkey : key ∉ Shape.ignored) :
    Option.Rel Inner.IsCanonical (d.inner? key) (c.inner? key) := by
  obtain ⟨d, hd⟩ := d
  cases h
  unfold Inner.inner?
  rcases rel_cases (c.val.inner?_canonical hkey) with ⟨hd, hc⟩ | ⟨d, c, hd, hc, h⟩
  · rw [hd, hc]
    exact .none
  · rw [hd, hc]
    exact .some h

/-- A labelled inner match is the canonical form of another with the same `label`. -/
inductive IsCanonicalPart {κ : Type} {m n : Match} : κ × n.Inner → κ × m.Inner → Prop
  | mk (label : κ) {d : n.Inner} {c : m.Inner} (h : d.IsCanonical c) :
      IsCanonicalPart (label, d) (label, c)

section SourceOrder

variable {κ : Type} {m : Match} {n : Match}

theorem insertByStart_canonical {d : κ × n.Inner} {c : κ × m.Inner} (h : IsCanonicalPart d c)
    {ds : List (κ × n.Inner)} {cs : List (κ × m.Inner)} (hs : List.Forall₂ IsCanonicalPart ds cs) :
    List.Forall₂ IsCanonicalPart (insertByStart d ds) (insertByStart c cs) := by
  have hstart : ∀ {d : κ × n.Inner} {c : κ × m.Inner}, IsCanonicalPart d c →
      d.2.val.start = c.2.val.start := by
    intro d c h
    obtain ⟨label, h⟩ := h
    rw [h, start_canonical]
  induction hs with
  | nil => exact .cons h .nil
  | cons h' hs ih =>
      rw [insertByStart, insertByStart, hstart h, hstart h']
      split
      · exact .cons h (.cons h' hs)
      · exact .cons h' ih

theorem sortByStart_canonical {ds : List (κ × n.Inner)} {cs : List (κ × m.Inner)}
    (hs : List.Forall₂ IsCanonicalPart ds cs) :
    List.Forall₂ IsCanonicalPart (sortByStart ds) (sortByStart cs) := by
  induction hs with
  | nil => exact .nil
  | cons h _ ih => exact insertByStart_canonical h ih

end SourceOrder

theorem inSourceOrder_canonical {κ : Type} {nameOf : κ → String} {keys : List κ}
    (hkeys : ∀ key ∈ keys, nameOf key ∉ Shape.ignored) :
    List.Forall₂ IsCanonicalPart (m.canonical.inSourceOrder nameOf keys)
      (m.inSourceOrder nameOf keys) := by
  apply sortByStart_canonical
  induction keys with
  | nil => exact .nil
  | cons key keys ih =>
      rw [List.forall_mem_cons] at hkeys
      rw [List.flatMap_cons, List.flatMap_cons]
      refine List.rel_append ?_ (ih hkeys.2)
      rw [List.forall₂_map_left_iff, List.forall₂_map_right_iff]
      exact (m.inners_canonical hkeys.1).imp fun _ _ h => .mk key h

end Match

/-! ### Rewriting keeps the canonical form -/

theorem Match.Rewrite.canonical_eq {m n : Match} (h : m.Rewrite n) :
    m.canonical = n.canonical := by
  induction h with
  | erase =>
      rw [Match.canonical_node, Match.canonical_node]
      simp [Capture.tidy, Shape.ignored]
  | @permute _ _ named _ _ _ h hnodup =>
      have hnodup' : ((named.map fun p => (p.1, p.2.canonical)).map Prod.fst).Nodup := by
        rw [List.map_map]
        exact hnodup
      rw [Match.canonical_node, Match.canonical_node, Capture.tidy_eq_of_perm (h.map _) hnodup']
  | one _ ih =>
      rw [Match.canonical_node, Match.canonical_node]
      simp only [List.map_append, List.map_cons, Capture.canonical, ih]
  | many _ ih =>
      rw [Match.canonical_node, Match.canonical_node]
      simp only [List.map_append, List.map_cons, Capture.canonical, Match.canonicalList_eq, ih]
  | operand _ ih =>
      rw [Match.canonical_node, Match.canonical_node]
      simp only [List.map_append, List.map_cons, ih]

/-- Two matches say the same: they can be rewritten into one another by `Rewrite`, back and forth.
-/
def Match.SaysSame : Match → Match → Prop := Relation.EqvGen Match.Rewrite

theorem Match.SaysSame.canonical_eq {m n : Match} (h : m.SaysSame n) :
    m.canonical = n.canonical := by
  induction h with
  | rel _ _ h => exact h.canonical_eq
  | refl _ => rfl
  | symm _ _ _ ih => exact ih.symm
  | trans _ _ _ _ _ ih ih' => exact ih.trans ih'

end RakuTree
