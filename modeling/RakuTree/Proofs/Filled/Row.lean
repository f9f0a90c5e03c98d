import RakuTree.Proofs.Scan.Rescan
import Mathlib.Data.List.Forall2

/-!
# RakuTree.Proofs.Filled.Row

Filling the gaps of one child list.

The gaps of a row are filled from the last to the first, and the filling may stop at any of
them. What comes of it is said without that order: `withLayout` goes through the row once, from
the first item to the last, and puts the layout of each gap where the gap is. A filling that
goes through comes to `withLayout`, and one that stops comes to a row that is `Partly` filled,
with each gap either left alone or filled for good (`Fills`).

Filling a row that is partly filled already finds the gaps that are left and nothing else
(`Partly.withLayout_eq`): the holes between the tokens of a gap are settled. So nothing is
found in a row that is filled, and a filling that stopped can be taken up again.
-/

namespace RakuTree

/-- How the items of a row are read: where each one starts and ends, and which of them stand for
tokens. Trees and tables fill their rows in the same way (`GapSource.fillList`). -/
structure Items (α : Type) where
  /-- A token as an item. -/
  ofLeaf : Leaf → α
  /-- Where an item starts. -/
  startOf : α → Int
  /-- Where an item ends. -/
  endOf : α → Int
  /-- A token starts where its `span` does. -/
  startOf_ofLeaf : ∀ l, startOf (ofLeaf l) = l.span.start
  /-- A token ends where its `span` does. -/
  endOf_ofLeaf : ∀ l, endOf (ofLeaf l) = l.span.stop

/-- The gap between two places, if both are known; `none` stands for no place. -/
def between : Option Int → Option Int → List (Int × Int)
  | some a, some b => [(a, b)]
  | _, _ => []

/-- The gaps of a row. Nothing is left of the row, or something that ends at `a?`, and
likewise on the right. -/
def Items.gaps {α : Type} (I : Items α) : Option Int → List α → Option Int → List (Int × Int)
  | a?, [], b? => between a? b?
  | a?, k :: ks, b? => between a? (some (I.startOf k)) ++ I.gaps (some (I.endOf k)) ks b?

namespace GapSource

variable {α β : Type} {g : GapSource} {I : Items α} {a? b? : Option Int} {k : α} {ks ls : List α}

/-- The layout in the gap from `a?` to `b?`, if both are known. -/
def layoutBetween (g : GapSource) (a? b? : Option Int) : List Leaf :=
  (between a? b?).flatMap fun p => g.layout p.1 p.2

@[simp] theorem layoutBetween_some (g : GapSource) (a b : Int) :
    g.layoutBetween (some a) (some b) = g.layout a b := by
  simp [layoutBetween, between]

@[simp] theorem layoutBetween_none_left (g : GapSource) (b? : Option Int) :
    g.layoutBetween none b? = [] := by
  simp [layoutBetween, between]

@[simp] theorem layoutBetween_none_right (g : GapSource) (a? : Option Int) :
    g.layoutBetween a? none = [] := by
  simp [layoutBetween, between]

/-- A row from `a?` to `b?` with the layout of all its gaps, from the first to the last. -/
def withLayout (g : GapSource) (I : Items α) : Option Int → List α → Option Int → List α
  | a?, [], b? => (g.layoutBetween a? b?).map I.ofLeaf
  | a?, k :: ks, b? =>
    (g.layoutBetween a? (some (I.startOf k))).map I.ofLeaf ++
      k :: g.withLayout I (some (I.endOf k)) ks b?

/-- A row with the layout of some of its gaps, however a filling comes by it. -/
inductive Partly (g : GapSource) (I : Items α) :
    Option Int → List α → Option Int → List α → Prop
  /-- The gap behind the last item is left alone or filled with its layout `T`. -/
  | nil {a? b? : Option Int} {T : List Leaf} (hT : T = [] ∨ T = g.layoutBetween a? b?) :
      Partly g I a? [] b? (T.map I.ofLeaf)
  /-- The gap in front of the item `k` is left alone or filled with its layout `T`. -/
  | cons {a? b? : Option Int} {k : α} {ks ls : List α} {T : List Leaf}
      (hT : T = [] ∨ T = g.layoutBetween a? (some (I.startOf k)))
      (h : Partly g I (some (I.endOf k)) ks b? ls) :
      Partly g I a? (k :: ks) b? (T.map I.ofLeaf ++ k :: ls)

/-- Whether a filling is `strict` makes no difference for what is in a gap. -/
theorem Partly.of_strict {strict : Bool} (h : Partly { g with strict } I a? ks b? ls) :
    g.Partly I a? ks b? ls := by
  induction h with
  | nil hT => exact .nil hT
  | cons hT _ ih => exact .cons hT ih

/-! ### Filling again -/

/-- Items stay in their order when layout is put between them by `withLayout`. -/
theorem sublist_withLayout (g : GapSource) (I : Items α) (a? : Option Int) (ks : List α)
    (b? : Option Int) : ks.Sublist (g.withLayout I a? ks b?) := by
  induction ks generalizing a? with
  | nil => exact List.nil_sublist _
  | cons k ks ih =>
      rw [withLayout]
      exact ((ih _).cons_cons k).trans (List.sublist_append_right _ _)

theorem Partly.refl (g : GapSource) (I : Items α) (a? : Option Int) (ks : List α)
    (b? : Option Int) : g.Partly I a? ks b? ks := by
  induction ks generalizing a? with
  | nil => exact .nil (T := []) (.inl rfl)
  | cons k ks ih => exact .cons (T := []) (.inl rfl) (ih _)

/-- What is in a row that is `Partly` filled was there or is a token of a gap. -/
theorem Partly.mem (h : g.Partly I a? ks b? ls) :
    ∀ x ∈ ls, x ∈ ks ∨ ∃ l a b, x = I.ofLeaf l ∧ l ∈ g.layout a b := by
  have htokens : ∀ {a? b? : Option Int} {T : List Leaf} {x : α},
      T = [] ∨ T = g.layoutBetween a? b? → x ∈ T.map I.ofLeaf →
        ∃ l a b, x = I.ofLeaf l ∧ l ∈ g.layout a b := by
    intro a? b? T x hT hx
    obtain ⟨l, hl, rfl⟩ := List.mem_map.mp hx
    rcases hT with rfl | rfl
    · exact absurd hl List.not_mem_nil
    · obtain ⟨p, -, hl⟩ := List.mem_flatMap.mp hl
      exact ⟨l, p.1, p.2, rfl, hl⟩
  induction h with
  | nil hT => exact fun x hx => .inr (htokens hT hx)
  | @cons _ _ k ks ls T hT _ ih =>
      intro x hx
      rw [List.mem_append, List.mem_cons] at hx
      rcases hx with hx | rfl | hx
      · exact .inr (htokens hT hx)
      · exact .inl List.mem_cons_self
      · exact (ih x hx).imp_left (List.mem_cons_of_mem _)

/-- Tokens apart, a row that is `Partly` filled is as before. -/
theorem Partly.filterMap_eq (h : g.Partly I a? ks b? ls) {f : α → Option β}
    (hf : ∀ l, f (I.ofLeaf l) = none) : ls.filterMap f = ks.filterMap f := by
  have htokens : ∀ T : List Leaf, (T.map I.ofLeaf).filterMap f = [] := by
    intro T
    rw [List.filterMap_map]
    exact List.filterMap_eq_nil_iff.mpr fun l _ => hf l
  induction h with
  | nil hT => rw [htokens, List.filterMap_nil]
  | cons hT _ ih =>
      rw [List.filterMap_append, htokens, List.nil_append, List.filterMap_cons, ih,
        List.filterMap_cons]

/-- Where there is nothing behind a row, its last item stays the last when it is `Partly` filled. -/
theorem Partly.getLast?_eq (h : g.Partly I a? (k :: ks) none ls) :
    ls.getLast? = (k :: ks).getLast? := by
  induction ks generalizing a? k ls with
  | nil =>
      cases h with
      | @cons _ _ _ _ ms S hS h =>
          cases h with
          | @nil _ _ U hU =>
              rw [layoutBetween_none_right, or_self] at hU
              subst hU
              simp
  | cons l ks ih =>
      cases h with
      | @cons _ _ _ _ ms S hS h =>
          have hlast := ih h
          obtain ⟨x, hx⟩ := Option.isSome_iff_exists.mp
            (List.getLast?_isSome.mpr (List.cons_ne_nil l ks))
          rw [List.getLast?_append, List.getLast?_cons, hlast, List.getLast?_cons_cons, hx]
          rfl

/-- Nothing is found between tokens that are `Settled`. -/
theorem withLayout_settled_nil {a b : Int} {T : List Leaf} (h : g.Settled a T b) :
    g.withLayout I (some a) (T.map I.ofLeaf) (some b) = T.map I.ofLeaf := by
  induction T generalizing a with
  | nil => simpa [withLayout, Settled] using h
  | cons l T ih =>
      obtain ⟨hempty, hrest⟩ := h
      rw [List.map_cons, withLayout, layoutBetween_some, I.startOf_ofLeaf, I.endOf_ofLeaf, hempty,
        ih hrest]
      rfl

theorem withLayout_settled_cons {a : Int} {T : List Leaf} (h : g.Settled a T (I.startOf k)) :
    g.withLayout I (some a) (T.map I.ofLeaf ++ k :: ls) b? =
      T.map I.ofLeaf ++ k :: g.withLayout I (some (I.endOf k)) ls b? := by
  induction T generalizing a with
  | nil =>
      have hempty : g.layout a (I.startOf k) = [] := h
      simp [withLayout, hempty]
  | cons l T ih =>
      obtain ⟨hempty, hrest⟩ := h
      rw [List.map_cons, List.cons_append, withLayout, layoutBetween_some, I.startOf_ofLeaf,
        I.endOf_ofLeaf, hempty, ih hrest]
      rfl

/-- Filling a row that is `Partly` filled comes to the same as filling it at once. -/
theorem Partly.withLayout_eq (h : g.Partly I a? ks b? ls) :
    g.withLayout I a? ls b? = g.withLayout I a? ks b? := by
  induction h with
  | @nil a? b? T hT =>
      rcases hT with rfl | rfl
      · rfl
      · cases a? with
        | none => simp [withLayout]
        | some a =>
            cases b? with
            | none => simp [withLayout]
            | some b =>
                rw [layoutBetween_some, withLayout_settled_nil (g.layout_settled a b), withLayout,
                  layoutBetween_some]
  | @cons a? b? k ks ls T hT _ ih =>
      rcases hT with rfl | rfl
      · rw [List.map_nil, List.nil_append, withLayout, ih, withLayout]
      · cases a? with
        | none => simp [withLayout, ih]
        | some a =>
            rw [layoutBetween_some, withLayout_settled_cons (g.layout_settled a _), ih, withLayout,
              layoutBetween_some]

/-- Rows whose items start and end at the same places are filled the same way by `withLayout`. -/
theorem forall₂_withLayout {J : Items β} {R : α → β → Prop} {xs : List α} {ys : List β}
    (h : List.Forall₂ (fun x y => R x y ∧ I.startOf x = J.startOf y ∧ I.endOf x = J.endOf y) xs ys)
    (hleaf : ∀ l, R (I.ofLeaf l) (J.ofLeaf l)) (a? b? : Option Int) :
    List.Forall₂ R (g.withLayout I a? xs b?) (g.withLayout J a? ys b?) := by
  have hmap : ∀ T : List Leaf, List.Forall₂ R (T.map I.ofLeaf) (T.map J.ofLeaf) := by
    intro T
    induction T with
    | nil => exact .nil
    | cons l T ih => exact .cons (hleaf l) ih
  induction h generalizing a? with
  | nil => exact hmap _
  | cons hxy _ ih =>
      obtain ⟨hR, hstart, hend⟩ := hxy
      rw [withLayout, withLayout, hstart, hend]
      exact List.rel_append (hmap _) (.cons hR (ih _))

theorem gaps_congr {J : Items β} {xs : List α} {ys : List β}
    (h : List.Forall₂ (fun x y => I.startOf x = J.startOf y ∧ I.endOf x = J.endOf y) xs ys)
    (a? b? : Option Int) : I.gaps a? xs b? = J.gaps a? ys b? := by
  induction h generalizing a? with
  | nil => rfl
  | cons hxy _ ih =>
      obtain ⟨hstart, hend⟩ := hxy
      rw [Items.gaps, Items.gaps, hstart, hend, ih]

/-- Behind tokens `T` that end inside the source, gaps are `Readable`. -/
theorem readable_gaps_tokens {a : Int} {T : List Leaf} (ha : a ≤ g.src.length)
    (hT : ∀ l ∈ T, l.span.stop ≤ g.src.length)
    (hrest : ∀ c : Int, c ≤ g.src.length → ∀ p ∈ I.gaps (some c) ls b?, g.Readable p.1 p.2) :
    ∀ p ∈ I.gaps (some a) (T.map I.ofLeaf ++ ls) b?, g.Readable p.1 p.2 := by
  induction T generalizing a with
  | nil => exact hrest a ha
  | cons l T ih =>
      obtain ⟨hl, hT⟩ := List.forall_mem_cons.mp hT
      intro p hp
      rw [List.map_cons, List.cons_append, Items.gaps, List.mem_append, I.endOf_ofLeaf] at hp
      rcases hp with hp | hp
      · rw [between, List.mem_singleton] at hp
        subst hp
        exact fun _ _ => ha
      · exact ih hl hT p hp

/-- A gap with tokens in it starts inside the source, if it is `Readable`. -/
theorem Readable.le_of_layout {a b : Int} (h : g.Readable a b) (hne : g.layout a b ≠ []) :
    a ≤ g.src.length := by
  by_cases hgap : 0 ≤ a ∧ a < b
  · exact h hgap.1 hgap.2
  · refine absurd ?_ hne
    rw [layout, if_pos (by omega)]

/-- Where all gaps are `Readable`, those that are left in a row that is `Partly` filled are. -/
theorem Partly.readable (h : g.Partly I a? ks b? ls)
    (hks : ∀ p ∈ I.gaps a? ks b?, g.Readable p.1 p.2) :
    ∀ p ∈ I.gaps a? ls b?, g.Readable p.1 p.2 := by
  induction h with
  | @nil a? b? T hT =>
      by_cases hnil : T = []
      · rwa [hnil]
      · obtain rfl := hT.resolve_left hnil
        cases a? with
        | none => simp at hnil
        | some a =>
            cases b? with
            | none => simp at hnil
            | some b =>
                rw [layoutBetween_some] at hnil ⊢
                have ha := (hks (a, b) (by simp [Items.gaps, between])).le_of_layout hnil
                rw [← List.append_nil (List.map _ _)]
                refine readable_gaps_tokens ha (g.layout_stop_le a b) ?_
                intro c hc p hp
                rw [Items.gaps, between, List.mem_singleton] at hp
                subst hp
                exact fun _ _ => hc
  | @cons a? b? k ks ls T hT _ ih =>
      rw [Items.gaps] at hks
      have hrest := ih fun p hp => hks p (List.mem_append_right _ hp)
      by_cases hnil : T = []
      · rw [hnil, List.map_nil, List.nil_append, Items.gaps]
        intro p hp
        rcases List.mem_append.mp hp with hp | hp
        · exact hks p (List.mem_append_left _ hp)
        · exact hrest p hp
      · obtain rfl := hT.resolve_left hnil
        cases a? with
        | none => simp at hnil
        | some a =>
            rw [layoutBetween_some] at hnil ⊢
            have ha := (hks (a, I.startOf k) (by simp [between])).le_of_layout hnil
            refine readable_gaps_tokens ha (g.layout_stop_le a _) ?_
            intro c hc p hp
            rw [Items.gaps, between, List.mem_append, List.mem_singleton] at hp
            rcases hp with rfl | hp
            · exact fun _ _ => hc
            · exact hrest p hp

/-! ### Runs of a filling -/

theorem fillBetween_congr {J : Items α} (hleaf : I.ofLeaf = J.ofLeaf)
    (h : ∀ k ∈ ks, I.startOf k = J.startOf k ∧ I.endOf k = J.endOf k) :
    g.fillBetween I.ofLeaf I.startOf I.endOf ks = g.fillBetween J.ofLeaf J.startOf J.endOf ks := by
  induction ks with
  | nil => rfl
  | cons k ks ih =>
      obtain ⟨hk, hks⟩ := List.forall_mem_cons.mp h
      cases ks with
      | nil => rfl
      | cons l ks =>
          rw [fillBetween, fillBetween, ih hks, hleaf, hk.2, (hks l List.mem_cons_self).1]

/-- A child list is filled the same way by `fillList` wherever its items start and end at the same
places. -/
theorem fillList_congr {J : Items α} (hleaf : I.ofLeaf = J.ofLeaf)
    (h : ∀ x ∈ k :: ks, I.startOf x = J.startOf x ∧ I.endOf x = J.endOf x)
    (outer : Option (Int × Int)) :
    g.fillList I.ofLeaf I.startOf I.endOf outer k ks =
      g.fillList J.ofLeaf J.startOf J.endOf outer k ks := by
  have hlast := (h _ (List.getLast_mem (List.cons_ne_nil k ks))).2
  have hfirst := (h k List.mem_cons_self).1
  have hbetween := fillBetween_congr (g := g) hleaf h
  rw [hleaf] at hbetween
  unfold fillList
  simp only [hleaf, hbetween, hlast, hfirst]

/-- The filling `x` of a row `ks`, however far it got. -/
structure Fills (g : GapSource) (I : Items α) (a? : Option Int) (ks : List α) (b? : Option Int)
    (x : Filling (List α)) : Prop where
  /-- Each gap is left alone or filled: the row is `Partly` filled. -/
  partly : g.Partly I a? ks b? x.value
  /-- If the filling goes through, all gaps are filled, as by `withLayout`. -/
  full : x.fault? = none → x.value = g.withLayout I a? ks b?
  /-- The filling goes through exactly if all gaps can be read. -/
  fault?_eq_none_iff : x.fault? = none ↔ ∀ p ∈ I.gaps a? ks b?, (g.read p.1 p.2).fault? = none

/-- Reading a gap comes to its `layout`, or to nothing. -/
theorem read_tokens_cases (g : GapSource) (a b : Int) :
    (g.read a b).tokens = [] ∨ (g.read a b).tokens = g.layout a b := by
  by_cases h : (g.read a b).fault? = none
  · exact .inr (read_tokens h)
  · exact .inl (read_tokens_of_fault h)

theorem Partly.of_cons_none (h : g.Partly I none (k :: ks) b? ls) :
    ∃ ms, ls = k :: ms ∧ g.Partly I (some (I.endOf k)) ks b? ms := by
  cases h with
  | @cons _ _ _ _ ms T hT h =>
      rw [layoutBetween_none_left, or_self] at hT
      subst hT
      exact ⟨ms, rfl, h⟩

/-- The gap from `a` in front of a row is filled once the others are. -/
theorem Fills.front {x : Filling (List α)} (h : g.Fills I none (k :: ks) b? x) (a : Int) :
    g.Fills I (some a) (k :: ks) b? (x.andThen (g.fillBefore I.ofLeaf a (I.startOf k))) := by
  obtain ⟨ms, hvalue, hms⟩ := h.partly.of_cons_none
  have hgaps : I.gaps (some a) (k :: ks) b? =
      (a, I.startOf k) :: I.gaps none (k :: ks) b? := by
    simp [Items.gaps, between]
  cases hx : x.fault? with
  | some e =>
      have hstays : x.andThen (g.fillBefore I.ofLeaf a (I.startOf k)) = x := by
        simp [Filling.andThen, hx]
      rw [hstays]
      refine ⟨?_, ?_, ?_⟩
      · rw [hvalue]
        exact .cons (T := []) (.inl rfl) hms
      · intro hnone
        rw [hx] at hnone
        exact nomatch hnone
      · rw [hgaps, List.forall_mem_cons, ← h.fault?_eq_none_iff, hx]
        simp
  | none =>
      have hgoes : (x.andThen (g.fillBefore I.ofLeaf a (I.startOf k))).value =
          (g.read a (I.startOf k)).tokens.map I.ofLeaf ++ x.value := by
        simp [Filling.andThen, hx, fillBefore]
      have hfault : (x.andThen (g.fillBefore I.ofLeaf a (I.startOf k))).fault? =
          (g.read a (I.startOf k)).fault? := by
        simp [Filling.andThen, hx, fillBefore]
      refine ⟨?_, ?_, ?_⟩
      · rw [hgoes, hvalue]
        refine .cons ?_ hms
        rw [layoutBetween_some]
        exact g.read_tokens_cases a (I.startOf k)
      · rw [hgoes, hfault, h.full hx]
        intro hnone
        simp [withLayout, read_tokens hnone]
      · rw [hfault, hgaps, List.forall_mem_cons, ← h.fault?_eq_none_iff, hx]
        simp

/-- The item `k` in front of a row that is filled from its end on. -/
theorem Fills.cons {x : Filling (List α)} (h : g.Fills I (some (I.endOf k)) ks b? x) :
    g.Fills I none (k :: ks) b? (x.map (k :: ·)) where
  partly := Partly.cons (T := []) (.inl rfl) h.partly
  full := by
    intro hnone
    rw [withLayout, layoutBetween_none_left, ← h.full hnone]
    rfl
  fault?_eq_none_iff := by
    have hgaps : I.gaps none (k :: ks) b? = I.gaps (some (I.endOf k)) ks b? := by
      simp [Items.gaps, between]
    rw [hgaps]
    exact h.fault?_eq_none_iff

theorem fills_fillBetween (g : GapSource) (I : Items α) (k : α) (ks : List α) :
    g.Fills I none (k :: ks) none (g.fillBetween I.ofLeaf I.startOf I.endOf (k :: ks)) := by
  induction ks generalizing k with
  | nil =>
      rw [fillBetween]
      refine ⟨.cons (T := []) (.inl rfl) (.nil (T := []) (.inl rfl)), ?_, ?_⟩
      · simp [Filling.done, withLayout]
      · simp [Filling.done, Items.gaps, between]
  | cons l ks ih =>
      rw [fillBetween]
      exact ((ih l).front (I.endOf k)).cons

/-! The gap behind a row is that of its last item. -/

theorem gaps_behind (I : Items α) (a? : Option Int) (k : α) (ks : List α) (b : Int) :
    I.gaps a? (k :: ks) (some b) =
      I.gaps a? (k :: ks) none ++ [(I.endOf ((k :: ks).getLast (by simp)), b)] := by
  induction ks generalizing a? k with
  | nil => simp [Items.gaps, between]
  | cons l ks ih =>
      have hcons : ∀ b?, I.gaps a? (k :: l :: ks) b? = between a? (some (I.startOf k)) ++
          I.gaps (some (I.endOf k)) (l :: ks) b? := fun _ => rfl
      rw [hcons, hcons, ih, List.append_assoc, List.getLast_cons_cons]

theorem withLayout_behind (g : GapSource) (I : Items α) (a? : Option Int) (k : α) (ks : List α)
    (b : Int) :
    g.withLayout I a? (k :: ks) (some b) = g.withLayout I a? (k :: ks) none ++
      (g.layout (I.endOf ((k :: ks).getLast (by simp))) b).map I.ofLeaf := by
  induction ks generalizing a? k with
  | nil => simp [withLayout]
  | cons l ks ih =>
      have hcons : ∀ b?, g.withLayout I a? (k :: l :: ks) b? =
          (g.layoutBetween a? (some (I.startOf k))).map I.ofLeaf ++
            k :: g.withLayout I (some (I.endOf k)) (l :: ks) b? := fun _ => rfl
      rw [hcons, hcons, ih, List.append_assoc, List.cons_append, List.getLast_cons_cons]

theorem Partly.behind {T : List Leaf} {b : Int} (h : g.Partly I a? (k :: ks) none ls)
    (hT : T = [] ∨ T = g.layout (I.endOf ((k :: ks).getLast (by simp))) b) :
    g.Partly I a? (k :: ks) (some b) (ls ++ T.map I.ofLeaf) := by
  induction ks generalizing a? k ls with
  | nil =>
      cases h with
      | @cons _ _ _ _ ms S hS h =>
          cases h with
          | @nil _ _ U hU =>
              rw [layoutBetween_none_right, or_self] at hU
              subst hU
              rw [List.append_assoc]
              refine .cons hS (.nil ?_)
              simpa using hT
  | cons l ks ih =>
      cases h with
      | @cons _ _ _ _ ms S hS h =>
          rw [List.append_assoc, List.cons_append]
          refine .cons hS (ih h ?_)
          rwa [List.getLast_cons_cons] at hT

/-- The gap up to `b` behind a row is filled once those inside are. -/
theorem Fills.behind {x : Filling (List α)} (h : g.Fills I a? (k :: ks) none x) (b : Int) :
    g.Fills I a? (k :: ks) (some b) (x.andThen fun all =>
      (g.fillBefore I.ofLeaf (I.endOf ((k :: ks).getLast (by simp))) b []).map (all ++ ·)) := by
  have hgaps := gaps_behind I a? k ks b
  cases hx : x.fault? with
  | some e =>
      have hstays : x.andThen (fun all =>
          (g.fillBefore I.ofLeaf (I.endOf ((k :: ks).getLast (by simp))) b []).map (all ++ ·)) =
          x := by
        simp [Filling.andThen, hx]
      rw [hstays]
      refine ⟨?_, ?_, ?_⟩
      · have hpartly := h.partly.behind (T := []) (b := b) (.inl rfl)
        rwa [List.map_nil, List.append_nil] at hpartly
      · intro hnone
        rw [hx] at hnone
        exact nomatch hnone
      · rw [hgaps, List.forall_mem_append, ← h.fault?_eq_none_iff, hx]
        simp
  | none =>
      have hgoes : (x.andThen (fun all => (g.fillBefore I.ofLeaf
          (I.endOf ((k :: ks).getLast (by simp))) b []).map (all ++ ·))).value =
          x.value ++ (g.read (I.endOf ((k :: ks).getLast (by simp))) b).tokens.map I.ofLeaf := by
        simp [Filling.andThen, hx, fillBefore, Filling.map]
      have hfault : (x.andThen (fun all => (g.fillBefore I.ofLeaf
          (I.endOf ((k :: ks).getLast (by simp))) b []).map (all ++ ·))).fault? =
          (g.read (I.endOf ((k :: ks).getLast (by simp))) b).fault? := by
        simp [Filling.andThen, hx, fillBefore, Filling.map]
      refine ⟨?_, ?_, ?_⟩
      · rw [hgoes]
        exact h.partly.behind (g.read_tokens_cases _ b)
      · rw [hgoes, hfault, h.full hx]
        intro hnone
        rw [withLayout_behind, read_tokens hnone]
      · rw [hfault, hgaps, List.forall_mem_append, ← h.fault?_eq_none_iff, hx]
        simp

/-- Filling a child list by `fillList` fills its gaps, and for a branch also those at its ends. -/
theorem fills_fillList (g : GapSource) (I : Items α) (outer : Option (Int × Int)) (k : α)
    (ks : List α) :
    g.Fills I (outer.map Prod.fst) (k :: ks) (outer.map Prod.snd)
      (g.fillList I.ofLeaf I.startOf I.endOf outer k ks) := by
  have hinner := g.fills_fillBetween I k ks
  cases outer with
  | none => exact hinner
  | some range => exact (hinner.behind range.2).front range.1

end GapSource

end RakuTree
