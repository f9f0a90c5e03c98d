import RakuTree.Proofs.Filled.Run

/-!
# RakuTree.Proofs.Filled.Forward

Filling in place against filling forward.

The gaps of a tree are filled in place, from the bottom up and in each child list from the last
gap to the first. When a filling goes through, it comes to what one would write down without any
of that: each child list is the old one with the layout of its gaps put in from left to right,
where a gap lies between the boundaries that the old nodes had (`fill_eq_forward`). Nothing else
changes.
-/

namespace RakuTree.Arena

open Outline
open List (Perm Forall₂)

variable {g : GapSource} {a b : Arena} {r i j : NodeId} {done : Prop} {t u : Outline}

/-- Node `i` and what is under it make up a tree in which every node occurs once. Its nodes may
be of no kind, and their links and ranges may be anything. -/
def IsPlainTree (a : Arena) (i : NodeId) : Prop :=
  ∃ t : Outline, t.root = i ∧ Hangs a t ∧ t.ids.Nodup

/-- Every tree of elements is one in the table that `ofElement` makes of it. -/
theorem isPlainTree_ofElement (e : Element) : (ofElement e).IsPlainTree 0 :=
  ⟨e.outline 0, e.root_outline 0, hangs_outline e [] [] (List.append_nil _).symm,
    nodup_outline e 0⟩

theorem untouched_self (h : Hangs a t) (hnodup : t.ids.Nodup) : Untouched a a [t] where
  hangs := by
    intro k hk
    rwa [List.mem_singleton.mp hk]
  nodup := by rwa [idsList, idsList, List.append_nil]
  size := Nat.le_refl _
  same := fun _ _ => rfl

theorem idsList_singleton (t : Outline) : idsList [t] = t.ids := by
  rw [idsList, idsList, List.append_nil]

/-- What filling the tree `t` comes to, and when it goes through. -/
theorem fill_outcome (h : Hangs a t) (hnodup : t.ids.Nodup) (g : GapSource) :
    (∃ u, u.root = t.root ∧
      Grown g a ((a.fill g t.root).fault? = none) a (a.fill g t.root).value [t] [u]) ∧
    ((a.fill g t.root).fault? = none ↔ a.CanFill g t.ids) := by
  obtain ⟨hvalue, hfault⟩ := fill_eq a g t.root
  obtain ⟨⟨us, hgrown⟩, hiff⟩ := fillWithin_outcome (g := g) (s := { arena := a }) t
    (untouched_self h hnodup) (h.length_le_size hnodup)
  rw [hvalue, hfault]
  rw [idsList_singleton] at hiff
  refine ⟨?_, hiff⟩
  obtain ⟨u, hus, hroot⟩ := List.map_eq_singleton_iff.mp hgrown.roots
  subst hus
  exact ⟨u, hroot, hgrown⟩

/-! ### Old nodes among the new -/

/-- A new token, by `Reads`, has nothing under it. -/
theorem Reads.filter_walkWithin {n : Nat} {l : Leaf} (h : Reads n b j (.new l)) (depth : Nat) :
    (b.walkWithin depth j).filter (· < n) = [] := by
  obtain ⟨hn, -, hnode⟩ := h
  cases depth with
  | zero => rfl
  | succ depth =>
      rw [walkWithin, hnode]
      simp [Node.ofElement, hn]

/-- If the old nodes below each old child come in the order they had, they do in a row of children
`ks`. -/
theorem filter_flatMap_walkWithin {n depth : Nat} {ks : List NodeId} {slots : List Slot}
    (h : Forall₂ (Reads n b) ks slots)
    (hold : ∀ k ∈ slots.filterMap Slot.old?,
      (b.walkWithin depth k).filter (· < n) = a.walkWithin depth k) :
    (ks.flatMap (b.walkWithin depth)).filter (· < n) =
      (slots.filterMap Slot.old?).flatMap (a.walkWithin depth) := by
  induction h with
  | nil => rfl
  | @cons k s ks slots hk _ ih =>
      rw [List.flatMap_cons, List.filter_append]
      cases s with
      | old i =>
          obtain ⟨rfl, -⟩ := hk
          rw [List.filterMap_cons_some (f := Slot.old?) rfl] at hold ⊢
          obtain ⟨hfirst, hrest⟩ := List.forall_mem_cons.mp hold
          rw [List.flatMap_cons, hfirst, ih hrest]
      | new l =>
          rw [List.filterMap_cons_none (f := Slot.old?) rfl] at hold ⊢
          rw [hk.filter_walkWithin, List.nil_append, ih hold]

/-- Going down the tree by `walkWithin`, old nodes come in the order they had. -/
theorem Grown.filter_walkWithin {c : Arena} {ts us : List Outline}
    (h : Grown g a done c b ts us) (huntouched : Untouched a c ts) (depth : Nat)
    (hj : j ∈ idsList ts) :
    (b.walkWithin depth j).filter (· < a.size) = a.walkWithin depth j := by
  induction depth generalizing j with
  | zero => rfl
  | succ depth ih =>
      obtain ⟨slots, hreads, hpartly, -⟩ := h.rows j hj
      have hlt := huntouched.lt_size hj
      have hkids : ∀ k ∈ slots.filterMap Slot.old?,
          (b.walkWithin depth k).filter (· < a.size) = a.walkWithin depth k := by
        intro k hk
        rw [hpartly.filterMap_old?] at hk
        exact ih (huntouched.child_mem hj hk)
      rw [walkWithin, walkWithin, List.filter_cons_of_pos (by simpa using hlt),
        filter_flatMap_walkWithin hreads hkids, hpartly.filterMap_old?]

/-- **Filling in place is filling forward.** Take a tree in a table and a filling of it that goes
through. In the row of every node with children, the layout of each gap stands where the gap is,
from the first child to the last, with the outermost gaps for branches only. Nodes without
children and nodes outside the tree are untouched, and no node that was there changes in
anything but its child list. Under the root, these nodes come as often and in the same order as
before; all other nodes are new tokens of layout without links. -/
theorem fill_eq_forward (htree : a.IsPlainTree r) (g : GapSource) {log : List Event}
    (hfill : a.fill g r = ⟨b, log, none⟩) :
    (∀ j ∈ a.walk r, (a.node j).children ≠ [] →
      Forall₂ (Reads a.size b) (b.node j).children
        (g.withLayout a.items ((a.outer j).map Prod.fst) ((a.node j).children.map .old)
          ((a.outer j).map Prod.snd))) ∧
    (∀ j ∈ a.walk r, (a.node j).children = [] → b.node j = a.node j) ∧
    (∀ j < a.size, j ∉ a.walk r → b.node j = a.node j) ∧
    (∀ j < a.size, { b.node j with children := (a.node j).children } = a.node j) ∧
    a.size ≤ b.size ∧ (b.walk r).Nodup ∧ (b.walk r).filter (· < a.size) = a.walk r ∧
    (∀ j, a.size ≤ j → j < b.size → j ∈ b.walk r ∧
      ∃ l : Leaf, Layout.isLayout l.cls = true ∧ b.node j = Node.ofElement j (.leaf l) []) := by
  obtain ⟨t, rfl, hangs, hnodup⟩ := htree
  have huntouched := untouched_self hangs hnodup
  obtain ⟨⟨u, hroot, hgrown⟩, -⟩ := fill_outcome hangs hnodup g
  rw [hfill] at hgrown
  have hsingle : idsList [t] = t.ids := idsList_singleton t
  have hnodup' : u.ids.Nodup := by
    have hus := hgrown.nodup huntouched
    rwa [idsList_singleton] at hus
  have hangs' : Hangs b u := hgrown.hangs u List.mem_cons_self
  have hwalk : a.walk t.root = t.ids := hangs.walk_eq hnodup
  have hwalk' : b.walk t.root = u.ids := hroot ▸ hangs'.walk_eq hnodup'
  have hkept : ∀ j < a.size, { b.node j with children := (a.node j).children } = a.node j := by
    intro j hj
    by_cases hmem : j ∈ t.ids
    · exact hgrown.kept j (hsingle ▸ hmem)
    · rw [hgrown.others j hj (hsingle ▸ hmem)]
  refine ⟨?_, ?_, ?_, hkept, hgrown.size, hwalk' ▸ hnodup', ?_, ?_⟩
  · intro j hj hne
    rw [hwalk, ← hsingle] at hj
    obtain ⟨slots, hreads, -, hfull⟩ := hgrown.rows j hj
    rwa [hfull rfl, filledRow, if_neg hne] at hreads
  · intro j hj hnil
    rw [hwalk] at hj
    have hchildren := (hgrown.children_eq_nil_iff (hsingle ▸ hj)).mpr hnil
    have hsame := hkept j (hangs.lt_size j hj)
    rwa [hnil, ← hchildren] at hsame
  · intro j hj hmem
    rw [hwalk, ← hsingle] at hmem
    exact hgrown.others j hj hmem
  · have hdepth : t.ids.length ≤ b.size :=
      Nat.le_trans (hangs.length_le_size hnodup) hgrown.size
    rw [walk, hwalk, ← hangs.walkWithin_eq hdepth]
    exact hgrown.filter_walkWithin huntouched b.size (hsingle ▸ root_mem_ids t)
  · intro j hj hlt
    refine ⟨?_, hgrown.fresh j hj hlt⟩
    rw [hwalk', ← idsList_singleton]
    exact hgrown.mem_ids.mpr (.inr ⟨hj, hlt⟩)

/-- A source with gaps, one of which holds text that is no layout, for `sampleGappy`. -/
def sampleGaps : Text := "a zz $( )  b\n".toList

/-- A tree over `sampleGaps`. The contextualizer ends with its last child. -/
def sampleGappy : Element :=
  .branch .statement (.ofText 0 sampleGaps) none
    [.leaf (Leaf.found .bareword 0 ['a'] none),
      .contextualizer none (.ofText 5 ['$']) ['$'] none
        [.leaf (Leaf.found .blockEnter 6 ['('] none), .leaf (Leaf.found .blockExit 8 [')'] none)],
      .leaf (Leaf.found .bareword 11 ['b'] none)]

/-- The tree `sampleGappy` with its gaps filled. -/
def sampleFilled : Arena := ((ofElement sampleGappy).fill ⟨sampleGaps, {}, false⟩ 0).value

theorem sample_fill :
    (ofElement sampleGappy).fill ⟨sampleGaps, {}, false⟩ 0 =
      ⟨sampleFilled, ((ofElement sampleGappy).fill ⟨sampleGaps, {}, false⟩ 0).events, none⟩ := by
  have hfault : ((ofElement sampleGappy).fill ⟨sampleGaps, {}, false⟩ 0).fault? = none := by
    decide +kernel
  rw [← hfault]
  rfl

theorem sample_fill_eq_forward :
    (sampleFilled.node 0).children = [1, 7, 8, 2, 9, 5, 10] ∧
    (sampleFilled.node 2).children = [3, 6, 4] ∧
    Forall₂ (Reads 6 sampleFilled) [1, 7, 8, 2, 9, 5, 10]
      (GapSource.withLayout ⟨sampleGaps, {}, false⟩ (ofElement sampleGappy).items (some 0)
        [.old 1, .old 2, .old 5] (some 13)) ∧
    (sampleFilled.walk 0).filter (· < 6) = [0, 1, 2, 3, 4, 5] := by
  have hchildren : (sampleFilled.node 0).children = [1, 7, 8, 2, 9, 5, 10] := by decide +kernel
  have hwalk : (ofElement sampleGappy).walk 0 = [0, 1, 2, 3, 4, 5] := by decide +kernel
  obtain ⟨hrows, -, -, -, -, -, horder, -⟩ := fill_eq_forward (isPlainTree_ofElement sampleGappy)
    ⟨sampleGaps, {}, false⟩ sample_fill
  have hrow := hrows 0 (by decide +kernel) (by decide +kernel)
  rw [hchildren] at hrow
  rw [hwalk] at horder
  exact ⟨hchildren, by decide +kernel, hrow, horder⟩

end RakuTree.Arena
