import RakuTree.Proofs.Filled.Forward

/-!
# RakuTree.Proofs.Filled.Resume

Filling a tree again.

A lenient filling can be taken up wherever an earlier one, strict or lenient, has stopped. The
tables differ, since new tokens are numbered as they come, but the trees do not: in each child
list stand the same slots (`SameNode`). A row of the grown table is measured like the row of
slots it reads as (`forall₂_answers`), so what is left to be filled in the one is what is left in
the other, and of rows of slots this is known.

When the first filling had gone through, nothing is left, and the table stays what it is.
-/

namespace RakuTree.Arena

open Outline
open List (Perm Forall₂)

variable {g : GapSource} {a b d : Arena} {r j k : NodeId} {n : Nat} {done : Prop}
  {t u v : Outline}

/-! ### Rows of a table that has grown -/

/-- A new token `l` starts and ends where its range does. -/
theorem Reads.measure_new {l : Leaf} (h : Reads n b k (.new l)) :
    (b.node k).start = l.span.start ∧ b.outerEnd k = l.span.stop := by
  obtain ⟨-, hlt, hnode⟩ := h
  have hhangs : Hangs b (.node k []) := by
    refine .node hlt ?_ (by simp)
    rw [hnode]
    rfl
  have hends : EndsAt b k (b.outerEnd k) := hhangs.endsAt (by simp [ids, idsList]) (by simp [ids])
  have hhere : EndsAt b k (b.node k).stop := by
    apply EndsAt.here
    left
    rw [hnode]
    simp [Node.ofElement, Node.kind?, Element.cls, Class.kind?]
  rw [hends.unique hhere, hnode]
  exact ⟨rfl, rfl⟩

/-- A slot of a row of the grown table `b` stands for a slot of the row before. -/
def Answers (n : Nat) (b : Arena) : Slot → Slot → Prop
  | .old k, s => Reads n b k s
  | .new l, s => s = .new l

/-- Rows are measured alike in `a` and `b` if old children are. -/
theorem forall₂_answers {ks : List NodeId} {slots : List Slot} (h : Forall₂ (Reads n b) ks slots)
    (hold : ∀ i ∈ slots.filterMap Slot.old?,
      (b.node i).start = (a.node i).start ∧ b.outerEnd i = a.outerEnd i) :
    Forall₂ (fun x y => Answers n b x y ∧ b.items.startOf x = a.items.startOf y ∧
      b.items.endOf x = a.items.endOf y) (ks.map .old) slots := by
  induction h with
  | nil => exact .nil
  | @cons k s ks slots hk _ ih =>
      rw [List.map_cons]
      cases s with
      | old i =>
          rw [List.filterMap_cons_some (f := Slot.old?) rfl] at hold
          obtain ⟨hfirst, hrest⟩ := List.forall_mem_cons.mp hold
          obtain ⟨rfl, hlt⟩ := hk
          exact .cons ⟨⟨rfl, hlt⟩, hfirst⟩ (ih hrest)
      | new l =>
          rw [List.filterMap_cons_none (f := Slot.old?) rfl] at hold
          exact .cons ⟨hk, hk.measure_new⟩ (ih hold)

namespace Grown

/-- A new token `j` has no children. -/
theorem children_fresh (h : Grown g a done a b [t] [u]) (hj : a.size ≤ j) (hlt : j < b.size) :
    (b.node j).children = [] := by
  obtain ⟨l, -, hnode⟩ := h.fresh j hj hlt
  rw [hnode]
  rfl

/-- Only nodes of `t`, which were there, have children. -/
theorem mem_of_children (h : Grown g a done a b [t] [u]) (hj : j ∈ idsList [u])
    (hne : (b.node j).children ≠ []) : j ∈ idsList [t] := by
  rcases h.mem_ids.mp hj with hold | ⟨hge, hlt⟩
  · exact hold
  · exact absurd (h.children_fresh hge hlt) hne

theorem row_answers (h : Grown g a done a b [t] [u]) (huntouched : Untouched a a [t])
    (hj : j ∈ idsList [t]) {slots : List Slot}
    (hreads : Forall₂ (Reads a.size b) (b.node j).children slots) (hrow : a.PartlyRow g j slots) :
    Forall₂ (fun x y => Answers a.size b x y ∧ b.items.startOf x = a.items.startOf y ∧
      b.items.endOf x = a.items.endOf y) ((b.node j).children.map .old) slots := by
  apply forall₂_answers hreads
  intro i hi
  rw [hrow.filterMap_old?] at hi
  have hmem := huntouched.child_mem hj hi
  exact ⟨h.start_eq hmem, h.outerEnd_eq huntouched hmem⟩

/-- Where all gaps of `a` can be read, those that are left in `b` can be. -/
theorem canFill (h : Grown g a done a b [t] [u]) (huntouched : Untouched a a [t])
    (hg : g.strict = false) (hcan : a.CanFill g (idsList [t])) : b.CanFill g (idsList [u]) := by
  intro j hj p hp
  rw [gapsAt] at hp
  by_cases hnil : (b.node j).children = []
  · rw [if_pos hnil] at hp
    exact absurd hp List.not_mem_nil
  · rw [if_neg hnil] at hp
    have hold := h.mem_of_children hj hnil
    have hne : ¬(a.node j).children = [] := fun hch => hnil ((h.children_eq_nil_iff hold).mpr hch)
    obtain ⟨slots, hreads, hrow, -⟩ := h.rows j hold
    have hgaps := GapSource.gaps_congr ((h.row_answers huntouched hold hreads hrow).imp
      fun _ _ hxy => hxy.2) ((b.outer j).map Prod.fst) ((b.outer j).map Prod.snd)
    rw [hgaps, h.outer_eq hold] at hp
    have hreadable : ∀ p ∈ a.items.gaps ((a.outer j).map Prod.fst)
        ((a.node j).children.map .old) ((a.outer j).map Prod.snd), g.Readable p.1 p.2 := by
      intro q hq
      rw [← GapSource.read_fault?_eq_none_iff hg]
      apply hcan j hold q
      rwa [gapsAt, if_neg hne]
    rw [PartlyRow, if_neg hne] at hrow
    rw [GapSource.read_fault?_eq_none_iff hg]
    exact hrow.readable hreadable p hp

/-- The row of `j` in the grown table, filled, is the row before, filled. -/
theorem filledRow_answers (h : Grown g a done a b [t] [u]) (huntouched : Untouched a a [t])
    (hj : j ∈ idsList [t]) : Forall₂ (Answers a.size b) (b.filledRow g j) (a.filledRow g j) := by
  by_cases hnil : (a.node j).children = []
  · rw [filledRow, filledRow, if_pos hnil, if_pos ((h.children_eq_nil_iff hj).mpr hnil)]
    exact .nil
  · have hne : ¬(b.node j).children = [] := fun hch => hnil ((h.children_eq_nil_iff hj).mp hch)
    obtain ⟨slots, hreads, hrow, -⟩ := h.rows j hj
    have hanswers := h.row_answers huntouched hj hreads hrow
    rw [PartlyRow, if_neg hnil] at hrow
    rw [filledRow, filledRow, if_neg hnil, if_neg hne, h.outer_eq hj, ← hrow.withLayout_eq]
    exact GapSource.forall₂_withLayout hanswers (fun _ => rfl) _ _

/-- A node `k` that came new in a first run stays in a second. -/
theorem node_fresh (h : Grown g a done a b [t] [u]) (h' : Grown g b True b d [u] [v])
    (hk : a.size ≤ k) (hlt : k < b.size) : d.node k = b.node k := by
  have hmem : k ∈ idsList [u] := h.mem_ids.mpr (.inr ⟨hk, hlt⟩)
  have hnil := h.children_fresh hk hlt
  have hnil' := (h'.children_eq_nil_iff hmem).mpr hnil
  have hkept := h'.kept k hmem
  rwa [hnil, ← hnil'] at hkept

/-- What a second run reads as a slot of the grown table is, in the end, a slot of the first
(`Answers`). -/
theorem reads_of_answers (h : Grown g a done a b [t] [u]) (h' : Grown g b True b d [u] [v])
    {ks : List NodeId} {xs ys : List Slot} (hks : Forall₂ (Reads b.size d) ks xs)
    (hxs : Forall₂ (Answers a.size b) xs ys) : Forall₂ (Reads a.size d) ks ys := by
  induction hks generalizing ys with
  | nil =>
      rw [List.forall₂_nil_left_iff.mp hxs]
      exact .nil
  | @cons k x ks xs hk _ ih =>
      cases hxs with
      | @cons _ y _ ys hxy hrest =>
          refine .cons ?_ (ih hrest)
          cases x with
          | old i =>
              obtain ⟨rfl, hlt⟩ := hk
              exact Reads.mono hxy h'.size fun m hm hmlt => h.node_fresh h' hm hmlt
          | new l =>
              obtain rfl : y = .new l := hxy
              exact ⟨Nat.le_trans h.size hk.1, hk.2⟩

/-- After a second run the row of `j` reads as the one before the first, filled. -/
theorem resume (h : Grown g a done a b [t] [u]) (huntouched : Untouched a a [t])
    (h' : Grown g b True b d [u] [v]) (hj : j ∈ idsList [t]) :
    Forall₂ (Reads a.size d) (d.node j).children (a.filledRow g j) := by
  obtain ⟨slots, hreads, -, hfull⟩ := h'.rows j (h.mem_ids.mpr (.inl hj))
  rw [hfull trivial] at hreads
  exact h.reads_of_answers h' hreads (h.filledRow_answers huntouched hj)

/-- Nothing comes into the row of `j` if it is filled. -/
theorem filledRow_eq (h : Grown g a True a b [t] [u]) (huntouched : Untouched a a [t])
    (hj : j ∈ idsList [u]) : b.filledRow g j = (b.node j).children.map .old := by
  by_cases hnil : (b.node j).children = []
  · rw [filledRow, if_pos hnil, hnil, List.map_nil]
  · have hold := h.mem_of_children hj hnil
    obtain ⟨slots, hreads, -, hfull⟩ := h.rows j hold
    have hsub : ((b.node j).children.map Slot.old).Sublist (b.filledRow g j) := by
      rw [filledRow, if_neg hnil]
      exact GapSource.sublist_withLayout _ _ _ _ _
    have hlength : ((b.node j).children.map Slot.old).length = (b.filledRow g j).length := by
      rw [(h.filledRow_answers huntouched hold).length_eq, List.length_map, hreads.length_eq,
        hfull trivial]
    exact (hsub.eq_of_length hlength).symm

/-- A second run over a tree that is filled leaves the table `b` as it is. -/
theorem eq_of_filled (h : Grown g a True a b [t] [u]) (huntouched : Untouched a a [t])
    (h' : Grown g b True b d [u] [v]) : d = b := by
  have hchildren : ∀ j ∈ idsList [u], (d.node j).children = (b.node j).children := by
    intro j hj
    obtain ⟨slots, hreads, -, hfull⟩ := h'.rows j hj
    rw [hfull trivial, h.filledRow_eq huntouched hj, List.forall₂_map_right_iff] at hreads
    have heq := hreads.imp fun k m hkm => hkm.1
    rwa [List.forall₂_eq_eq_eq] at heq
  -- a new node would have to be the child of a node, but no child list has changed
  have hsize : d.size = b.size := by
    by_contra hne
    have hlt : b.size < d.size := Nat.lt_of_le_of_ne h'.size fun heq => hne heq.symm
    have hmem : b.size ∈ idsList [v] := h'.mem_ids.mpr (.inr ⟨Nat.le_refl _, hlt⟩)
    have hroot : b.size ≠ v.root := by
      have hroots := h'.roots.trans h.roots
      rw [List.map_singleton, List.map_singleton] at hroots
      have hlt := huntouched.lt_size (idsList_singleton t ▸ root_mem_ids t)
      rw [(List.cons.inj hroots).1]
      exact Nat.ne_of_gt (Nat.lt_of_lt_of_le hlt h.size)
    rw [idsList_singleton] at hmem
    obtain ⟨p, hp, hchild⟩ := (h'.hangs v List.mem_cons_self).exists_parent hmem hroot
    rcases h'.mem_ids.mp (idsList_singleton v ▸ hp) with hold | ⟨hge, hnew⟩
    · rw [hchildren p hold] at hchild
      obtain ⟨w, hw, hpw⟩ := mem_idsList.mp hold
      have hbound := (h.hangs w hw).lt_size _ ((h.hangs w hw).child_mem_ids hpw hchild)
      exact absurd hbound (Nat.lt_irrefl _)
    · rw [h'.children_fresh hge hnew] at hchild
      exact absurd hchild List.not_mem_nil
  refine eq_of_node_eq hsize fun j hj => ?_
  by_cases hmem : j ∈ idsList [u]
  · have hkept := h'.kept j hmem
    rwa [← hchildren j hmem] at hkept
  · exact h'.others j hj hmem

end Grown

/-! ### Fillings in a row -/

/-- Two tables have the same node `j`, and the same slots in its child list: children that are
among the first `n` nodes, and tokens that came later and whose numbers do not matter. -/
def SameNode (n : Nat) (b d : Arena) (j : NodeId) : Prop :=
  { d.node j with children := [] } = { b.node j with children := [] } ∧
    ∃ slots, Forall₂ (Reads n b) (b.node j).children slots ∧
      Forall₂ (Reads n d) (d.node j).children slots

/-- Whether the first run was `strict` makes no difference for what it left behind. -/
theorem Grown.of_strict {strict : Bool} {c : Arena} {ts us : List Outline}
    (h : Grown { g with strict } a done c b ts us) : Grown g a False c b ts us :=
  { h with
    rows := fun j hj => by
      obtain ⟨slots, hreads, hrow, -⟩ := h.rows j hj
      refine ⟨slots, hreads, ?_, False.elim⟩
      unfold PartlyRow at hrow ⊢
      by_cases hnil : (a.node j).children = []
      · rw [if_pos hnil] at hrow ⊢
        exact hrow
      · rw [if_neg hnil] at hrow ⊢
        exact hrow.of_strict }

/-- A tree that was filled, however far, can be filled if it could be from the start, by `CanFill`.
-/
theorem Grown.fill_again (h : Grown g a done a b [t] [u]) (huntouched : Untouched a a [t])
    (hroot : u.root = t.root) (hg : g.strict = false) (hcan : a.CanFill g t.ids) :
    ∃ d log v, b.fill g t.root = ⟨d, log, none⟩ ∧ Grown g b True b d [u] [v] := by
  have hnodup : u.ids.Nodup := by
    have hids := h.nodup huntouched
    rwa [idsList_singleton] at hids
  obtain ⟨⟨v, -, hgrown⟩, hiff⟩ := fill_outcome (h.hangs u List.mem_cons_self) hnodup g
  have hfault : (b.fill g u.root).fault? = none := by
    rw [hiff, ← idsList_singleton]
    apply h.canFill huntouched hg
    rwa [idsList_singleton]
  rw [hroot] at hgrown hfault
  refine ⟨(b.fill g t.root).value, (b.fill g t.root).events, v, ?_, hgrown.mono fun _ => hfault⟩
  rw [← hfault]

/-- **Filling is idempotent and can be resumed.** Take a tree in a table that a lenient filling
fills. Filling it once more changes nothing in the table. Wherever a strict filling of the tree
stopped, a lenient one goes on from there and comes to the tree that the lenient filling alone
comes to: nodes that were there are the same, and so are the tokens between them. -/
theorem lenient_fill_idempotent_and_resumable (htree : a.IsPlainTree r) (src : Text)
    (docs : HereDocs) {log : List Event} (hfill : a.fill ⟨src, docs, false⟩ r = ⟨b, log, none⟩) :
    (∃ log, b.fill ⟨src, docs, false⟩ r = ⟨b, log, none⟩) ∧
    (∀ c log fault?, a.fill ⟨src, docs, true⟩ r = ⟨c, log, fault?⟩ →
      ∃ d log, c.fill ⟨src, docs, false⟩ r = ⟨d, log, none⟩ ∧
        (∀ j ∈ a.walk r, SameNode a.size b d j) ∧
        (∀ j < a.size, j ∉ a.walk r → d.node j = b.node j)) := by
  obtain ⟨t, rfl, hangs, hnodup⟩ := htree
  have huntouched := untouched_self hangs hnodup
  obtain ⟨⟨u, hroot, hgrown⟩, hiff⟩ := fill_outcome hangs hnodup ⟨src, docs, false⟩
  rw [hfill] at hgrown hiff
  have hfilled := hgrown.mono fun _ : True => rfl
  have hcan := hiff.mp rfl
  constructor
  · obtain ⟨d, log, v, hagain, hgrown'⟩ := hfilled.fill_again huntouched hroot rfl hcan
    rw [hfilled.eq_of_filled huntouched hgrown'] at hagain
    exact ⟨log, hagain⟩
  · intro c log fault? hstrict
    obtain ⟨⟨w, hroot', hgrown'⟩, -⟩ := fill_outcome hangs hnodup ⟨src, docs, true⟩
    rw [hstrict] at hgrown'
    have hstopped : Grown ⟨src, docs, false⟩ a False a c [t] [w] := hgrown'.of_strict
    obtain ⟨d, log, v, hagain, hresumed⟩ := hstopped.fill_again huntouched hroot' rfl hcan
    have hkept : ∀ j ∈ idsList [t], { d.node j with children := [] } =
        { a.node j with children := [] } := by
      intro j hj
      have hfirst := hstopped.kept j hj
      have hsecond := hresumed.kept j (hstopped.mem_ids.mpr (.inl hj))
      rw [← hfirst, ← hsecond]
    refine ⟨d, log, hagain, ?_, ?_⟩
    · intro j hj
      rw [hangs.walk_eq hnodup, ← idsList_singleton] at hj
      obtain ⟨slots, hreads, -, hfull⟩ := hfilled.rows j hj
      refine ⟨?_, slots, hreads, ?_⟩
      · rw [hkept j hj, ← hfilled.kept j hj]
      · rw [hfull trivial]
        exact hstopped.resume huntouched hresumed hj
    · intro j hj hmem
      rw [hangs.walk_eq hnodup, ← idsList_singleton] at hmem
      have hnew : j ∉ idsList [w] := by
        rw [hstopped.mem_ids]
        exact not_or.mpr ⟨hmem, fun hge => absurd hj (Nat.not_lt.mpr hge.1)⟩
      rw [hresumed.others j (Nat.lt_of_lt_of_le hj hstopped.size) hnew, hstopped.others j hj hmem,
        hfilled.others j hj hmem]

/-- The tree `sampleGappy` as far as a strict filling gets: it stops at the text that is no layout.
-/
def sampleStopped : Arena := ((ofElement sampleGappy).fill ⟨sampleGaps, {}, true⟩ 0).value

theorem sample_fill_resumes :
    ((ofElement sampleGappy).fill ⟨sampleGaps, {}, true⟩ 0).fault? =
      some (.gap (.unclassified ['z', 'z'] 2)) ∧
    (sampleStopped.node 0).children = [1, 2, 7, 5] ∧
    (∃ log, sampleFilled.fill ⟨sampleGaps, {}, false⟩ 0 = ⟨sampleFilled, log, none⟩) ∧
    ∃ d log, sampleStopped.fill ⟨sampleGaps, {}, false⟩ 0 = ⟨d, log, none⟩ ∧
      (∀ j ∈ (ofElement sampleGappy).walk 0, SameNode 6 sampleFilled d j) := by
  obtain ⟨hagain, hresume⟩ := lenient_fill_idempotent_and_resumable
    (isPlainTree_ofElement sampleGappy) sampleGaps {} sample_fill
  obtain ⟨d, log, hd, hsame, -⟩ := hresume _ _ _ rfl
  exact ⟨by decide +kernel, by decide +kernel, hagain, d, log, hd, hsame⟩

end RakuTree.Arena
