import RakuTree.Proofs.Filled.Grown

/-!
# RakuTree.Proofs.Filled.Run

What a run of filling does to a table.

`Grown.node` is the step: once the trees below a node are filled, putting new tokens into its
child list fills the tree of the node. A run is put together from such steps along the outline
of the tree, and stops where a gap cannot be read (`fillWithin_outcome`). The bound on the depth
is never felt, since a tree in a table is not deeper than the table is large.
-/

namespace RakuTree.Arena

open Outline
open List (Perm Forall₂)

variable {g : GapSource} {a b c d : Arena} {i j n : NodeId} {done : Prop}

/-! ### One node -/

/-- A child list that is numbered by `settle` reads as the slots it was made of. -/
theorem Untouched.settle_reads {ks : List Outline} {slots : List Slot}
    (huntouched : Untouched a c [.node i ks]) (hsize : a.size ≤ b.size)
    (hrow : a.PartlyRow g i slots) :
    Forall₂ (Reads a.size (b.settle slots).1) (b.settle slots).2 slots := by
  apply Arena.settle_reads hsize
  intro k hk
  have hmem : k ∈ slots.filterMap Slot.old? := List.mem_filterMap.mpr ⟨_, hk, rfl⟩
  rw [hrow.filterMap_old?] at hmem
  exact huntouched.lt_size (huntouched.child_mem (Untouched.root_mem i ks) hmem)

/-- Once the trees below the node `i` are filled, new tokens may come into its own child list. Only
that list is written to. -/
theorem Grown.node {ks ls : List Outline} {slots : List Slot} (h : Grown g a done c b ks ls)
    (huntouched : Untouched a c [.node i ks]) (hrow : a.PartlyRow g i slots)
    (hfull : done → slots = a.filledRow g i) (hsize : d.size = (b.settle slots).1.size)
    (hself : d.node i = { a.node i with children := (b.settle slots).2 })
    (hother : ∀ j, j ≠ i → d.node j = (b.settle slots).1.node j) :
    ∃ ms, Grown g a done c d [.node i ks] [.node i ms] := by
  have hnotMem := huntouched.notMem_kids
  have hia : i < a.size := huntouched.lt_size (Untouched.root_mem i ks)
  have hic : i < c.size := Nat.lt_of_lt_of_le hia huntouched.size
  have hib : i < b.size := Nat.lt_of_lt_of_le hic h.size
  have hbsize : b.size ≤ d.size := Nat.le_trans (size_le_settle b slots) (Nat.le_of_eq hsize.symm)
  -- all but the node itself is as the trees below left it, or new
  have hbelow : ∀ j, j < b.size → j ≠ i → d.node j = b.node j := by
    intro j hj hji
    rw [hother j hji, node_settle hj]
  have hnew : ∀ j, a.size ≤ j → j ≠ i := fun j hj hji => absurd hia (Nat.not_lt.mpr (hji ▸ hj))
  have hlater : ∀ j, j ∈ idsList ks ∨ (a.size ≤ j ∧ j < b.size) → d.node j = b.node j := by
    intro j hj
    rcases hj with hj | ⟨hge, hlt⟩
    · refine hbelow j ?_ fun hji => hnotMem (hji ▸ hj)
      exact Nat.lt_of_lt_of_le (huntouched.kids.lt_size hj) (Nat.le_trans huntouched.size h.size)
    · exact hbelow j hlt (hnew j hge)
  have hroots : slots.filterMap Slot.old? = ls.map Outline.root := by
    rw [hrow.filterMap_old?, huntouched.children_eq, h.roots]
  obtain ⟨ms, hmroots, hmids, hms⟩ := settle_outlines (a := b) hroots
  refine ⟨ms, Nat.le_trans h.size hbsize, ?_, ?_, ?_, ?_, ?_, rfl, ?_⟩
  · intro j hj hmem
    rw [idsList_node, List.mem_cons, not_or] at hmem
    rw [hbelow j (Nat.lt_of_lt_of_le hj h.size) hmem.1, h.others j hj hmem.2]
  · intro j hj
    rw [idsList_node, List.mem_cons] at hj
    rcases hj with rfl | hj
    · rw [hself]
    · exact h.kept_later hlater hj
  · intro j hj
    rw [idsList_node, List.mem_cons] at hj
    rcases hj with rfl | hj
    · refine ⟨slots, ?_, hrow, hfull⟩
      rw [hself]
      have hreads := huntouched.settle_reads (Nat.le_trans huntouched.size h.size) hrow
      exact hreads.imp fun k s hk => hk.mono (Nat.le_of_eq hsize.symm) fun m hm _ =>
        hother m (hnew m hm)
    · exact h.rows_later hlater hbsize hj
  · intro j hj hlt
    have hji := hnew j (Nat.le_trans huntouched.size hj)
    by_cases hjb : j < b.size
    · rw [hbelow j hjb hji]
      exact h.fresh j hj hjb
    · obtain ⟨l, hl, hleaf⟩ := settle_fresh (Nat.not_lt.mp hjb) (hsize ▸ hlt)
      exact ⟨l, hrow.isLayout hl, (hother j hji).trans hleaf⟩
  · intro t ht
    rw [List.mem_singleton] at ht
    subst ht
    refine .node (Nat.lt_of_lt_of_le hib hbsize) ?_ ?_
    · rw [hself, hmroots]
    · intro k hk
      rcases hms k hk with hold | ⟨j, hj, hlt, rfl⟩
      · exact h.hangs_later hlater huntouched.size hbsize hold
      · obtain ⟨l, -, hleaf⟩ := settle_fresh hj hlt
        have hji := hnew j (Nat.le_trans (Nat.le_trans huntouched.size h.size) hj)
        refine .node (hsize ▸ hlt) ?_ (by simp)
        rw [hother j hji, hleaf]
        rfl
  · rw [idsList_node, idsList_node, range'_split h.size hbsize, hsize, List.cons_append,
      ← List.append_assoc]
    exact (hmids.trans (h.ids.append_right _)).cons i

/-- A run that stops below the node `i` leaves the child list of the node alone. -/
theorem Grown.node_of_stop {ks ls : List Outline} (h : Grown g a done c b ks ls)
    (huntouched : Untouched a c [.node i ks]) :
    ∃ ms, Grown g a False c b [.node i ks] [.node i ms] := by
  have hsettle := settle_old b (a.node i).children
  refine (h.mono False.elim).node huntouched (PartlyRow.refl a g i) False.elim ?_ ?_ ?_
  · rw [hsettle]
  · rw [hsettle, h.root_eq huntouched]
  · intro j _
    rw [hsettle]

/-! ### Runs -/

/-- The table that a run leaves behind, whether it is `ok` or an `error`. -/
def after : EStateM.Result Fault FillState Unit → Arena
  | .ok _ s => s.arena
  | .error _ s => s.arena

/-- The fault that stopped a run, if it is an `error`. -/
def stoppedBy : EStateM.Result Fault FillState Unit → Option Fault
  | .ok _ _ => none
  | .error e _ => some e

theorem fill_eq (a : Arena) (g : GapSource) (i : NodeId) :
    (a.fill g i).value = after ((fillWithin g a.size i).run { arena := a }) ∧
      (a.fill g i).fault? = stoppedBy ((fillWithin g a.size i).run { arena := a }) := by
  rw [fill]
  cases (fillWithin g a.size i).run { arena := a } with
  | ok _ s => exact ⟨rfl, rfl⟩
  | error e s => exact ⟨rfl, rfl⟩

theorem fillChildren_of_nil {s : FillState} (h : (s.arena.node i).children = []) :
    (fillChildren g i).run s = .ok () s := by
  simp only [fillChildren, EStateM.run_bind, EStateM.run_get, h]
  rfl

theorem fillChildren_of_cons {s : FillState} {k : NodeId} {ks : List NodeId}
    (h : (s.arena.node i).children = k :: ks) {x : Filling (List Slot)}
    (hx : g.fillList s.arena.items.ofLeaf s.arena.items.startOf s.arena.items.endOf
      (s.arena.outer i) (.old k) (ks.map .old) = x) :
    after ((fillChildren g i).run s) =
        (s.arena.settle x.value).1.setChildren i (s.arena.settle x.value).2 ∧
      stoppedBy ((fillChildren g i).run s) = x.fault? := by
  simp only [fillChildren, EStateM.run_bind, EStateM.run_get, h]
  generalize hy : g.fillList Slot.new _ _ _ _ _ = y
  obtain rfl : y = x := hy.symm.trans hx
  cases hfault : y.fault? with
  | none => exact ⟨rfl, rfl⟩
  | some e => exact ⟨rfl, rfl⟩

theorem run_seq_of_ok {x y : EStateM Fault FillState Unit} {s t : FillState}
    (h : x.run s = .ok () t) : (x >>= fun _ => y).run s = y.run t := by
  rw [EStateM.run_bind, h]

theorem run_seq_of_error {x y : EStateM Fault FillState Unit} {s t : FillState} {e : Fault}
    (h : x.run s = .error e t) : (x >>= fun _ => y).run s = .error e t := by
  rw [EStateM.run_bind, h]

/-- All gaps of the nodes `js` can be read. -/
def CanFill (a : Arena) (g : GapSource) (js : List NodeId) : Prop :=
  ∀ j ∈ js, ∀ p ∈ a.gapsAt j, (g.read p.1 p.2).fault? = none

/-- The outcome `r` of filling the trees `ts`: they have grown, and the run went through if all
their gaps can be read. -/
def Outcome (g : GapSource) (a c : Arena) (ts : List Outline)
    (r : EStateM.Result Fault FillState Unit) : Prop :=
  (∃ us, Grown g a (stoppedBy r = none) c (after r) ts us) ∧
    (stoppedBy r = none ↔ a.CanFill g (idsList ts))

/-- The `Outcome` of filling the child list of the node `i` once the trees below it are filled. -/
theorem fillChildren_outcome {ks ls : List Outline} {s : FillState}
    (h : Grown g a True c s.arena ks ls) (huntouched : Untouched a c [.node i ks])
    (hkids : a.CanFill g (idsList ks)) :
    Outcome g a c [.node i ks] ((fillChildren g i).run s) := by
  have hnode : s.arena.node i = a.node i := h.root_eq huntouched
  -- what is left of the condition are the gaps of the node itself
  have hcanFill : a.CanFill g (idsList [.node i ks]) ↔
      ∀ p ∈ a.gapsAt i, (g.read p.1 p.2).fault? = none := by
    rw [CanFill, idsList_node, List.forall_mem_cons]
    exact and_iff_left hkids
  rw [Outcome, hcanFill]
  cases hch : (a.node i).children with
  | nil =>
      have hrun : (fillChildren g i).run s = .ok () s := fillChildren_of_nil (hnode ▸ hch)
      obtain rfl : ks = [] := List.map_eq_nil_iff.mp (huntouched.children_eq.symm.trans hch)
      have hself : Grown g a True s.arena s.arena [.node i []] [.node i []] := by
        refine .refl (h.untouched huntouched fun j _ => List.not_mem_nil) fun _ j hj => ?_
        rw [idsList_node, idsList, List.mem_singleton] at hj
        rw [hj, hch]
      rw [hrun, gapsAt, if_pos hch]
      exact ⟨⟨_, (h.append hself huntouched).mono fun _ => trivial⟩, by simp [stoppedBy]⟩
  | cons k rest =>
      obtain ⟨hafter, hstopped⟩ := fillChildren_of_cons (hnode ▸ hch) (h.fillList_eq huntouched hch)
      have hfills := g.fills_fillList a.items (a.outer i) (Slot.old k) (rest.map .old)
      generalize g.fillList a.items.ofLeaf a.items.startOf a.items.endOf (a.outer i) (Slot.old k)
        (rest.map .old) = x at hfills hafter hstopped
      have hne : ¬(a.node i).children = [] := by simp [hch]
      have his : i < s.arena.size := Nat.lt_of_lt_of_le
        (huntouched.lt_size (Untouched.root_mem i ks)) (Nat.le_trans huntouched.size h.size)
      rw [hafter, hstopped]
      constructor
      · have hrow : a.PartlyRow g i x.value := by
          rw [PartlyRow, if_neg hne, hch]
          exact hfills.partly
        have hfull : x.fault? = none → x.value = a.filledRow g i := by
          intro hnone
          rw [filledRow, if_neg hne, hch]
          exact hfills.full hnone
        have hself : ((s.arena.settle x.value).1.setChildren i (s.arena.settle x.value).2).node i =
            { a.node i with children := (s.arena.settle x.value).2 } := by
          rw [setChildren, node_update_self (Nat.lt_of_lt_of_le his (size_le_settle _ _)),
            node_settle his, hnode]
        obtain ⟨ms, hms⟩ := (h.mono fun _ => trivial).node huntouched hrow hfull (size_update _ _ _)
          hself fun j hj => node_update_of_ne hj _
        exact ⟨_, hms⟩
      · rw [gapsAt, if_neg hne, hch]
        exact hfills.fault?_eq_none_iff

mutual

/-- The `Outcome` of filling a tree `t` by `fillWithin`. -/
theorem fillWithin_outcome (t : Outline) {depth : Nat} {s : FillState}
    (huntouched : Untouched a s.arena [t]) (hdepth : t.ids.length ≤ depth) :
    Outcome g a s.arena [t] ((fillWithin g depth t.root).run s) := by
  cases t with
  | node i ks =>
      rw [ids, List.length_cons] at hdepth
      cases depth with
      | zero => exact absurd hdepth (Nat.not_succ_le_zero _)
      | succ depth =>
          have hstart : (fillWithin g (depth + 1) i).run s =
              ((s.arena.node i).children.forM (fillWithin g depth) >>= fun _ =>
                fillChildren g i).run s := rfl
          have hkids := forM_fillWithin_outcome ks huntouched.kids (Nat.le_of_succ_le_succ hdepth)
          rw [← huntouched.children_eq, ← huntouched.same i (Untouched.root_mem i ks)] at hkids
          rw [Outline.root, hstart]
          obtain ⟨⟨ls, hgrown⟩, hiff⟩ := hkids
          cases hrun : ((s.arena.node i).children.forM (fillWithin g depth)).run s with
          | ok u s' =>
              rw [hrun] at hgrown hiff
              rw [run_seq_of_ok hrun]
              exact fillChildren_outcome (hgrown.mono fun _ => rfl) huntouched (hiff.mp rfl)
          | error e s' =>
              rw [hrun] at hgrown hiff
              rw [run_seq_of_error hrun]
              obtain ⟨ms, hms⟩ := hgrown.node_of_stop huntouched
              refine ⟨⟨_, hms.mono fun hnone => nomatch hnone⟩, ?_⟩
              refine ⟨fun hnone => (nomatch hnone), fun hcan => ?_⟩
              rw [idsList_node] at hcan
              exact nomatch hiff.mpr fun j hj => hcan j (List.mem_cons_of_mem _ hj)

/-- The `Outcome` of filling some trees `ts` in a row. -/
theorem forM_fillWithin_outcome (ts : List Outline) {depth : Nat} {s : FillState}
    (huntouched : Untouched a s.arena ts) (hdepth : (idsList ts).length ≤ depth) :
    Outcome g a s.arena ts (((ts.map Outline.root).forM (fillWithin g depth)).run s) := by
  cases ts with
  | nil =>
      refine ⟨⟨[], .refl huntouched ?_⟩, ?_⟩
      · simp [idsList]
      · simp [stoppedBy, CanFill, idsList]
  | cons t ts =>
      rw [idsList, List.length_append] at hdepth
      have hrest := huntouched.sublist (List.sublist_cons_self t ts)
      have hfirst : Untouched a s.arena [t] := huntouched.sublist (by simp)
      have hstart : (((t :: ts).map Outline.root).forM (fillWithin g depth)).run s =
          (fillWithin g depth t.root >>= fun _ =>
            (ts.map Outline.root).forM (fillWithin g depth)).run s := rfl
      have hcan : a.CanFill g (idsList (t :: ts)) ↔
          a.CanFill g (idsList [t]) ∧ a.CanFill g (idsList ts) := by
        rw [CanFill, idsList, List.forall_mem_append, idsList, idsList, List.append_nil]
        rfl
      have hdisjoint : ∀ j ∈ idsList ts, j ∉ idsList [t] := by
        have hnodup := huntouched.nodup
        rw [idsList, List.nodup_append] at hnodup
        rw [idsList, idsList, List.append_nil]
        exact fun j hj hjt => hnodup.2.2 j hjt j hj rfl
      obtain ⟨⟨us, hgrown⟩, hiff⟩ := fillWithin_outcome t hfirst
        (Nat.le_trans (Nat.le_add_right _ _) hdepth)
      rw [hstart]
      cases hrun : (fillWithin g depth t.root).run s with
      | ok u s' =>
          rw [hrun] at hgrown hiff
          rw [run_seq_of_ok hrun]
          obtain ⟨⟨vs, hgrown'⟩, hiff'⟩ := forM_fillWithin_outcome (s := s') ts
            (hgrown.untouched hrest hdisjoint) (Nat.le_trans (Nat.le_add_left _ _) hdepth)
          refine ⟨⟨us ++ vs, (hgrown.mono fun _ => rfl).append hgrown' huntouched⟩, ?_⟩
          rw [hiff', hcan]
          exact (and_iff_right (hiff.mp rfl)).symm
      | error e s' =>
          rw [hrun] at hgrown hiff
          rw [run_seq_of_error hrun]
          have hstays : Grown g a False s'.arena s'.arena ts ts :=
            .refl (hgrown.untouched hrest hdisjoint) False.elim
          refine ⟨⟨us ++ ts, ((hgrown.mono False.elim).append hstays huntouched).mono
            fun hnone => nomatch hnone⟩, ?_⟩
          refine ⟨fun hnone => (nomatch hnone), fun hall => ?_⟩
          exact nomatch hiff.mpr (hcan.mp hall).1

end

end RakuTree.Arena
