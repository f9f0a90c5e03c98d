import RakuTree.Proofs.Filled.Table

/-!
# RakuTree.Proofs.Filled.Grown

Runs of filling a tree in a table.

Filling goes down a tree by its child lists while it writes to them. It is compared with the
table `a` as it was before. A run takes trees that nothing was done to yet (`Untouched`) to trees
that are `Grown`: their nodes have changed in their child lists only, each child list is a row
of the table before with the layout of some gaps in it, and all other nodes are as they were.

The children of a node are filled before the node, so its row is measured in another table than
`a`. It makes no difference: nothing that was there moves, and where a contextualizer ends is
up to its last child, which stays the last (`Grown.outerEnd_eq`). What one node adds is said by
`Grown.node`, and runs are put together in `fillWithin_outcome`.
-/

namespace RakuTree.Arena

open Outline
open List (Perm Forall₂)

variable {g : GapSource} {a b c d : Arena} {i j n : NodeId} {ts us ts' us' : List Outline}
  {done : Prop}

/-! ### Where nodes end -/

/-- All that node `i` covers ends at an offset. -/
inductive EndsAt (a : Arena) : NodeId → Int → Prop
  /-- The node `i` ends where its range ends, if it is no contextualizer with children. -/
  | here {i : NodeId}
      (h : (a.node i).kind? ≠ some .contextualizer ∨ (a.node i).children = []) :
      EndsAt a i (a.node i).stop
  /-- A contextualizer `i` ends where its last child ends. -/
  | last {i k : NodeId} {e : Int} (hkind : (a.node i).kind? = some .contextualizer)
      (hlast : (a.node i).children.getLast? = some k) (h : EndsAt a k e) : EndsAt a i e

theorem EndsAt.unique {x y : Int} (hx : EndsAt a i x) (hy : EndsAt a i y) : x = y := by
  induction hx with
  | here h =>
      cases hy with
      | here _ => rfl
      | last hkind hlast _ =>
          rcases h with h | h
          · exact absurd hkind h
          · rw [h] at hlast
            exact nomatch hlast
  | last hkind hlast _ ih =>
      cases hy with
      | here h =>
          rcases h with h | h
          · exact absurd hkind h
          · rw [h] at hlast
            exact nomatch hlast
      | last _ hlast' h =>
          obtain rfl := Option.some.inj (hlast.symm.trans hlast')
          exact ih h

theorem Hangs.endsAt_within {t : Outline} (h : Hangs a t) {depth : Nat}
    (hdepth : t.ids.length ≤ depth) : EndsAt a t.root (a.outerEndWithin depth t.root) := by
  induction h generalizing depth with
  | @node i ks hi hch hks ih =>
      rw [ids, List.length_cons] at hdepth
      cases depth with
      | zero => exact absurd hdepth (Nat.not_succ_le_zero _)
      | succ depth =>
          rw [Outline.root, outerEndWithin]
          split
          · rename_i k hkind hlast
            rw [hch, List.getLast?_map] at hlast
            obtain ⟨t, ht, rfl⟩ := Option.map_eq_some_iff.mp hlast
            have hmem : t ∈ ks := List.mem_of_getLast? ht
            have hlength := length_ids_le hmem
            refine .last hkind ?_ (ih t hmem (by omega))
            rw [hch, List.getLast?_map, ht]
            rfl
          · rename_i hno
            by_cases hkind : (a.node i).kind? = some .contextualizer
            · refine .here (.inr ?_)
              cases hlast : (a.node i).children.getLast? with
              | none => exact List.getLast?_eq_none_iff.mp hlast
              | some k => exact absurd hlast (hno k hkind)
            · exact .here (.inl hkind)

/-- Every node of a tree ends where the table says, by `outerEnd`. -/
theorem Hangs.endsAt {t : Outline} (h : Hangs a t) (hnodup : t.ids.Nodup) (hj : j ∈ t.ids) :
    EndsAt a j (a.outerEnd j) := by
  obtain ⟨u, rfl, hu, hsub⟩ := h.exists_part hj
  exact hu.endsAt_within (hu.length_le_size (hnodup.sublist hsub))

/-! ### Before and after -/

/-- Trees of the table `a` that stand in the table `c` as they were. -/
structure Untouched (a c : Arena) (ts : List Outline) : Prop where
  /-- The trees `ts` were trees of the table `a`. -/
  hangs : ∀ t ∈ ts, Hangs a t
  /-- No node occurs twice in `ts`. -/
  nodup : (idsList ts).Nodup
  /-- Nodes may have come to the table: `c` is no smaller than `a`. -/
  size : a.size ≤ c.size
  /-- The trees `ts` are in `c` as they were in `a`. -/
  same : ∀ j ∈ idsList ts, c.node j = a.node j

/-- Trees `ts` of the table `a` that were filled between the tables `c` and `b`, and came to
`us`. If the filling is done, no gap is left. -/
structure Grown (g : GapSource) (a : Arena) (done : Prop) (c b : Arena) (ts us : List Outline) :
    Prop where
  /-- Nodes are only added from `c` to `b`. -/
  size : c.size ≤ b.size
  /-- Nodes that are not in `ts` stay. -/
  others : ∀ j < c.size, j ∉ idsList ts → b.node j = c.node j
  /-- Nodes in `ts` only change in their child lists. -/
  kept : ∀ j ∈ idsList ts, { b.node j with children := (a.node j).children } = a.node j
  /-- Child lists have the layout of some gaps in them, and of all gaps if the run is `done`. -/
  rows : ∀ j ∈ idsList ts, ∃ slots, Forall₂ (Reads a.size b) (b.node j).children slots ∧
    a.PartlyRow g j slots ∧ (done → slots = a.filledRow g j)
  /-- New nodes are layout, by `Layout.isLayout`. -/
  fresh : ∀ j, c.size ≤ j → j < b.size →
    ∃ l, Layout.isLayout l.cls = true ∧ b.node j = Node.ofElement j (.leaf l) []
  /-- The trees `us` that have come of `ts` are trees of the table `b`. -/
  hangs : ∀ t ∈ us, Hangs b t
  /-- The trees `us` have the same roots as `ts`. -/
  roots : us.map Outline.root = ts.map Outline.root
  /-- The trees `us` hold what `ts` held before, and each new node once. -/
  ids : Perm (idsList us) (idsList ts ++ List.range' c.size (b.size - c.size))

theorem Untouched.lt_size (h : Untouched a c ts) (hj : j ∈ idsList ts) : j < a.size := by
  obtain ⟨t, ht, hj⟩ := mem_idsList.mp hj
  exact (h.hangs t ht).lt_size j hj

theorem Untouched.child_mem (h : Untouched a c ts) (hj : j ∈ idsList ts)
    (hi : i ∈ (a.node j).children) : i ∈ idsList ts := by
  obtain ⟨t, ht, hj⟩ := mem_idsList.mp hj
  exact mem_idsList.mpr ⟨t, ht, (h.hangs t ht).child_mem_ids hj hi⟩

theorem Untouched.endsAt (h : Untouched a c ts) (hj : j ∈ idsList ts) :
    EndsAt a j (a.outerEnd j) := by
  obtain ⟨t, ht, hj⟩ := mem_idsList.mp hj
  exact (h.hangs t ht).endsAt (h.nodup.sublist (ids_sublist ht)) hj

/-- Of trees that are `Untouched`, some of them are. -/
theorem Untouched.sublist (h : Untouched a c us) (hts : ts.Sublist us) : Untouched a c ts where
  hangs := fun t ht => h.hangs t (hts.subset ht)
  nodup := h.nodup.sublist (idsList_sublist hts)
  size := h.size
  same := fun j hj => h.same j ((idsList_sublist hts).subset hj)

/-! What there is to a tree: its root and the trees below. -/

section Tree

variable {ks : List Outline}

theorem Untouched.root_mem (i : NodeId) (ks : List Outline) : i ∈ idsList [Outline.node i ks] := by
  rw [idsList_node]
  exact List.mem_cons_self

theorem Untouched.notMem_kids (h : Untouched a c [.node i ks]) : i ∉ idsList ks := by
  have hnodup := h.nodup
  rw [idsList_node, List.nodup_cons] at hnodup
  exact hnodup.1

theorem Untouched.children_eq (h : Untouched a c [.node i ks]) :
    (a.node i).children = ks.map Outline.root := by
  cases h.hangs _ List.mem_cons_self with
  | node _ hchildren _ => exact hchildren

theorem Untouched.kids (h : Untouched a c [.node i ks]) : Untouched a c ks where
  hangs := by
    cases h.hangs _ List.mem_cons_self with
    | node _ _ hks => exact hks
  nodup := by
    have hnodup := h.nodup
    rw [idsList_node, List.nodup_cons] at hnodup
    exact hnodup.2
  size := h.size
  same := by
    intro j hj
    refine h.same j ?_
    rw [idsList_node]
    exact List.mem_cons_of_mem _ hj

end Tree

namespace Grown

theorem mono {done' : Prop} (h : Grown g a done c b ts us) (himp : done' → done) :
    Grown g a done' c b ts us :=
  { h with
    rows := fun j hj => by
      obtain ⟨slots, hreads, hpartly, hfull⟩ := h.rows j hj
      exact ⟨slots, hreads, hpartly, fun hdone => hfull (himp hdone)⟩ }

/-- Where nothing was done, a table has `Grown` from itself. -/
theorem refl (h : Untouched a c ts) (hdone : done → ∀ j ∈ idsList ts, (a.node j).children = []) :
    Grown g a done c c ts ts where
  size := Nat.le_refl _
  others := fun _ _ _ => rfl
  kept := by
    intro j hj
    rw [h.same j hj]
  rows := by
    intro j hj
    refine ⟨(a.node j).children.map .old, ?_, PartlyRow.refl a g j, ?_⟩
    · rw [h.same j hj, List.forall₂_map_right_iff, List.forall₂_same]
      exact fun k hk => ⟨rfl, h.lt_size (h.child_mem hj hk)⟩
    · intro hd
      rw [filledRow, hdone hd j hj, if_pos rfl, List.map_nil]
  fresh := fun j hj hlt => absurd hlt (Nat.not_lt.mpr hj)
  hangs := by
    intro t ht
    refine (h.hangs t ht).congr h.size fun j hj => ?_
    rw [h.same j (mem_idsList.mpr ⟨t, ht, hj⟩)]
  roots := rfl
  ids := by simp

/-- Nodes of trees `ts'` that are filled later stay as they are. -/
theorem untouched (h : Grown g a done c b ts us) (hrest : Untouched a c ts')
    (hdisjoint : ∀ j ∈ idsList ts', j ∉ idsList ts) : Untouched a b ts' where
  hangs := hrest.hangs
  nodup := hrest.nodup
  size := Nat.le_trans hrest.size h.size
  same := by
    intro j hj
    rw [h.others j (Nat.lt_of_lt_of_le (hrest.lt_size hj) hrest.size) (hdisjoint j hj),
      hrest.same j hj]

theorem mem_ids (h : Grown g a done c b ts us) :
    j ∈ idsList us ↔ j ∈ idsList ts ∨ (c.size ≤ j ∧ j < b.size) := by
  have hsum : c.size + (b.size - c.size) = b.size := Nat.add_sub_cancel' h.size
  rw [h.ids.mem_iff, List.mem_append, List.mem_range'_1, hsum]

theorem nodup (h : Grown g a done c b ts us) (huntouched : Untouched a c ts) :
    (idsList us).Nodup := by
  rw [h.ids.nodup_iff, List.nodup_append]
  refine ⟨huntouched.nodup, List.nodup_range', ?_⟩
  intro x hx y hy
  rw [List.mem_range'_1] at hy
  have hlt := Nat.lt_of_lt_of_le (huntouched.lt_size hx) huntouched.size
  exact Nat.ne_of_lt (Nat.lt_of_lt_of_le hlt hy.1)

/-! What some trees came to stays as it is while nodes elsewhere change. -/

section Later

variable (h : Grown g a done c b ts us)
  (hnode : ∀ j, j ∈ idsList ts ∨ (a.size ≤ j ∧ j < b.size) → d.node j = b.node j)

include h hnode

theorem kept_later (hj : j ∈ idsList ts) :
    { d.node j with children := (a.node j).children } = a.node j := by
  rw [hnode j (.inl hj)]
  exact h.kept j hj

theorem rows_later (hsize : b.size ≤ d.size) (hj : j ∈ idsList ts) :
    ∃ slots, Forall₂ (Reads a.size d) (d.node j).children slots ∧
      a.PartlyRow g j slots ∧ (done → slots = a.filledRow g j) := by
  obtain ⟨slots, hreads, hpartly, hfull⟩ := h.rows j hj
  refine ⟨slots, ?_, hpartly, hfull⟩
  rw [hnode j (.inl hj)]
  exact hreads.imp fun k s hk => hk.mono hsize fun m hm hlt => hnode m (.inr ⟨hm, hlt⟩)

theorem hangs_later (hac : a.size ≤ c.size) (hsize : b.size ≤ d.size) {t : Outline} (ht : t ∈ us) :
    Hangs d t := by
  refine (h.hangs t ht).congr hsize fun j hj => ?_
  have hj' := h.mem_ids.mp (mem_idsList.mpr ⟨t, ht, hj⟩)
  rw [hnode j (hj'.imp_right fun hnew => ⟨Nat.le_trans hac hnew.1, hnew.2⟩)]

end Later

/-- The new numbers of one run, from `c` to `b`, and then of the next, from `b` to `d`. -/
theorem range'_split (hcb : c.size ≤ b.size) (hbd : b.size ≤ d.size) :
    List.range' c.size (d.size - c.size) =
      List.range' c.size (b.size - c.size) ++ List.range' b.size (d.size - b.size) := by
  have hb : b.size = c.size + (b.size - c.size) := by omega
  have hwidth : d.size - c.size = (b.size - c.size) + (d.size - b.size) := by omega
  rw [hwidth, ← List.range'_append_1, ← hb]

/-- The trees `ts'` are filled after the trees `ts`. -/
theorem append (h : Grown g a done c b ts us) (h' : Grown g a done b d ts' us')
    (huntouched : Untouched a c (ts ++ ts')) : Grown g a done c d (ts ++ ts') (us ++ us') := by
  have hsize := h.size
  have hsize' := h'.size
  have hac := huntouched.size
  have hnodup := huntouched.nodup
  rw [idsList_append, List.nodup_append] at hnodup
  have hlt : ∀ j ∈ idsList ts ++ idsList ts', j < a.size := by
    intro j hj
    rw [← idsList_append] at hj
    exact huntouched.lt_size hj
  -- what the second run leaves alone: all that the first one touched
  have hfirst : ∀ j, j ∈ idsList ts ∨ (a.size ≤ j ∧ j < b.size) → d.node j = b.node j := by
    intro j hj
    rcases hj with hj | ⟨hge, hj⟩
    · have hj' := hlt j (List.mem_append_left _ hj)
      exact h'.others j (Nat.lt_of_lt_of_le hj' (Nat.le_trans hac hsize)) fun hmem =>
        hnodup.2.2 j hj j hmem rfl
    · exact h'.others j hj fun hmem =>
        absurd (hlt j (List.mem_append_right _ hmem)) (Nat.not_lt.mpr hge)
  refine ⟨Nat.le_trans hsize hsize', ?_, ?_, ?_, ?_, ?_, ?_, ?_⟩
  · intro j hj hmem
    rw [idsList_append, List.mem_append, not_or] at hmem
    rw [h'.others j (by omega) hmem.2, h.others j hj hmem.1]
  · intro j hj
    rw [idsList_append, List.mem_append] at hj
    exact hj.elim (h.kept_later hfirst) (h'.kept j)
  · intro j hj
    rw [idsList_append, List.mem_append] at hj
    exact hj.elim (h.rows_later hfirst hsize') (h'.rows j)
  · intro j hj hjd
    by_cases hjb : j < b.size
    · rw [hfirst j (.inr ⟨by omega, hjb⟩)]
      exact h.fresh j hj hjb
    · exact h'.fresh j (by omega) hjd
  · intro t ht
    exact (List.mem_append.mp ht).elim (h.hangs_later hfirst hac hsize') (h'.hangs t)
  · rw [List.map_append, List.map_append, h.roots, h'.roots]
  · rw [idsList_append, idsList_append, range'_split hsize hsize']
    refine (h.ids.append h'.ids).trans ?_
    simp only [List.append_assoc]
    exact (List.perm_append_comm_assoc _ _ _).append_left _

/-! ### Measuring in a table that has grown -/

theorem cls_eq (h : Grown g a done c b ts us) (hj : j ∈ idsList ts) :
    (b.node j).cls = (a.node j).cls := by
  rw [← h.kept j hj]

theorem start_eq (h : Grown g a done c b ts us) (hj : j ∈ idsList ts) :
    (b.node j).start = (a.node j).start := by
  rw [← h.kept j hj]

theorem stop_eq (h : Grown g a done c b ts us) (hj : j ∈ idsList ts) :
    (b.node j).stop = (a.node j).stop := by
  rw [← h.kept j hj]

theorem kind?_eq (h : Grown g a done c b ts us) (hj : j ∈ idsList ts) :
    (b.node j).kind? = (a.node j).kind? := congrArg Class.kind? (h.cls_eq hj)

theorem outer_eq (h : Grown g a done c b ts us) (hj : j ∈ idsList ts) :
    b.outer j = a.outer j := by
  rw [outer, outer, h.kind?_eq hj, h.start_eq hj, h.stop_eq hj]

theorem children_eq_nil_iff (h : Grown g a done c b ts us) (hj : j ∈ idsList ts) :
    (b.node j).children = [] ↔ (a.node j).children = [] := by
  obtain ⟨slots, hreads, hpartly, -⟩ := h.rows j hj
  have hold := hpartly.filterMap_old?
  constructor
  · intro hnil
    rw [hnil, List.forall₂_nil_left_iff] at hreads
    rw [← hold, hreads, List.filterMap_nil]
  · intro hnil
    rw [PartlyRow, if_pos hnil] at hpartly
    rwa [hpartly, List.forall₂_nil_right_iff] at hreads

/-- The last child of a contextualizer `j` stays the last. -/
theorem getLast?_children (h : Grown g a done c b ts us) (hj : j ∈ idsList ts)
    (hkind : (a.node j).kind? = some .contextualizer) :
    (b.node j).children.getLast? = (a.node j).children.getLast? := by
  cases hch : (a.node j).children with
  | nil =>
      rw [(h.children_eq_nil_iff hj).mpr hch]
  | cons k ks =>
      obtain ⟨slots, hreads, hpartly, -⟩ := h.rows j hj
      have houter : a.outer j = none := by
        rw [outer, hkind, if_neg (by simp)]
      rw [PartlyRow, hch, if_neg (List.cons_ne_nil _ _), houter] at hpartly
      have hlast := hpartly.getLast?_eq
      rw [← List.map_cons, List.getLast?_map, List.getLast?_eq_some_getLast (List.cons_ne_nil k ks),
        Option.map_some, List.getLast?_eq_head?_reverse] at hlast
      rw [List.getLast?_eq_some_getLast (List.cons_ne_nil k ks), List.getLast?_eq_head?_reverse]
      have hreverse := List.forall₂_reverse_iff.mpr hreads
      cases hslots : slots.reverse with
      | nil =>
          rw [hslots] at hlast
          exact nomatch hlast
      | cons s rest =>
          rw [hslots] at hlast hreverse
          obtain rfl := Option.some.inj hlast
          cases hids : (b.node j).children.reverse with
          | nil =>
              rw [hids] at hreverse
              exact nomatch hreverse
          | cons m ms =>
              rw [hids, List.forall₂_cons] at hreverse
              exact congrArg some hreverse.1.1

theorem endsAt (h : Grown g a done c b ts us) (huntouched : Untouched a c ts) {e : Int}
    (he : EndsAt a j e) (hj : j ∈ idsList ts) : EndsAt b j e := by
  induction he with
  | @here i hend =>
      rw [← h.stop_eq hj]
      refine .here ?_
      rwa [h.kind?_eq hj, h.children_eq_nil_iff hj]
  | @last i k e hkind hlast _ ih =>
      refine .last ?_ ?_ (ih (huntouched.child_mem hj (List.mem_of_getLast? hlast)))
      · rw [h.kind?_eq hj, hkind]
      · rw [h.getLast?_children hj hkind, hlast]

/-- The node `j` of the trees ends where it ended. -/
theorem outerEnd_eq (h : Grown g a done c b ts us) (huntouched : Untouched a c ts)
    (hj : j ∈ idsList ts) : b.outerEnd j = a.outerEnd j := by
  have hbefore := h.endsAt huntouched (huntouched.endsAt hj) hj
  obtain ⟨u, hu, hju⟩ := mem_idsList.mp (h.mem_ids.mpr (.inl hj))
  have hafter := (h.hangs u hu).endsAt ((h.nodup huntouched).sublist (ids_sublist hu)) hju
  exact hafter.unique hbefore

section Node

variable {ks ls : List Outline} (h : Grown g a done c b ks ls)
  (huntouched : Untouched a c [.node i ks])

include h huntouched

/-- Filling the trees below the node `i` leaves the node alone. -/
theorem root_eq : b.node i = a.node i := by
  have hic := Nat.lt_of_lt_of_le (huntouched.lt_size (Untouched.root_mem i ks)) huntouched.size
  rw [h.others i hic huntouched.notMem_kids, huntouched.same i (Untouched.root_mem i ks)]

/-- The gaps of the node `i` can be filled as if nothing had happened below it. -/
theorem fillList_eq {k : NodeId} {rest : List NodeId} (hch : (a.node i).children = k :: rest) :
    g.fillList b.items.ofLeaf b.items.startOf b.items.endOf (b.outer i) (.old k) (rest.map .old) =
      g.fillList a.items.ofLeaf a.items.startOf a.items.endOf (a.outer i) (.old k)
        (rest.map .old) := by
  have hmeasure : ∀ x ∈ Slot.old k :: rest.map Slot.old,
      b.items.startOf x = a.items.startOf x ∧ b.items.endOf x = a.items.endOf x := by
    intro x hx
    rw [← List.map_cons, ← hch, huntouched.children_eq] at hx
    obtain ⟨j, hj, rfl⟩ := List.mem_map.mp hx
    have hj' : j ∈ idsList ks := (map_root_sublist ks).subset hj
    exact ⟨h.start_eq hj', h.outerEnd_eq huntouched.kids hj'⟩
  have houter : b.outer i = a.outer i := by
    rw [outer, outer, h.root_eq huntouched]
  rw [houter]
  exact GapSource.fillList_congr (I := b.items) (J := a.items) rfl hmeasure (a.outer i)

end Node

end Grown

end RakuTree.Arena
