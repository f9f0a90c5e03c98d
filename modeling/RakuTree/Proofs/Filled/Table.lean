import RakuTree.Arena.Fill
import RakuTree.Proofs.Arena.Numbered
import RakuTree.Proofs.Filled.Row

/-!
# RakuTree.Proofs.Filled.Table

Child lists of a table as rows.

A child list is a row of slots: children that were there, and new tokens. The row is measured in
the table as it was before (`items`), and `filledRow` is the row with the layout of all its gaps.
New tokens get the next free numbers when the row is put into the table; `Reads` says which
numbers then stand for which slots. The table grows by the new tokens and by nothing else, and no
node that was in it changes.
-/

namespace RakuTree.Arena

open Outline
open List (Perm Forall₂)

variable {g : GapSource} {a b c d : Arena} {i j n : NodeId}

/-! ### Child lists as rows -/

/-- Where the items of a child list start and end: an `old` child as in the table, and a `new` token
by its range. -/
def items (a : Arena) : Items Slot where
  ofLeaf := .new
  startOf := fun
    | .old j => (a.node j).start
    | .new l => l.span.start
  endOf := fun
    | .old j => a.outerEnd j
    | .new l => l.span.stop
  startOf_ofLeaf := fun _ => rfl
  endOf_ofLeaf := fun _ => rfl

/-- The range of node `i`, if it counts as the outside of the child list. -/
def outer (a : Arena) (i : NodeId) : Option (Int × Int) :=
  if (a.node i).kind? = some .branch then some ((a.node i).start, (a.node i).stop) else none

/-- The gaps in the child list of node `i`. A node without children has none. -/
def gapsAt (a : Arena) (i : NodeId) : List (Int × Int) :=
  if (a.node i).children = [] then []
  else a.items.gaps ((a.outer i).map Prod.fst) ((a.node i).children.map .old)
    ((a.outer i).map Prod.snd)

/-- The child list of node `i` with the layout of all its gaps. -/
def filledRow (a : Arena) (g : GapSource) (i : NodeId) : List Slot :=
  if (a.node i).children = [] then []
  else g.withLayout a.items ((a.outer i).map Prod.fst) ((a.node i).children.map .old)
    ((a.outer i).map Prod.snd)

/-- The child list of node `i` with the layout of some of its gaps. -/
def PartlyRow (a : Arena) (g : GapSource) (i : NodeId) (slots : List Slot) : Prop :=
  if (a.node i).children = [] then slots = []
  else g.Partly a.items ((a.outer i).map Prod.fst) ((a.node i).children.map .old)
    ((a.outer i).map Prod.snd) slots

/-- Node `j` of table `b` is what a slot says: one of the first `n` nodes, or a token that came
later. -/
def Reads (n : Nat) (b : Arena) (j : NodeId) : Slot → Prop
  | .old i => j = i ∧ i < n
  | .new l => n ≤ j ∧ j < b.size ∧ b.node j = Node.ofElement j (.leaf l) []

/-- The child in a slot, if it is an `old` one. -/
def Slot.old? : Slot → Option NodeId
  | .old i => some i
  | .new _ => none

theorem filterMap_old? (ks : List NodeId) : (ks.map Slot.old).filterMap Slot.old? = ks := by
  rw [List.filterMap_map]
  exact List.filterMap_some

theorem PartlyRow.refl (a : Arena) (g : GapSource) (i : NodeId) :
    a.PartlyRow g i ((a.node i).children.map .old) := by
  unfold PartlyRow
  split
  · rename_i hnil
    rw [hnil, List.map_nil]
  · exact .refl _ _ _ _ _

theorem PartlyRow.filterMap_old? {slots : List Slot} (h : a.PartlyRow g i slots) :
    slots.filterMap Slot.old? = (a.node i).children := by
  unfold PartlyRow at h
  split at h
  · rename_i hnil
    rw [h, hnil, List.filterMap_nil]
  · rw [h.filterMap_eq fun _ => rfl, Arena.filterMap_old?]

/-- What is `new` in a child list is layout. -/
theorem PartlyRow.isLayout {slots : List Slot} (h : a.PartlyRow g i slots) {l : Leaf}
    (hl : Slot.new l ∈ slots) : Layout.isLayout l.cls = true := by
  unfold PartlyRow at h
  split at h
  · rw [h] at hl
    exact absurd hl List.not_mem_nil
  · rcases h.mem _ hl with hold | ⟨l', x, y, hl', hmem⟩
    · obtain ⟨k, -, hk⟩ := List.mem_map.mp hold
      exact nomatch hk
    · obtain rfl := Slot.new.inj hl'
      exact (g.layout_isLayout x y _ hmem).1

theorem Reads.mono {s : Slot} (h : Reads n b j s) (hsize : b.size ≤ d.size)
    (hsame : ∀ k, n ≤ k → k < b.size → d.node k = b.node k) : Reads n d j s := by
  cases s with
  | old i => exact h
  | new l =>
      obtain ⟨hn, hlt, hnode⟩ := h
      exact ⟨hn, Nat.lt_of_lt_of_le hlt hsize, (hsame j hn hlt).trans hnode⟩

/-! ### New tokens -/

theorem size_add_leaf (a : Arena) (l : Leaf) : (a.add (.leaf l)).size = a.size + 1 := by
  rw [size, add, Array.size_append]
  rfl

theorem node_add_leaf (a : Arena) (l : Leaf) :
    (a.add (.leaf l)).node a.size = Node.ofElement a.size (.leaf l) [] := by
  rw [node, add, Array.getElem?_append_right (show a.nodes.size ≤ a.size from Nat.le_refl _)]
  simp [size, Element.nodesFrom]

/-- Without `new` tokens there is nothing for `settle` to add. -/
theorem settle_old (a : Arena) (ids : List NodeId) : a.settle (ids.map .old) = (a, ids) := by
  induction ids with
  | nil => rfl
  | cons i ids ih => rw [List.map_cons, settle, ih]

theorem size_le_settle (a : Arena) (slots : List Slot) : a.size ≤ (a.settle slots).1.size := by
  induction slots generalizing a with
  | nil => exact Nat.le_refl _
  | cons s slots ih =>
      cases s with
      | old i => exact ih a
      | new l => exact Nat.le_trans (size_le_add a _) (ih _)

/-- Adding tokens by `settle` changes no node. -/
theorem node_settle {slots : List Slot} (hj : j < a.size) :
    (a.settle slots).1.node j = a.node j := by
  induction slots generalizing a with
  | nil => rfl
  | cons s slots ih =>
      cases s with
      | old i => exact ih hj
      | new l =>
          rw [← node_add (e := .leaf l) hj]
          exact ih (Nat.lt_of_lt_of_le hj (size_le_add a _))

theorem node_settle_new (a : Arena) (l : Leaf) (slots : List Slot) :
    a.size < (a.settle (.new l :: slots)).1.size ∧
      (a.settle (.new l :: slots)).1.node a.size = Node.ofElement a.size (.leaf l) [] := by
  have hsize := size_add_leaf a l
  have hlt : a.size < (a.add (.leaf l)).size := by omega
  refine ⟨Nat.lt_of_lt_of_le hlt (size_le_settle _ slots), ?_⟩
  rw [← node_add_leaf a l]
  exact node_settle hlt

/-- The numbers that `settle` puts in a child list read as its slots. -/
theorem settle_reads {slots : List Slot} (hn : n ≤ a.size)
    (hold : ∀ i, Slot.old i ∈ slots → i < n) :
    Forall₂ (Reads n (a.settle slots).1) (a.settle slots).2 slots := by
  induction slots generalizing a with
  | nil => exact .nil
  | cons s slots ih =>
      have hrest : ∀ i, Slot.old i ∈ slots → i < n := fun i hi => hold i (List.mem_cons_of_mem _ hi)
      cases s with
      | old i => exact .cons ⟨rfl, hold i List.mem_cons_self⟩ (ih hn hrest)
      | new l =>
          obtain ⟨hlt, hnode⟩ := node_settle_new a l slots
          exact .cons ⟨hn, hlt, hnode⟩ (ih (Nat.le_trans hn (size_le_add a _)) hrest)

/-- What the table grows by in `settle` are the new tokens. -/
theorem settle_fresh {slots : List Slot} (hj : a.size ≤ j) (hlt : j < (a.settle slots).1.size) :
    ∃ l, Slot.new l ∈ slots ∧ (a.settle slots).1.node j = Node.ofElement j (.leaf l) [] := by
  induction slots generalizing a with
  | nil => exact absurd hlt (Nat.not_lt.mpr hj)
  | cons s slots ih =>
      cases s with
      | old i =>
          obtain ⟨l, hl, hnode⟩ := ih hj hlt
          exact ⟨l, List.mem_cons_of_mem _ hl, hnode⟩
      | new l =>
          rcases Nat.lt_or_eq_of_le hj with hgt | rfl
          · have hsize := size_add_leaf a l
            obtain ⟨l', hl', hnode⟩ := ih (a := a.add (.leaf l)) (by omega) hlt
            exact ⟨l', List.mem_cons_of_mem _ hl', hnode⟩
          · exact ⟨l, List.mem_cons_self, (node_settle_new a l slots).2⟩

/-- With the new tokens as trees of their own, the trees below a child list hold what they held
before and the numbers that `settle` gave. -/
theorem settle_outlines {slots : List Slot} {ks : List Outline}
    (h : slots.filterMap Slot.old? = ks.map Outline.root) :
    ∃ ls : List Outline, ls.map Outline.root = (a.settle slots).2 ∧
      Perm (idsList ls)
        (idsList ks ++ List.range' a.size ((a.settle slots).1.size - a.size)) ∧
      ∀ l ∈ ls, l ∈ ks ∨ ∃ j, a.size ≤ j ∧ j < (a.settle slots).1.size ∧ l = .node j [] := by
  induction slots generalizing a ks with
  | nil =>
      obtain rfl : ks = [] := List.map_eq_nil_iff.mp h.symm
      refine ⟨[], rfl, ?_, ?_⟩
      · simp [settle]
      · simp
  | cons s slots ih =>
      cases s with
      | old i =>
          obtain ⟨k, ks, rfl, rfl, hks⟩ := List.map_eq_cons_iff.mp h.symm
          obtain ⟨ls, hroots, hids, hls⟩ := ih (a := a) hks.symm
          refine ⟨k :: ls, ?_, ?_, ?_⟩
          · rw [List.map_cons, hroots]
            rfl
          · rw [idsList, idsList, List.append_assoc]
            exact hids.append_left _
          · intro l hl
            rcases List.mem_cons.mp hl with rfl | hl
            · exact .inl List.mem_cons_self
            · exact (hls l hl).imp_left (List.mem_cons_of_mem _)
      | new l =>
          have hsize := size_add_leaf a l
          have hle := size_le_settle (a.add (.leaf l)) slots
          obtain ⟨ls, hroots, hids, hls⟩ := ih (a := a.add (.leaf l)) h
          -- the new number comes first among those that the table grows by
          have hrange : List.range' a.size ((a.settle (.new l :: slots)).1.size - a.size) =
              a.size :: List.range' (a.add (.leaf l)).size
                (((a.add (.leaf l)).settle slots).1.size - (a.add (.leaf l)).size) := by
            have hnew : (a.settle (.new l :: slots)).1 = ((a.add (.leaf l)).settle slots).1 := rfl
            have hwidth : (a.settle (.new l :: slots)).1.size - a.size =
                (((a.add (.leaf l)).settle slots).1.size - (a.add (.leaf l)).size) + 1 := by
              rw [hnew]
              omega
            rw [hwidth, List.range'_succ, hsize]
          refine ⟨.node a.size [] :: ls, ?_, ?_, ?_⟩
          · rw [List.map_cons, hroots]
            rfl
          · rw [hrange, idsList, ids, idsList]
            exact (hids.cons _).trans List.perm_middle.symm
          · intro k hk
            rcases List.mem_cons.mp hk with rfl | hk
            · exact .inr ⟨a.size, Nat.le_refl _, (node_settle_new a l slots).1, rfl⟩
            · refine (hls k hk).imp_right ?_
              rintro ⟨j, hj, hlt, rfl⟩
              exact ⟨j, by omega, hlt, rfl⟩

end RakuTree.Arena
