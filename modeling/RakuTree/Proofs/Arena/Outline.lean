import RakuTree.Proofs.Arena.Update
import Mathlib.Data.List.Perm.Basic

/-!
# RakuTree.Proofs.Arena.Outline

Trees inside a table.

A table is a heap of nodes that name their children by number, and nothing in it says
that this makes trees. An `Outline` is a tree of numbers; it `Hangs` in a table when the
child lists of the table say the same, and it `Fits` when the kinds of the nodes allow the
children they have. With all numbers different, it stands for a tree in which each node
occurs once, and the bounded recursions of the table give what plain recursion on the
outline gives (`Hangs.walk_eq`).

Editing the tree edits the child list of one node. `Focus` takes an outline apart around
that node; removing a child and putting one in are then two cases of replacing its
children, and the numbers in front and behind stay where they are.
-/

namespace RakuTree.Arena

open List (Perm)

/-- A tree of numbers, each a `NodeId`. -/
inductive Outline
  /-- The node `i` and its children. -/
  | node (i : NodeId) (kids : List Outline)

namespace Outline

/-- The number at the root of an `Outline`. -/
def root : Outline → NodeId
  | node i _ => i

/-- The trees below the root of an `Outline`. -/
def kids : Outline → List Outline
  | node _ ks => ks

mutual

/-- All numbers of an `Outline`, parents first. -/
def ids : Outline → List NodeId
  | node i ks => i :: idsList ks

/-- All numbers of some trees in a row, each by `ids`. -/
def idsList : List Outline → List NodeId
  | [] => []
  | k :: ks => k.ids ++ idsList ks

end

@[simp] theorem idsList_append (ks ls : List Outline) :
    idsList (ks ++ ls) = idsList ks ++ idsList ls := by
  induction ks with
  | nil => simp [idsList]
  | cons k ks ih => simp [idsList, ih]

theorem idsList_node (i : NodeId) (ks : List Outline) :
    idsList [node i ks] = i :: idsList ks := by
  simp [idsList, ids]

theorem mem_idsList {j : NodeId} {ks : List Outline} : j ∈ idsList ks ↔ ∃ k ∈ ks, j ∈ k.ids := by
  induction ks with
  | nil => simp [idsList]
  | cons k ks ih => simp [idsList, ih]

theorem root_mem_ids (t : Outline) : t.root ∈ t.ids := by
  cases t with
  | node i ks => simp [ids, root]

theorem ids_eq (t : Outline) : t.ids = t.root :: idsList t.kids := by
  cases t with
  | node i ks => rw [ids, root, kids]

theorem ids_sublist {k : Outline} {ks : List Outline} (hk : k ∈ ks) :
    k.ids.Sublist (idsList ks) := by
  obtain ⟨front, back, rfl⟩ := List.append_of_mem hk
  rw [idsList_append, idsList]
  exact (List.sublist_append_left _ _).trans (List.sublist_append_right _ _)

theorem idsList_sublist {ks ls : List Outline} (h : ks.Sublist ls) :
    (idsList ks).Sublist (idsList ls) := by
  induction h with
  | slnil => exact List.Sublist.refl _
  | cons k _ ih =>
      rw [idsList]
      exact ih.trans (List.sublist_append_right _ _)
  | cons_cons k _ ih =>
      rw [idsList, idsList]
      exact ih.append_left _

theorem length_ids_le {k : Outline} {ks : List Outline} (hk : k ∈ ks) :
    k.ids.length ≤ (idsList ks).length := (ids_sublist hk).length_le

theorem mem_ids_of_kid {k : Outline} {ks : List Outline} (hk : k ∈ ks) (i : NodeId) {j : NodeId}
    (hj : j ∈ k.ids) : j ∈ (node i ks).ids := by
  rw [ids]
  exact List.mem_cons_of_mem _ ((ids_sublist hk).subset hj)

theorem map_root_sublist (ks : List Outline) : (ks.map root).Sublist (idsList ks) := by
  induction ks with
  | nil => exact List.Sublist.refl _
  | cons k ks ih =>
      rw [List.map_cons, idsList, ids_eq, List.cons_append]
      exact (ih.trans (List.sublist_append_right _ _)).cons_cons _

end Outline

open Outline

/-! ### Outlines in a table -/

/-- The child lists of the table `a` make up the tree. -/
inductive Hangs (a : Arena) : Outline → Prop
  /-- The node `i` hangs together with its children `ks`. -/
  | node {i : NodeId} {ks : List Outline} (hi : i < a.size)
      (hchildren : (a.node i).children = ks.map Outline.root) (hks : ∀ k ∈ ks, Hangs a k) :
      Hangs a (.node i ks)

namespace Hangs

variable {a b : Arena} {t : Outline}

theorem lt_size (h : Hangs a t) : ∀ j ∈ t.ids, j < a.size := by
  induction h with
  | node hi _ _ ih =>
      intro j hj
      rw [ids, List.mem_cons] at hj
      rcases hj with rfl | hj
      · exact hi
      · obtain ⟨k, hk, hj⟩ := mem_idsList.mp hj
        exact ih k hk j hj

/-- Whether a tree `Hangs` together only depends on the child lists of its nodes. -/
theorem congr (h : Hangs a t) (hsize : a.size ≤ b.size)
    (hchildren : ∀ j ∈ t.ids, (b.node j).children = (a.node j).children) : Hangs b t := by
  induction h with
  | @node i ks hi hch _ ih =>
      refine .node (Nat.lt_of_lt_of_le hi hsize) ?_ ?_
      · rw [hchildren i (root_mem_ids _), hch]
      · intro k hk
        exact ih k hk fun j hj => hchildren j (mem_ids_of_kid hk i hj)

/-- A tree that `Hangs` in a table has no more nodes than the table. -/
theorem length_le_size (h : Hangs a t) (hnodup : t.ids.Nodup) : t.ids.length ≤ a.size := by
  have hsub : t.ids ⊆ List.range a.size := fun j hj => List.mem_range.mpr (h.lt_size j hj)
  have hle := (List.subperm_of_subset hnodup hsub).length_le
  rwa [List.length_range] at hle

theorem walkWithin_eq (h : Hangs a t) {depth : Nat} (hdepth : t.ids.length ≤ depth) :
    a.walkWithin depth t.root = t.ids := by
  induction h generalizing depth with
  | @node i ks _ hch _ ih =>
      rw [ids, List.length_cons] at hdepth
      cases depth with
      | zero => exact absurd hdepth (Nat.not_succ_le_zero _)
      | succ depth =>
          have hlist : ∀ ls : List Outline, ls ⊆ ks →
              (ls.map Outline.root).flatMap (a.walkWithin depth) = idsList ls := by
            intro ls hls
            induction ls with
            | nil => rw [idsList, List.map_nil, List.flatMap_nil]
            | cons l ls ihls =>
                have hl : l ∈ ks := hls List.mem_cons_self
                have hlength := length_ids_le hl
                rw [List.map_cons, List.flatMap_cons, ih l hl (by omega),
                  ihls fun k hk => hls (List.mem_cons_of_mem _ hk), idsList]
          rw [Outline.root, walkWithin, hch, hlist ks (List.Subset.refl _), ids]

/-- The nodes under the root of a tree, by `walk`, are the nodes of the tree. -/
theorem walk_eq (h : Hangs a t) (hnodup : t.ids.Nodup) : a.walk t.root = t.ids :=
  h.walkWithin_eq (h.length_le_size hnodup)

/-- Every node of a tree but its root is in one child list of the tree, once: `Perm` leaves the
order open. -/
theorem flatMap_children (h : Hangs a t) :
    Perm (t.ids.flatMap fun j => (a.node j).children) (idsList t.kids) := by
  induction h with
  | @node i ks _ hch _ ih =>
      have hlist : ∀ ls : List Outline, ls ⊆ ks →
          Perm (ls.map Outline.root ++ (idsList ls).flatMap fun j => (a.node j).children) (idsList ls) := by
        intro ls hls
        induction ls with
        | nil => simp [idsList]
        | cons l ls ihls =>
            have hl := ih l (hls List.mem_cons_self)
            have hrest := ihls fun k hk => hls (List.mem_cons_of_mem _ hk)
            rw [idsList, List.flatMap_append, List.map_cons, ids_eq l, List.cons_append,
              List.cons_append]
            refine List.Perm.cons _ ?_
            rw [← ids_eq l]
            refine (List.perm_append_comm_assoc _ _ _).trans ?_
            exact hl.append hrest
      rw [ids, List.flatMap_cons, hch, kids]
      exact hlist ks (List.Subset.refl _)

/-- Children of a node `p` of a tree are in the tree, below the root. -/
theorem child_mem (h : Hangs a t) {p j : NodeId} (hp : p ∈ t.ids)
    (hj : j ∈ (a.node p).children) : j ∈ idsList t.kids :=
  h.flatMap_children.mem_iff.mp (List.mem_flatMap.mpr ⟨p, hp, hj⟩)

theorem child_mem_ids (h : Hangs a t) {p j : NodeId} (hp : p ∈ t.ids)
    (hj : j ∈ (a.node p).children) : j ∈ t.ids := by
  rw [ids_eq]
  exact List.mem_cons_of_mem _ (h.child_mem hp hj)

/-- A node `j` of a tree that is not its root is a child of a node of the tree. -/
theorem exists_parent (h : Hangs a t) {j : NodeId} (hj : j ∈ t.ids) (hne : j ≠ t.root) :
    ∃ p ∈ t.ids, j ∈ (a.node p).children := by
  rw [ids_eq, List.mem_cons] at hj
  rcases hj with rfl | hj
  · exact absurd rfl hne
  · rw [← h.flatMap_children.mem_iff] at hj
    exact List.mem_flatMap.mp hj

/-- Every node `j` of a tree is the root of a part of it. -/
theorem exists_part (h : Hangs a t) {j : NodeId} (hj : j ∈ t.ids) :
    ∃ u, u.root = j ∧ Hangs a u ∧ u.ids.Sublist t.ids := by
  induction h with
  | @node i ks hi hch hks ih =>
      rw [ids, List.mem_cons] at hj
      rcases hj with rfl | hj
      · exact ⟨.node j ks, rfl, .node hi hch hks, List.Sublist.refl _⟩
      · obtain ⟨k, hk, hj⟩ := mem_idsList.mp hj
        obtain ⟨u, hroot, hu, hsub⟩ := ih k hk hj
        refine ⟨u, hroot, hu, ?_⟩
        rw [ids]
        exact (hsub.trans (ids_sublist hk)).trans (List.sublist_cons_self _ _)

end Hangs

/-! ### Outlines that fit -/

/-- The child lists of the table `a` make up the tree. Every node is of some kind, and leaves have
no children. -/
inductive Fits (a : Arena) : Outline → Prop
  /-- The node `i` fits with its children `ks`. -/
  | node {i : NodeId} {ks : List Outline} (hi : i < a.size)
      (hchildren : (a.node i).children = ks.map Outline.root) (hkind : (a.node i).kind? ≠ none)
      (hleaf : (a.node i).kind? = some .leaf → ks = []) (hks : ∀ k ∈ ks, Fits a k) :
      Fits a (.node i ks)

namespace Fits

variable {a b : Arena} {t : Outline}

theorem hangs (h : Fits a t) : Hangs a t := by
  induction h with
  | node hi hchildren _ _ _ ih => exact .node hi hchildren ih

theorem lt_size (h : Fits a t) : ∀ j ∈ t.ids, j < a.size := h.hangs.lt_size

/-- Whether an outline `Fits` only depends on the nodes in it. -/
theorem congr (h : Fits a t) (hsize : a.size ≤ b.size)
    (hcls : ∀ j ∈ t.ids, (b.node j).cls = (a.node j).cls)
    (hchildren : ∀ j ∈ t.ids, (b.node j).children = (a.node j).children) : Fits b t := by
  induction h with
  | @node i ks hi hch hkind hleaf _ ih =>
      have hself : i ∈ (Outline.node i ks).ids := root_mem_ids _
      have hmem : ∀ k ∈ ks, ∀ j ∈ k.ids, j ∈ (Outline.node i ks).ids := by
        intro k hk j hj
        rw [ids]
        exact List.mem_cons_of_mem _ (mem_idsList.mpr ⟨k, hk, hj⟩)
      have hkind' : (b.node i).kind? = (a.node i).kind? := congrArg Class.kind? (hcls i hself)
      refine .node (Nat.lt_of_lt_of_le hi hsize) ?_ ?_ ?_ ?_
      · rw [hchildren i hself, hch]
      · rw [hkind']
        exact hkind
      · rw [hkind']
        exact hleaf
      · intro k hk
        exact ih k hk (fun j hj => hcls j (hmem k hk j hj)) fun j hj => hchildren j (hmem k hk j hj)

theorem sameShape (h : Fits a t) (hab : SameShape a b) : Fits b t :=
  h.congr (Nat.le_of_eq hab.size.symm) (fun j _ => hab.cls j) fun j _ => hab.children j

theorem length_le_size (h : Fits a t) (hnodup : t.ids.Nodup) : t.ids.length ≤ a.size :=
  h.hangs.length_le_size hnodup

theorem walk_eq (h : Fits a t) (hnodup : t.ids.Nodup) : a.walk t.root = t.ids :=
  h.hangs.walk_eq hnodup

theorem flatMap_children (h : Fits a t) :
    Perm (t.ids.flatMap fun j => (a.node j).children) (idsList t.kids) := h.hangs.flatMap_children

theorem nodup_children (h : Fits a t) (hnodup : t.ids.Nodup) :
    (t.ids.flatMap fun j => (a.node j).children).Nodup := by
  rw [h.flatMap_children.nodup_iff]
  rw [ids_eq, List.nodup_cons] at hnodup
  exact hnodup.2

theorem exists_parent (h : Fits a t) {j : NodeId} (hj : j ∈ t.ids) (hne : j ≠ t.root) :
    ∃ p ∈ t.ids, j ∈ (a.node p).children := h.hangs.exists_parent hj hne

theorem child_mem (h : Fits a t) {p j : NodeId} (hp : p ∈ t.ids)
    (hj : j ∈ (a.node p).children) : j ∈ idsList t.kids := h.hangs.child_mem hp hj

theorem child_mem_ids (h : Fits a t) {p j : NodeId} (hp : p ∈ t.ids)
    (hj : j ∈ (a.node p).children) : j ∈ t.ids := h.hangs.child_mem_ids hp hj

/-- The root of a tree that `Fits` is no child of its nodes. -/
theorem root_notMem_children (h : Fits a t) (hnodup : t.ids.Nodup) {p : NodeId} (hp : p ∈ t.ids) :
    t.root ∉ (a.node p).children := by
  rw [ids_eq, List.nodup_cons] at hnodup
  exact fun hroot => hnodup.1 (h.child_mem hp hroot)

/-- Tables `a` and `b` that hold the same tree agree on its child lists. -/
theorem children_eq (ha : Fits a t) (hb : Fits b t) {j : NodeId} (hj : j ∈ t.ids) :
    (b.node j).children = (a.node j).children := by
  induction ha with
  | @node i ks _ hch _ _ _ ih =>
      cases hb with
      | node _ hch' _ _ hks' =>
          rw [ids, List.mem_cons] at hj
          rcases hj with rfl | hj
          · rw [hch, hch']
          · obtain ⟨k, hk, hj⟩ := mem_idsList.mp hj
            exact ih k hk (hks' k hk) hj

end Fits

/-! ### Replacing the children of one node -/

namespace Outline

mutual

/-- The tree with `ls` as the children of node `p`. -/
def replace (p : NodeId) (ls : List Outline) : Outline → Outline
  | node i ks => if i = p then node i ls else node i (replaceList p ls ks)

/-- Some trees with `ls` as the children of node `p`. -/
def replaceList (p : NodeId) (ls : List Outline) : List Outline → List Outline
  | [] => []
  | k :: ks => k.replace p ls :: replaceList p ls ks

end

variable {p : NodeId} {ls : List Outline}

@[simp] theorem root_replace (t : Outline) : (t.replace p ls).root = t.root := by
  cases t with
  | node i ks =>
      rw [replace]
      split
      · rfl
      · rfl

theorem replaceList_append (ks ms : List Outline) :
    replaceList p ls (ks ++ ms) = replaceList p ls ks ++ replaceList p ls ms := by
  induction ks with
  | nil => rw [replaceList, List.nil_append, List.nil_append]
  | cons k ks ih => rw [List.cons_append, replaceList, replaceList, ih, List.cons_append]

mutual

/-- Without node `p` there is nothing to replace. -/
theorem replace_of_notMem {t : Outline} (h : p ∉ t.ids) : t.replace p ls = t := by
  cases t with
  | node i ks =>
      rw [ids, List.mem_cons, not_or] at h
      rw [replace, if_neg fun hip => h.1 hip.symm, replaceList_of_notMem h.2]

theorem replaceList_of_notMem {ks : List Outline} (h : p ∉ idsList ks) :
    replaceList p ls ks = ks := by
  cases ks with
  | nil => rw [replaceList]
  | cons k ks =>
      rw [idsList, List.mem_append, not_or] at h
      rw [replaceList, replace_of_notMem h.1, replaceList_of_notMem h.2]

end

/-- What is replaced in the child `k` is replaced in the tree. -/
theorem replace_kid {i : NodeId} {left right : List Outline} {k : Outline} (hi : i ≠ p)
    (hleft : p ∉ idsList left) (hright : p ∉ idsList right) :
    (node i (left ++ k :: right)).replace p ls = node i (left ++ k.replace p ls :: right) := by
  rw [replace, if_neg hi, replaceList_append, replaceList, replaceList_of_notMem hleft,
    replaceList_of_notMem hright]

end Outline

/-- Node `p` of a tree has the children `ks`. The numbers of the tree are those in `front`,
then `p` and what stands below it, then those in `back`. -/
structure Focus (p : NodeId) (t : Outline) (ks : List Outline) (front back : List NodeId) :
    Prop where
  /-- The `front`, `p` with what is below, and the `back` are together the numbers of the tree `t`.
  -/
  ids : t.ids = front ++ p :: (idsList ks ++ back)
  /-- The node `p` fits with its children `ks` if the tree fits. -/
  fits : ∀ {a : Arena}, Fits a t → Fits a (.node p ks)
  /-- Replacing the children `ks` only replaces what stands below `p`. -/
  ids_replace : ∀ ls, (t.replace p ls).ids = front ++ p :: (idsList ls ++ back)
  /-- The tree fits again where the node `p` fits with its new children `ls`. -/
  fits_replace : ∀ {ls : List Outline} {a b : Arena}, Fits a t → a.size ≤ b.size →
    (∀ j ∈ t.ids, (b.node j).cls = (a.node j).cls) →
    (∀ j ∈ t.ids, j ≠ p → (b.node j).children = (a.node j).children) →
    Fits b (.node p ls) → Fits b (t.replace p ls)

/-- The root `p` is in `Focus`. -/
theorem focus_root (p : NodeId) (ks : List Outline) : Focus p (.node p ks) ks [] [] where
  ids := by rw [Outline.ids, List.nil_append, List.append_nil]
  fits := fun h => h
  ids_replace := by
    intro ls
    rw [replace, if_pos rfl, Outline.ids, List.nil_append, List.append_nil]
  fits_replace := by
    intro ls a b _ _ _ _ hnode
    rw [replace, if_pos rfl]
    exact hnode

/-- What is in `Focus` in one of the children is in focus in the tree. -/
theorem focus_kid {p i : NodeId} {left right ks : List Outline} {k : Outline}
    {front back : List NodeId} (h : Focus p k ks front back) (hi : i ≠ p)
    (hleft : p ∉ idsList left) (hright : p ∉ idsList right) :
    Focus p (.node i (left ++ k :: right)) ks (i :: (idsList left ++ front))
      (back ++ idsList right) := by
  have hreplace : ∀ ls, (Outline.node i (left ++ k :: right)).replace p ls =
      .node i (left ++ k.replace p ls :: right) := fun ls => replace_kid hi hleft hright
  refine ⟨?_, ?_, ?_, ?_⟩
  · rw [Outline.ids, idsList_append, idsList, h.ids]
    simp only [List.append_assoc, List.cons_append]
  · intro a hfits
    cases hfits with
    | node _ _ _ _ hks => exact h.fits (hks k (by simp))
  · intro ls
    rw [hreplace, Outline.ids, idsList_append, idsList, h.ids_replace]
    simp only [List.append_assoc, List.cons_append]
  · intro ls a b hfits hsize hcls hchildren hnode
    rw [hreplace]
    have hmem : ∀ l ∈ left ++ k :: right, ∀ j ∈ l.ids,
        j ∈ (Outline.node i (left ++ k :: right)).ids := by
      intro l hl j hj
      rw [Outline.ids]
      exact List.mem_cons_of_mem _ (mem_idsList.mpr ⟨l, hl, hj⟩)
    have hself : i ∈ (Outline.node i (left ++ k :: right)).ids := root_mem_ids _
    cases hfits with
    | node hlt hch hkind hleaf hks =>
        have hkind' : (b.node i).kind? = (a.node i).kind? := congrArg Class.kind? (hcls i hself)
        -- a sibling of the part in focus does not hold the node
        have hsibling : ∀ l ∈ left ++ k :: right, p ∉ l.ids → Fits b l := by
          intro l hl hp
          refine (hks l hl).congr hsize (fun j hj => hcls j (hmem l hl j hj)) fun j hj => ?_
          exact hchildren j (hmem l hl j hj) fun hjp => hp (hjp ▸ hj)
        refine .node (Nat.lt_of_lt_of_le hlt hsize) ?_ ?_ ?_ ?_
        · rw [hchildren i hself hi, hch]
          simp
        · rw [hkind']
          exact hkind
        · rw [hkind']
          intro hleaf'
          exact absurd (hleaf hleaf') (by simp)
        · intro l hl
          rcases List.mem_append.mp hl with hl | hl
          · exact hsibling l (List.mem_append_left _ hl) fun hp => hleft (mem_idsList.mpr ⟨l, hl, hp⟩)
          · rcases List.mem_cons.mp hl with rfl | hl
            · refine h.fits_replace (hks k (by simp)) hsize (fun j hj => ?_) (fun j hj hjp => ?_) hnode
              · exact hcls j (hmem k (by simp) j hj)
              · exact hchildren j (hmem k (by simp) j hj) hjp
            · exact hsibling l (by simp [hl]) fun hp => hright (mem_idsList.mpr ⟨l, hl, hp⟩)

/-- The numbers of a tree around one child `k` of the node in `Focus`. -/
theorem Focus.ids_child {p : NodeId} {t k : Outline} {left right : List Outline}
    {front back : List NodeId} (h : Focus p t (left ++ k :: right) front back) :
    t.ids = (front ++ p :: idsList left) ++ (k.ids ++ (idsList right ++ back)) := by
  rw [h.ids, idsList_append, idsList]
  simp only [List.append_assoc, List.cons_append]

/-- The numbers of a tree around other children `ls` of the node in `Focus`. -/
theorem Focus.ids_replace_child {p : NodeId} {t : Outline} {ks : List Outline}
    {front back : List NodeId} (h : Focus p t ks front back) (left ls right : List Outline) :
    (t.replace p (left ++ (ls ++ right))).ids =
      (front ++ p :: idsList left) ++ (idsList ls ++ (idsList right ++ back)) := by
  rw [h.ids_replace, idsList_append, idsList_append]
  simp only [List.append_assoc, List.cons_append]

/-! ### The way down to a node -/

/-- The tree `k` stands in a tree below the nodes of a path, nearest first. The tree has a place
for it, which may hold other trees as well. -/
inductive Route (k : Outline) : List NodeId → Outline → (List Outline → Outline) → Prop
  /-- The tree `k` is a child of the root `p`. -/
  | here {p : NodeId} {left right : List Outline} :
      Route k [p] (.node p (left ++ k :: right)) fun ls => .node p (left ++ (ls ++ right))
  /-- The tree `k` stands in the child `t` of the root `i`. -/
  | deeper {path : List NodeId} {t : Outline} {f : List Outline → Outline} {i : NodeId}
      {left right : List Outline} (h : Route k path t f) :
      Route k (path ++ [i]) (.node i (left ++ t :: right)) fun ls => .node i (left ++ f ls :: right)

/-- There is a `Route` down to every node `x` but the root. -/
theorem exists_route {x : NodeId} : ∀ t : Outline, x ∈ t.ids → x ≠ t.root →
    ∃ k path f, k.root = x ∧ Route k path t f := by
  intro ⟨i, ks⟩ hx hne
  rw [Outline.ids, List.mem_cons] at hx
  obtain ⟨k, hk, hxk⟩ := mem_idsList.mp (hx.resolve_left hne)
  obtain ⟨left, right, hks⟩ := List.append_of_mem hk
  by_cases hroot : x = k.root
  · exact ⟨k, _, _, hroot.symm, hks ▸ Route.here⟩
  · obtain ⟨l, path, f, hl, hroute⟩ := exists_route k hxk hroot
    exact ⟨l, _, _, hl, hks ▸ hroute.deeper⟩
termination_by t => t
decreasing_by
  have hlt := List.sizeOf_lt_of_mem hk
  simp only [Outline.node.sizeOf_spec]
  omega

namespace Route

variable {k t : Outline} {path : List NodeId} {f : List Outline → Outline}

theorem ids_subset (h : Route k path t f) : k.ids ⊆ t.ids := by
  induction h with
  | here => exact fun j hj => mem_ids_of_kid (by simp) _ hj
  | deeper _ ih => exact fun j hj => mem_ids_of_kid (by simp) _ (ih hj)

/-- The numbers of a tree around the place for `k`. -/
theorem exists_ids (h : Route k path t f) :
    ∃ front back, t.ids = front ++ (k.ids ++ back) ∧
      ∀ ls, (f ls).ids = front ++ (idsList ls ++ back) := by
  induction h with
  | @here p left right =>
      refine ⟨p :: idsList left, idsList right, ?_, fun ls => ?_⟩
      · simp [Outline.ids, idsList]
      · simp [Outline.ids]
  | @deeper path t f i left right _ ih =>
      obtain ⟨front, back, hids, hids'⟩ := ih
      refine ⟨i :: (idsList left ++ front), back ++ idsList right, ?_, fun ls => ?_⟩
      · simp [Outline.ids, idsList, hids]
      · simp [Outline.ids, idsList, hids']

theorem path_subset (h : Route k path t f) : path ⊆ t.ids := by
  induction h with
  | here => simp [Outline.ids]
  | deeper _ ih =>
      intro j hj
      rcases List.mem_append.mp hj with hj | hj
      · exact mem_ids_of_kid (by simp) _ (ih hj)
      · simp [Outline.ids, List.mem_singleton.mp hj]

/-- The nodes on the `path` are not below themselves. -/
theorem notMem_of_mem_path (h : Route k path t f) (hnodup : t.ids.Nodup) {j : NodeId}
    (hj : j ∈ path) : j ∉ k.ids := by
  induction h with
  | here =>
      rw [Outline.ids, List.nodup_cons] at hnodup
      rw [List.mem_singleton.mp hj]
      exact fun hjk => hnodup.1 (mem_idsList.mpr ⟨k, by simp, hjk⟩)
  | deeper h ih =>
      rw [Outline.ids, List.nodup_cons] at hnodup
      rcases List.mem_append.mp hj with hj | hj
      · exact ih (hnodup.2.sublist (ids_sublist (by simp))) hj
      · rw [List.mem_singleton.mp hj]
        exact fun hjk => hnodup.1 (mem_idsList.mpr ⟨_, by simp, h.ids_subset hjk⟩)

/-- The nodes on the `path` are no leaves. -/
theorem kind?_ne_leaf {a : Arena} (h : Route k path t f) (hfits : Fits a t) {j : NodeId}
    (hj : j ∈ path) : (a.node j).kind? ≠ some .leaf := by
  induction h with
  | here =>
      cases hfits with
      | node _ _ _ hleaf _ =>
          rw [List.mem_singleton.mp hj]
          exact fun hkind => by simpa using hleaf hkind
  | deeper _ ih =>
      cases hfits with
      | node _ _ _ hleaf hks =>
          rcases List.mem_append.mp hj with hj | hj
          · exact ih (hks _ (by simp)) hj
          · rw [List.mem_singleton.mp hj]
            exact fun hkind => by simpa using hleaf hkind

/-- The tree holds `k` in the place for it. -/
theorem self_eq (h : Route k path t f) : f [k] = t := by
  induction h with
  | here => rfl
  | deeper _ ih => simp only [ih]

/-- What is put into the place for `k` stands below the same nodes. -/
theorem among (h : Route k path t f) (u : Outline) (xs ys : List Outline) :
    Route u path (f (xs ++ u :: ys)) fun ls => f (xs ++ (ls ++ ys)) := by
  induction h with
  | @here p left right =>
      have hroute : Route u [p] (.node p ((left ++ xs) ++ u :: (ys ++ right)))
          fun ls => .node p ((left ++ xs) ++ (ls ++ (ys ++ right))) := .here
      simpa only [List.append_assoc, List.cons_append] using hroute
  | deeper _ ih => exact ih.deeper

/-- What stands in the place for `k` are children of the node it is a child of. -/
theorem exists_focus (h : Route k path t f) (hnodup : t.ids.Nodup) :
    ∃ p left right front back, Focus p t (left ++ k :: right) front back ∧
      ∀ ls, f ls = t.replace p (left ++ (ls ++ right)) := by
  induction h with
  | @here p left right =>
      refine ⟨p, left, right, [], [], focus_root _ _, fun ls => ?_⟩
      rw [replace, if_pos rfl]
  | @deeper path t f i left right h ih =>
      rw [Outline.ids, List.nodup_cons, idsList_append, idsList, List.nodup_append,
        List.nodup_append] at hnodup
      obtain ⟨hi, -, ⟨htnodup, -, htr⟩, hlt⟩ := hnodup
      obtain ⟨p, ls, rs, front, back, hfocus, hf⟩ := ih htnodup
      have hp : p ∈ t.ids := by simp [hfocus.ids]
      have hip : i ≠ p := fun hip => hi (by simp [hip, hp])
      have hleft : p ∉ idsList left := fun hpl => hlt p hpl p (List.mem_append_left _ hp) rfl
      have hright : p ∉ idsList right := fun hpr => htr p hp p hpr rfl
      refine ⟨p, ls, rs, _, _, focus_kid hfocus hip hleft hright, fun ms => ?_⟩
      simp only [replace_kid hip hleft hright, hf]

end Route

/-! ### Taking a child out and putting one in -/

/-- Something new and something old side by side, the new on the given `Side`. -/
def Side.arrange {α : Type} : Side → List α → List α → List α
  | .before, new, old => new ++ old
  | .after, new, old => old ++ new

theorem Side.arrange_perm {α : Type} (side : Side) (new old : List α) :
    Perm (side.arrange new old) (new ++ old) := by
  cases side with
  | before => exact Perm.refl _
  | after => exact List.perm_append_comm

theorem insertBeside_append {side : Side} {anchor x : NodeId} {front back : List NodeId}
    (h : anchor ∉ front) :
    insertBeside side anchor x (front ++ anchor :: back) =
      some (front ++ (side.arrange [x] [anchor] ++ back)) := by
  induction front with
  | nil =>
      simp only [List.nil_append, insertBeside, if_true]
      cases side with
      | before => rfl
      | after => rfl
  | cons k front ih =>
      rw [List.mem_cons, not_or] at h
      simp only [List.cons_append, insertBeside, if_neg (Ne.symm h.1), ih h.2, Option.map_some]

theorem map_root_arrange (side : Side) (u k : Outline) :
    (side.arrange [u] [k]).map Outline.root = side.arrange [u.root] [k.root] := by
  cases side with
  | before => rfl
  | after => rfl

theorem idsList_arrange (side : Side) (u k : Outline) :
    idsList (side.arrange [u] [k]) = side.arrange u.ids k.ids := by
  cases side with
  | before => simp [Side.arrange, idsList]
  | after => simp [Side.arrange, idsList]

end RakuTree.Arena
