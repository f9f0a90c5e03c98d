import RakuTree.Proofs.Arena.Outline

/-!
# RakuTree.Proofs.Arena.Numbered

Numbering a tree puts it into a table: the nodes get the numbers from some point on, in a
row, and the child lists say where each subtree starts. The outline of a tree is the same
numbering without the nodes, and it fits every table that has the nodes in their place.
-/

namespace RakuTree

/-! ### Numbers -/

namespace Element

mutual

/-- Is every node of the tree of some kind, that is, not `bare`? -/
def isKinded : Element → Bool
  | leaf _ => true
  | branch _ _ _ ks => isKindedList ks
  | contextualizer _ _ _ _ ks => isKindedList ks
  | bare _ _ => false

/-- Is every node of some trees of some kind (`isKinded`)? -/
def isKindedList : List Element → Bool
  | [] => true
  | k :: ks => k.isKinded && isKindedList ks

end

mutual

/-- The outline of a tree whose nodes are numbered from `i` on. -/
def outline (i : NodeId) : Element → Arena.Outline
  | leaf _ => .node i []
  | branch _ _ _ ks => .node i (outlineList (i + 1) ks)
  | contextualizer _ _ _ _ ks => .node i (outlineList (i + 1) ks)
  | bare _ _ => .node i []

/-- The outlines of some trees in a row, numbered from `i` on. -/
def outlineList (i : NodeId) : List Element → List Arena.Outline
  | [] => []
  | k :: ks => k.outline i :: outlineList (i + k.size) ks

end

@[simp] theorem root_outline (i : NodeId) (e : Element) : (e.outline i).root = i := by
  cases e with
  | leaf l => rfl
  | branch c s o ks => rfl
  | contextualizer g s t o ks => rfl
  | bare s o => rfl

theorem map_root_outlineList (i : NodeId) (ks : List Element) :
    (outlineList i ks).map Arena.Outline.root = rootIds i ks := by
  induction ks generalizing i with
  | nil => rw [outlineList, rootIds, List.map_nil]
  | cons k ks ih => rw [outlineList, rootIds, List.map_cons, ih, root_outline]

mutual

theorem length_nodesFrom (i : NodeId) (e : Element) : (e.nodesFrom i).length = e.size := by
  cases e with
  | leaf l => rfl
  | branch c s o ks =>
      rw [nodesFrom, size, List.length_cons, length_nodesFromList, Nat.add_comm]
  | contextualizer g s t o ks =>
      rw [nodesFrom, size, List.length_cons, length_nodesFromList, Nat.add_comm]
  | bare s o => rfl

theorem length_nodesFromList (i : NodeId) (ks : List Element) :
    (nodesFromList i ks).length = sizeList ks := by
  cases ks with
  | nil => rfl
  | cons k ks =>
      rw [nodesFromList, sizeList, List.length_append, length_nodesFrom, length_nodesFromList]

end

mutual

/-- Nodes are numbered in a row, from `i` on. -/
theorem ids_outline (i : NodeId) (e : Element) : (e.outline i).ids = List.range' i e.size := by
  cases e with
  | leaf l => rfl
  | branch c s o ks =>
      rw [outline, Arena.Outline.ids, idsList_outlineList, size, Nat.add_comm 1 (sizeList ks),
        List.range'_succ]
  | contextualizer g s t o ks =>
      rw [outline, Arena.Outline.ids, idsList_outlineList, size, Nat.add_comm 1 (sizeList ks),
        List.range'_succ]
  | bare s o => rfl

theorem idsList_outlineList (i : NodeId) (ks : List Element) :
    Arena.Outline.idsList (outlineList i ks) = List.range' i (sizeList ks) := by
  cases ks with
  | nil => rfl
  | cons k ks =>
      rw [outlineList, Arena.Outline.idsList, ids_outline, idsList_outlineList, sizeList,
        List.range'_append_1]

end

end Element

namespace Arena

/-! ### Nodes in their place -/

variable {a : Arena}

/-- A node that `nodesFrom` numbered stands in its place. -/
theorem node_ofElement {front rest : List Node} {e : Element} {ids : List NodeId}
    (h : a.nodes.toList = front ++ Node.ofElement front.length e ids :: rest) :
    front.length < a.size ∧ a.node front.length = Node.ofElement front.length e ids := by
  have hget : a.nodes[front.length]? = some (Node.ofElement front.length e ids) := by
    rw [← Array.getElem?_toList, h, List.getElem?_append_right (Nat.le_refl _), Nat.sub_self]
    rfl
  refine ⟨(Array.getElem?_eq_some_iff.mp hget).1, ?_⟩
  rw [node, hget, Option.getD_some]

theorem hangs_ofElement {front rest : List Node} {e : Element} (ks : List Element)
    (h : a.nodes.toList = front ++
      Node.ofElement front.length e (Element.rootIds (front.length + 1) ks) :: rest)
    (hks : ∀ k ∈ Element.outlineList (front.length + 1) ks, Hangs a k) :
    Hangs a (.node front.length (Element.outlineList (front.length + 1) ks)) := by
  obtain ⟨hlt, hnode⟩ := node_ofElement h
  refine .node hlt ?_ hks
  rw [hnode, Element.map_root_outlineList]
  rfl

mutual

/-- A tree whose nodes stand in the table in a row is a tree of the table, by `Hangs`. -/
theorem hangs_outline (e : Element) (front back : List Node)
    (h : a.nodes.toList = front ++ (e.nodesFrom front.length ++ back)) :
    Hangs a (e.outline front.length) := by
  cases e with
  | leaf l => exact hangs_ofElement [] h fun k hk => nomatch hk
  | branch c s o ks =>
      rw [Element.nodesFrom, List.cons_append] at h
      refine hangs_ofElement ks h ?_
      rw [List.append_cons] at h
      exact hangs_outlineList ks (by simp) h
  | contextualizer g s t o ks =>
      rw [Element.nodesFrom, List.cons_append] at h
      refine hangs_ofElement ks h ?_
      rw [List.append_cons] at h
      exact hangs_outlineList ks (by simp) h
  | bare s o => exact hangs_ofElement [] h fun k hk => nomatch hk

theorem hangs_outlineList (ks : List Element) {i : NodeId} {front back : List Node}
    (hi : front.length = i) (h : a.nodes.toList = front ++ (Element.nodesFromList i ks ++ back)) :
    ∀ k ∈ Element.outlineList i ks, Hangs a k := by
  cases ks with
  | nil => exact fun k hk => nomatch hk
  | cons e ks =>
      subst hi
      rw [Element.nodesFromList, List.append_assoc] at h
      intro k hk
      rw [Element.outlineList, List.mem_cons] at hk
      rcases hk with rfl | hk
      · exact hangs_outline e _ _ h
      · rw [← List.append_assoc] at h
        refine hangs_outlineList ks ?_ h k hk
        rw [List.length_append, Element.length_nodesFrom]

end

/-- A node that was numbered `Fits` with its children if they fit. -/
theorem fits_ofElement {front rest : List Node} {e : Element} (ks : List Element)
    (h : a.nodes.toList = front ++
      Node.ofElement front.length e (Element.rootIds (front.length + 1) ks) :: rest)
    (hkind : e.cls.kind? ≠ none) (hleaf : e.cls.kind? = some .leaf → ks = [])
    (hks : ∀ k ∈ Element.outlineList (front.length + 1) ks, Fits a k) :
    Fits a (.node front.length (Element.outlineList (front.length + 1) ks)) := by
  obtain ⟨hlt, hnode⟩ := node_ofElement h
  refine .node hlt ?_ ?_ ?_ hks
  · rw [hnode, Element.map_root_outlineList]
    rfl
  · rw [hnode]
    exact hkind
  · rw [hnode]
    intro hl
    rw [hleaf hl, Element.outlineList]

mutual

/-- A tree whose nodes stand in the table in a row `Fits`, if it is `isKinded`. -/
theorem fits_outline {e : Element} (he : e.isKinded = true) (front back : List Node)
    (h : a.nodes.toList = front ++ (e.nodesFrom front.length ++ back)) :
    Fits a (e.outline front.length) := by
  cases e with
  | leaf l =>
      exact fits_ofElement [] h (Option.some_ne_none _) (fun _ => rfl)
        fun k hk => nomatch hk
  | branch c s o ks =>
      rw [Element.nodesFrom, List.cons_append] at h
      refine fits_ofElement ks h (Option.some_ne_none _) (fun hl => nomatch hl) ?_
      rw [List.append_cons] at h
      exact fits_outlineList he (by simp) h
  | contextualizer g s t o ks =>
      rw [Element.nodesFrom, List.cons_append] at h
      refine fits_ofElement ks h (Option.some_ne_none _) (fun hl => nomatch hl) ?_
      rw [List.append_cons] at h
      exact fits_outlineList he (by simp) h
  | bare s o => exact nomatch he

theorem fits_outlineList {ks : List Element} (hks : Element.isKindedList ks = true) {i : NodeId}
    {front back : List Node} (hi : front.length = i)
    (h : a.nodes.toList = front ++ (Element.nodesFromList i ks ++ back)) :
    ∀ k ∈ Element.outlineList i ks, Fits a k := by
  cases ks with
  | nil => exact fun k hk => nomatch hk
  | cons e ks =>
      subst hi
      rw [Element.isKindedList, Bool.and_eq_true] at hks
      rw [Element.nodesFromList, List.append_assoc] at h
      intro k hk
      rw [Element.outlineList, List.mem_cons] at hk
      rcases hk with rfl | hk
      · exact fits_outline hks.1 _ _ h
      · rw [← List.append_assoc] at h
        refine fits_outlineList hks.2 ?_ h k hk
        rw [List.length_append, Element.length_nodesFrom]

end

/-! ### Adding a tree -/

theorem nodup_outline (e : Element) (i : NodeId) : (e.outline i).ids.Nodup := by
  rw [Element.ids_outline]
  exact List.nodup_range'

/-- The tree that a table is made of, by `ofElement`, fits the table. -/
theorem ofElement_fits {e : Element} (he : e.isKinded = true) : Fits (ofElement e) (e.outline 0) :=
  fits_outline he [] [] (List.append_nil _).symm

/-- A tree that is added to a table, by `add`, fits it. -/
theorem add_fits {e : Element} (he : e.isKinded = true) (a : Arena) :
    Fits (a.add e) (e.outline a.size) := by
  refine fits_outline he a.nodes.toList [] ?_
  rw [add, Array.toList_append, List.append_nil]
  rfl

/-- Adding a tree by `add` changes no other node. -/
theorem node_add {e : Element} {j : NodeId} (hj : j < a.size) : (a.add e).node j = a.node j := by
  rw [node, add, Array.getElem?_append_left hj]
  rfl

theorem size_le_add (a : Arena) (e : Element) : a.size ≤ (a.add e).size := by
  rw [size, size, add, Array.size_append]
  exact Nat.le_add_right _ _

end Arena

end RakuTree
