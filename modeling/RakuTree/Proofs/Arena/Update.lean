import RakuTree.Arena.Edit

/-!
# RakuTree.Proofs.Arena.Update

What changes of a table change, and what they leave alone.

Threading and editing write to nodes all over a table, but only ever to one field at a
time. Two relations say what a change left alone: after any number of new links and ranges
the table is `Alike`, with the same classes, child lists and parents; after new parents it
still has the `SameShape`. Whatever only depends on these passes through the change
unseen.
-/

namespace RakuTree.Arena

variable {a b c : Arena} {i j : NodeId}

/-! ### One node -/

@[simp] theorem size_update (a : Arena) (i : NodeId) (f : Node → Node) :
    (a.update i f).size = a.size := Array.size_modify

theorem node_update_self (h : i < a.size) (f : Node → Node) :
    (a.update i f).node i = f (a.node i) := by
  have hget : a.nodes[i]? = some (a.nodes[i]) := Array.getElem?_eq_getElem h
  simp only [node, update, Array.getElem?_modify, if_true, hget, Option.map_some, Option.getD_some]

theorem node_update_of_ne (h : j ≠ i) (f : Node → Node) : (a.update i f).node j = a.node j := by
  simp only [node, update, Array.getElem?_modify]
  rw [if_neg fun hij => h hij.symm]

/-- A field `g` that a change `f` does not touch stays, in all nodes. -/
theorem field_update {β : Type} (g : Node → β) {f : Node → Node} (h : ∀ n, g (f n) = g n)
    (a : Arena) (i j : NodeId) : g ((a.update i f).node j) = g (a.node j) := by
  by_cases hji : j = i
  · subst hji
    by_cases hj : j < a.size
    · rw [node_update_self hj, h]
    · have hout : (a.update j f).nodes[j]? = none := by
        refine Array.getElem?_eq_none ?_
        change (a.update j f).size ≤ j
        rw [size_update]
        exact Nat.le_of_not_lt hj
      have hout' : a.nodes[j]? = none := Array.getElem?_eq_none (Nat.le_of_not_lt hj)
      rw [node, node, hout, hout']
  · rw [node_update_of_ne hji]

/-- Tables `a` and `b` with the same nodes are the same. -/
theorem eq_of_node_eq (hsize : b.size = a.size) (h : ∀ j < a.size, b.node j = a.node j) :
    b = a := by
  cases a with
  | mk as =>
      cases b with
      | mk bs =>
          refine congrArg Arena.mk (Array.ext hsize fun i hb ha => ?_)
          have hi := h i ha
          simp only [node, Array.getElem?_eq_getElem ha, Array.getElem?_eq_getElem hb,
            Option.getD_some] at hi
          exact hi

/-! ### Tables that are alike -/

/-- The tables have the same nodes with the same classes and children; texts, ranges and links may
differ (`Alike`). -/
structure SameShape (a b : Arena) : Prop where
  /-- There are as many nodes in `b` as in `a`. -/
  size : b.size = a.size
  /-- Nodes are of the same classes in `b` as in `a`. -/
  cls : ∀ j, (b.node j).cls = (a.node j).cls
  /-- Nodes have the same children in `b` as in `a`. -/
  children : ∀ j, (b.node j).children = (a.node j).children

/-- The tables have the same nodes with the same classes, children and parents: a `SameShape` with
parents. -/
structure Alike (a b : Arena) : Prop extends SameShape a b where
  /-- Nodes have the same parents in `b` as in `a`. -/
  parent : ∀ j, (b.node j).parent = (a.node j).parent

namespace SameShape

theorem refl (a : Arena) : SameShape a a := ⟨rfl, fun _ => rfl, fun _ => rfl⟩

theorem trans (hab : SameShape a b) (hbc : SameShape b c) : SameShape a c :=
  ⟨hbc.size.trans hab.size, fun j => (hbc.cls j).trans (hab.cls j),
    fun j => (hbc.children j).trans (hab.children j)⟩

theorem kind? (h : SameShape a b) (j : NodeId) : (b.node j).kind? = (a.node j).kind? :=
  congrArg Class.kind? (h.cls j)

theorem isToken (h : SameShape a b) (j : NodeId) : (b.node j).isToken = (a.node j).isToken := by
  rw [Node.isToken, Node.isToken, h.kind? j]

theorem update {f : Node → Node} (hcls : ∀ n, (f n).cls = n.cls)
    (hchildren : ∀ n, (f n).children = n.children) (a : Arena) (i : NodeId) :
    SameShape a (a.update i f) :=
  ⟨size_update a i f, field_update Node.cls hcls a i, field_update Node.children hchildren a i⟩

end SameShape

theorem setParent_sameShape (a : Arena) (i j : NodeId) : SameShape a (a.setParent i j) :=
  .update (fun _ => by rfl) (fun _ => by rfl) a i

namespace Alike

theorem refl (a : Arena) : Alike a a := ⟨.refl a, fun _ => rfl⟩

theorem trans (hab : Alike a b) (hbc : Alike b c) : Alike a c :=
  ⟨hab.toSameShape.trans hbc.toSameShape, fun j => (hbc.parent j).trans (hab.parent j)⟩

theorem update {f : Node → Node} (hcls : ∀ n, (f n).cls = n.cls)
    (hchildren : ∀ n, (f n).children = n.children) (hparent : ∀ n, (f n).parent = n.parent)
    (a : Arena) (i : NodeId) : Alike a (a.update i f) :=
  ⟨.update hcls hchildren a i, field_update Node.parent hparent a i⟩

/-- A fold of changes that each leave the table `Alike` does so, too. -/
theorem foldl {α : Type} {step : Arena → α → Arena} (h : ∀ b x, Alike b (step b x))
    (xs : List α) (a : Arena) : Alike a (xs.foldl step a) := by
  induction xs generalizing a with
  | nil => exact refl a
  | cons x xs ih => exact (h a x).trans (ih _)

end Alike

/-! ### Links and ranges -/

theorem setNext_alike (a : Arena) (i j : NodeId) : Alike a (a.setNext i j) :=
  .update (fun _ => by rfl) (fun _ => by rfl) (fun _ => by rfl) a i

theorem setPrevious_alike (a : Arena) (i j : NodeId) : Alike a (a.setPrevious i j) :=
  .update (fun _ => by rfl) (fun _ => by rfl) (fun _ => by rfl) a i

theorem shift_alike (a : Arena) (i : NodeId) (d : Int) : Alike a (a.shift i d) :=
  .update (fun _ => by rfl) (fun _ => by rfl) (fun _ => by rfl) a i

theorem grow_alike (a : Arena) (i : NodeId) (d : Int) : Alike a (a.grow i d) :=
  .update (fun _ => by rfl) (fun _ => by rfl) (fun _ => by rfl) a i

/-- Joining the neighbours `i` and `j` leaves the table `Alike`. -/
theorem join_alike (a : Arena) (i j : NodeId) : Alike a ((a.setNext i j).setPrevious j i) :=
  (setNext_alike a i j).trans (setPrevious_alike _ j i)

theorem linkRow_alike (ts : List NodeId) (a : Arena) : Alike a (a.linkRow ts) := by
  induction ts generalizing a with
  | nil => exact .refl a
  | cons i ts ih =>
      cases ts with
      | nil => exact .refl a
      | cons j ts => exact (join_alike a i j).trans (ih _)

theorem cutOut_alike (a : Arena) (first last : NodeId) : Alike a (a.cutOut first last) := by
  refine Alike.trans ?_ ((setPrevious_alike _ first first).trans (setNext_alike _ last last))
  split
  · exact join_alike _ _ _
  · exact setNext_alike _ _ _
  · exact setPrevious_alike _ _ _
  · exact .refl a

theorem spliceBefore_alike (a : Arena) (first last i : NodeId) :
    Alike a (a.spliceBefore first last i) := by
  refine Alike.trans (join_alike a last i) ?_
  simp only [spliceBefore]
  split
  · exact join_alike _ _ _
  · exact setPrevious_alike _ _ _

theorem spliceAfter_alike (a : Arena) (first last i : NodeId) :
    Alike a (a.spliceAfter first last i) := by
  refine Alike.trans (join_alike a i first) ?_
  simp only [spliceAfter]
  split
  · exact join_alike _ _ _
  · exact setNext_alike _ _ _

theorem shiftFrom_alike (a : Arena) (root : NodeId) (place d : Int) (enclosing : List NodeId) :
    Alike a (a.shiftFrom root place d enclosing) := by
  rw [shiftFrom]
  split
  · exact .refl a
  · refine Alike.foldl (fun b i => ?_) _ a
    simp only
    split
    · split
      · exact .refl b
      · exact grow_alike b i d
    · split
      · exact shift_alike b i d
      · exact .refl b

theorem moveTo_alike (a : Arena) (i : NodeId) (place : Int) (anchor : NodeId) :
    Alike a (a.moveTo i place anchor) :=
  (shiftFrom_alike a _ _ _ _).trans (Alike.foldl (fun b j => shift_alike b j _) _ _)

/-! ### Fields by node -/

section Fields

variable (a : Arena) (x : NodeId)

theorem next_setNext (hi : i < a.size) (j : NodeId) :
    ((a.setNext i x).node j).next = if j = i then x else (a.node j).next := by
  split
  · rename_i h
    rw [h, setNext, node_update_self hi]
  · rename_i h
    rw [setNext, node_update_of_ne h]

theorem previous_setPrevious (hi : i < a.size) (j : NodeId) :
    ((a.setPrevious i x).node j).previous = if j = i then x else (a.node j).previous := by
  split
  · rename_i h
    rw [h, setPrevious, node_update_self hi]
  · rename_i h
    rw [setPrevious, node_update_of_ne h]

theorem parent_setParent (hi : i < a.size) (j : NodeId) :
    ((a.setParent i x).node j).parent = if j = i then x else (a.node j).parent := by
  split
  · rename_i h
    rw [h, setParent, node_update_self hi]
  · rename_i h
    rw [setParent, node_update_of_ne h]

theorem children_setChildren (hi : i < a.size) (ks : List NodeId) (j : NodeId) :
    ((a.setChildren i ks).node j).children = if j = i then ks else (a.node j).children := by
  split
  · rename_i h
    rw [h, setChildren, node_update_self hi]
  · rename_i h
    rw [setChildren, node_update_of_ne h]

@[simp] theorem cls_setChildren (i j : NodeId) (ks : List NodeId) :
    ((a.setChildren i ks).node j).cls = (a.node j).cls :=
  field_update Node.cls (fun _ => by rfl) a i j

@[simp] theorem parent_setChildren (i j : NodeId) (ks : List NodeId) :
    ((a.setChildren i ks).node j).parent = (a.node j).parent :=
  field_update Node.parent (fun _ => by rfl) a i j

@[simp] theorem next_setPrevious (i j : NodeId) :
    ((a.setPrevious i x).node j).next = (a.node j).next :=
  field_update Node.next (fun _ => by rfl) a i j

@[simp] theorem previous_setNext (i j : NodeId) :
    ((a.setNext i x).node j).previous = (a.node j).previous :=
  field_update Node.previous (fun _ => by rfl) a i j

end Fields

/-! ### Parents -/

/-- New parents by `setParents` leave every other field `g` alone. -/
theorem field_setParents {β : Type} (g : Node → β)
    (h : ∀ (n : Node) (x : NodeId), g { n with parent := x } = g n) (ks : List NodeId) (x : NodeId)
    (a : Arena) (j : NodeId) : g ((a.setParents ks x).node j) = g (a.node j) := by
  rw [setParents]
  induction ks generalizing a with
  | nil => rfl
  | cons k ks ih =>
      rw [List.foldl_cons, ih, setParent]
      exact field_update g (fun n => h n x) a k j

theorem size_setParents (ks : List NodeId) (x : NodeId) (a : Arena) :
    (a.setParents ks x).size = a.size := by
  rw [setParents]
  induction ks generalizing a with
  | nil => rfl
  | cons k ks ih => rw [List.foldl_cons, ih, setParent, size_update]

theorem parent_setParents {ks : List NodeId} (x : NodeId) {a : Arena} (h : ∀ k ∈ ks, k < a.size)
    (j : NodeId) :
    ((a.setParents ks x).node j).parent = if j ∈ ks then x else (a.node j).parent := by
  rw [setParents]
  induction ks generalizing a with
  | nil => rfl
  | cons k ks ih =>
      obtain ⟨hk, hrest⟩ := List.forall_mem_cons.mp h
      have hrest' : ∀ l ∈ ks, l < (a.setParent k x).size := by
        rw [setParent, size_update]
        exact hrest
      rw [List.foldl_cons, ih hrest', parent_setParent a x hk]
      by_cases hjk : j = k
      · simp [hjk]
      · simp [hjk]

end RakuTree.Arena
