import RakuTree.Proofs.Arena.Outline

/-!
# RakuTree.Proofs.Arena.Linked

What the links along a row of nodes have to be, and that threading makes them so.

`Linked` states it by recursion on the row: the node before is the last token passed so
far, the node behind the first token still to come, and a node without one leads back to
itself. Tokens and branches do not differ in this. A row that goes on behind its end has
its last links open, so the statement carries the tokens around the row along; that is
what makes it split at any place (`linked_append`).

Threading and relinking take the same step at every node, in a different order
(`Steps`). `Progress` is what holds after the steps of the first nodes of a row. Nodes that
wait for the next token are the last token and the branches behind it, and the next token
is told to exactly these.
-/

namespace RakuTree.Arena

open Outline

/-! ### Rows of nodes -/

/-- The first token among the nodes `is`. -/
def firstToken (a : Arena) (is : List NodeId) : Option NodeId :=
  is.find? fun j => (a.node j).isToken

/-- The last token after some nodes, when `before` was the last one before them. -/
def lastToken (a : Arena) : Option NodeId → List NodeId → Option NodeId
  | before, [] => before
  | before, j :: js => lastToken a (if (a.node j).isToken then some j else before) js

/-- The links of a row of nodes, between the token `before` it and the token `after` it. -/
def Linked (a : Arena) : Option NodeId → List NodeId → Option NodeId → Prop
  | _, [], _ => True
  | before, j :: js, after =>
    (a.node j).previous = before.getD j ∧ (a.node j).next = ((a.firstToken js).or after).getD j ∧
      Linked a (if (a.node j).isToken then some j else before) js after

variable {a b : Arena} {before after : Option NodeId} {is js : List NodeId}

theorem firstToken_append (a : Arena) (is js : List NodeId) :
    a.firstToken (is ++ js) = (a.firstToken is).or (a.firstToken js) := List.find?_append

theorem lastToken_append (a : Arena) (before : Option NodeId) (is js : List NodeId) :
    a.lastToken before (is ++ js) = a.lastToken (a.lastToken before is) js := by
  induction is generalizing before with
  | nil => rfl
  | cons i is ih => exact ih _

theorem linked_append :
    Linked a before (is ++ js) after ↔
      Linked a before is ((a.firstToken js).or after) ∧ Linked a (a.lastToken before is) js after := by
  induction is generalizing before with
  | nil => simp [Linked, lastToken]
  | cons i is ih =>
      -- the first token behind `i` stands in the rest of the row, in `js` or behind both
      rw [List.cons_append, Linked, Linked, ih, firstToken_append, Option.or_assoc, lastToken]
      simp only [and_assoc]

theorem firstToken_congr (h : ∀ j ∈ is, (b.node j).isToken = (a.node j).isToken) :
    b.firstToken is = a.firstToken is := by
  induction is with
  | nil => rfl
  | cons i is ih =>
      rw [firstToken, firstToken, List.find?_cons, List.find?_cons, h i List.mem_cons_self]
      rw [firstToken, firstToken] at ih
      rw [ih fun j hj => h j (List.mem_cons_of_mem _ hj)]

theorem lastToken_congr (h : ∀ j ∈ is, (b.node j).isToken = (a.node j).isToken) :
    b.lastToken before is = a.lastToken before is := by
  induction is generalizing before with
  | nil => rfl
  | cons i is ih =>
      rw [lastToken, lastToken, h i List.mem_cons_self]
      exact ih fun j hj => h j (List.mem_cons_of_mem _ hj)

/-- Whether a row is `Linked` only depends on its nodes. -/
theorem Linked.congr (h : Linked a before is after)
    (htoken : ∀ j ∈ is, (b.node j).isToken = (a.node j).isToken)
    (hnext : ∀ j ∈ is, (b.node j).next = (a.node j).next)
    (hprevious : ∀ j ∈ is, (b.node j).previous = (a.node j).previous) :
    Linked b before is after := by
  induction is generalizing before with
  | nil => trivial
  | cons i is ih =>
      obtain ⟨hp, hn, hrest⟩ := h
      have hself : i ∈ i :: is := List.mem_cons_self
      have htail : ∀ j ∈ is, j ∈ i :: is := fun j hj => List.mem_cons_of_mem _ hj
      refine ⟨?_, ?_, ?_⟩
      · rw [hprevious i hself, hp]
      · rw [hnext i hself, hn, firstToken_congr fun j hj => htoken j (htail j hj)]
      · rw [htoken i hself]
        exact ih hrest (fun j hj => htoken j (htail j hj)) (fun j hj => hnext j (htail j hj))
          fun j hj => hprevious j (htail j hj)

/-- The links of a row that is `Linked` are given by the row. -/
theorem Linked.unique (ha : Linked a before is after) (hb : Linked b before is after)
    (htoken : ∀ j ∈ is, (b.node j).isToken = (a.node j).isToken) :
    ∀ j ∈ is, (b.node j).next = (a.node j).next ∧ (b.node j).previous = (a.node j).previous := by
  induction is generalizing before with
  | nil => exact fun j hj => nomatch hj
  | cons i is ih =>
      obtain ⟨hpa, hna, hresta⟩ := ha
      obtain ⟨hpb, hnb, hrestb⟩ := hb
      have htail : ∀ j ∈ is, (b.node j).isToken = (a.node j).isToken :=
        fun j hj => htoken j (List.mem_cons_of_mem _ hj)
      rw [htoken i List.mem_cons_self] at hrestb
      intro j hj
      rcases List.mem_cons.mp hj with rfl | hj
      · rw [hna, hnb, hpa, hpb, firstToken_congr htail]
        exact ⟨rfl, rfl⟩
      · exact ih hresta hrestb htail j hj

theorem firstToken_eq_none (h : ∀ j ∈ is, (a.node j).isToken = false) : a.firstToken is = none := by
  rw [firstToken, List.find?_eq_none]
  intro j hj
  rw [h j hj]
  exact Bool.false_ne_true

/-- All branches of a row without tokens have the same links, to `before` and `after`. -/
theorem linked_branches (htoken : ∀ j ∈ is, (a.node j).isToken = false) :
    Linked a before is after ↔
      ∀ j ∈ is, (a.node j).previous = before.getD j ∧ (a.node j).next = after.getD j := by
  induction is with
  | nil => simp [Linked]
  | cons i is ih =>
      obtain ⟨hi, hrest⟩ := List.forall_mem_cons.mp htoken
      rw [Linked, hi, if_neg Bool.false_ne_true, ih hrest, firstToken_eq_none hrest, Option.none_or,
        List.forall_mem_cons, and_assoc]

/-! ### One step -/

/-- What a step of threading at node `i` does: the node takes its place behind the last
token, the nodes that wait get to know it if it is a token, and its children get to know
it as their parent. -/
structure Steps (t : Threading) (i : NodeId) (u : Threading) : Prop where
  /-- Classes and children stay as they are in `t`. -/
  shape : SameShape t.arena u.arena
  /-- The children of `i` have it as their parent. -/
  parent : ∀ k, (u.arena.node k).parent =
    if k ∈ (t.arena.node i).children then i else (t.arena.node k).parent
  /-- The node `i` follows the last token of `t`. -/
  previous : ∀ k, (u.arena.node k).previous =
    if k = i then t.tail.getD i else (t.arena.node k).previous
  /-- A token `i` comes next for all that wait; the node itself waits. -/
  next : ∀ k, (u.arena.node k).next =
    if k = i then i
    else if (t.arena.node i).isToken = true ∧ k ∈ t.tail.toList ++ t.pending then i
    else (t.arena.node k).next
  /-- A token `i` is the last token from now on. -/
  tail : u.tail = if (t.arena.node i).isToken then some i else t.tail
  /-- A branch `i` waits. -/
  pending : u.pending = if (t.arena.node i).isToken then [] else t.pending ++ [i]

/-- All numbers that a step at node `i` writes to are in the table. -/
structure Ready (t : Threading) (i : NodeId) : Prop where
  /-- The node `i` is in the table. -/
  self : i < t.arena.size
  /-- What waits for `i` is in the table. -/
  waiting : ∀ j ∈ t.tail.toList ++ t.pending, j < t.arena.size
  /-- The children of `i` are in the table. -/
  children : ∀ j ∈ (t.arena.node i).children, j < t.arena.size

/-! ### Linking, queueing and adopting -/

theorem foldl_setNext_alike (bs : List NodeId) (a : Arena) (x : NodeId) :
    Alike a (bs.foldl (fun a b => a.setNext b x) a) :=
  Alike.foldl (fun b j => setNext_alike b j x) bs a

theorem next_foldl_setNext (bs : List NodeId) (a : Arena) (x : NodeId)
    (h : ∀ j ∈ bs, j < a.size) (k : NodeId) :
    ((bs.foldl (fun a b => a.setNext b x) a).node k).next =
      if k ∈ bs then x else (a.node k).next := by
  induction bs generalizing a with
  | nil => rfl
  | cons j bs ih =>
      obtain ⟨hj, hrest⟩ := List.forall_mem_cons.mp h
      rw [List.foldl_cons, ih _ fun l hl => by rw [(setNext_alike a j x).size]; exact hrest l hl,
        next_setNext a x hj]
      by_cases hkj : k = j
      · simp [hkj]
      · simp [hkj]

theorem previous_foldl_setNext (bs : List NodeId) (a : Arena) (x k : NodeId) :
    ((bs.foldl (fun a b => a.setNext b x) a).node k).previous = (a.node k).previous := by
  induction bs generalizing a with
  | nil => rfl
  | cons j bs ih => rw [List.foldl_cons, ih, previous_setNext]

namespace Threading

variable {t : Threading} {i : NodeId}

theorem link_alike (t : Threading) (i : NodeId) : Alike t.arena (t.link i).arena := by
  rw [link]
  refine Alike.trans ?_ ((setNext_alike _ i i).trans (foldl_setNext_alike _ _ i))
  split
  · exact setPrevious_alike _ _ _
  · exact join_alike _ _ _

theorem link_previous (hi : i < t.arena.size) (k : NodeId) :
    ((t.link i).arena.node k).previous =
      if k = i then t.tail.getD i else (t.arena.node k).previous := by
  simp only [link, previous_foldl_setNext, previous_setNext]
  cases t.tail with
  | none => exact previous_setPrevious _ _ hi k
  | some j =>
      have hi' : i < (t.arena.setNext j i).size := by
        rw [(setNext_alike _ _ _).size]
        exact hi
      exact (previous_setPrevious _ j hi' k).trans (by rw [previous_setNext]; rfl)

theorem link_next (h : Ready t i) (k : NodeId) :
    ((t.link i).arena.node k).next =
      if k = i then i else if k ∈ t.tail.toList ++ t.pending then i else (t.arena.node k).next := by
  obtain ⟨hself, hwaiting, -⟩ := h
  -- the table after the token is joined to the last one
  have hjoined : ∀ b : Arena, Alike t.arena b →
      (∀ l, l ≠ i → (b.node l).next = if l ∈ t.tail.toList then i else (t.arena.node l).next) →
      ((t.pending.foldl (fun a b => a.setNext b i) (b.setNext i i)).node k).next =
        if k = i then i
        else if k ∈ t.tail.toList ++ t.pending then i else (t.arena.node k).next := by
    intro b hb hnext
    have hbi : i < b.size := by
      rw [hb.size]
      exact hself
    rw [next_foldl_setNext, next_setNext b i hbi]
    · by_cases hki : k = i
      · simp [hki]
      · rw [if_neg hki, if_neg hki, hnext k hki]
        by_cases hp : k ∈ t.pending
        · simp [hp]
        · simp [hp]
    · intro l hl
      rw [(setNext_alike b i i).size, hb.size]
      exact hwaiting l (List.mem_append_right _ hl)
  rw [link]
  cases ht : t.tail with
  | none =>
      rw [ht] at hjoined
      refine hjoined _ (setPrevious_alike _ _ _) fun l _ => ?_
      rw [next_setPrevious]
      simp
  | some j =>
      rw [ht] at hjoined hwaiting
      refine hjoined _ (join_alike _ _ _) fun l _ => ?_
      rw [next_setPrevious, next_setNext _ _ (hwaiting j (by simp))]
      simp

theorem queue_alike (t : Threading) (i : NodeId) : Alike t.arena (t.queue i).arena :=
  (setPrevious_alike _ _ _).trans (setNext_alike _ _ _)

theorem queue_previous (hi : i < t.arena.size) (k : NodeId) :
    ((t.queue i).arena.node k).previous =
      if k = i then t.tail.getD i else (t.arena.node k).previous := by
  rw [queue, previous_setNext, previous_setPrevious _ _ hi]

theorem queue_next (hi : i < t.arena.size) (k : NodeId) :
    ((t.queue i).arena.node k).next = if k = i then i else (t.arena.node k).next := by
  have hi' : i < (t.arena.setPrevious i (t.tail.getD i)).size := by
    rw [(setPrevious_alike _ _ _).size]
    exact hi
  rw [queue, next_setNext _ _ hi', next_setPrevious]

theorem adopt_sameShape (t : Threading) (i : NodeId) : SameShape t.arena (t.adopt i).arena :=
  ⟨size_setParents _ _ _, field_setParents Node.cls (fun _ _ => rfl) _ _ _,
    field_setParents Node.children (fun _ _ => rfl) _ _ _⟩

theorem adopt_next (t : Threading) (i k : NodeId) :
    ((t.adopt i).arena.node k).next = (t.arena.node k).next :=
  field_setParents Node.next (fun _ _ => rfl) _ _ _ _

theorem adopt_previous (t : Threading) (i k : NodeId) :
    ((t.adopt i).arena.node k).previous = (t.arena.node k).previous :=
  field_setParents Node.previous (fun _ _ => rfl) _ _ _ _

/-- Linking or queueing the node `i`, depending on its kind. -/
def enter (t : Threading) (i : NodeId) : Threading :=
  if (t.arena.node i).isToken then t.link i else t.queue i

theorem enter_alike (t : Threading) (i : NodeId) : Alike t.arena (t.enter i).arena := by
  rw [enter]
  split
  · exact link_alike t i
  · exact queue_alike t i

theorem enter_previous (hi : i < t.arena.size) (k : NodeId) :
    ((t.enter i).arena.node k).previous =
      if k = i then t.tail.getD i else (t.arena.node k).previous := by
  rw [enter]
  split
  · exact link_previous hi k
  · exact queue_previous hi k

theorem enter_next (h : Ready t i) (k : NodeId) :
    ((t.enter i).arena.node k).next =
      if k = i then i
      else if (t.arena.node i).isToken = true ∧ k ∈ t.tail.toList ++ t.pending then i
      else (t.arena.node k).next := by
  rw [enter]
  by_cases htoken : (t.arena.node i).isToken = true
  · rw [if_pos htoken, link_next h]
    simp [htoken]
  · rw [if_neg htoken, queue_next h.self]
    simp [htoken]

theorem enter_tail (t : Threading) (i : NodeId) :
    (t.enter i).tail = if (t.arena.node i).isToken then some i else t.tail := by
  rw [enter]
  split
  · rfl
  · rfl

theorem enter_pending (t : Threading) (i : NodeId) :
    (t.enter i).pending = if (t.arena.node i).isToken then [] else t.pending ++ [i] := by
  rw [enter]
  split
  · rfl
  · rfl

/-- Entering a node by `enter` first and then adopting its children is a step. -/
theorem enter_adopt_steps (h : Ready t i) : Steps t i ((t.enter i).adopt i) := by
  have halike := enter_alike t i
  have hchildren := halike.children i
  refine ⟨halike.toSameShape.trans (adopt_sameShape _ i), fun k => ?_, fun k => ?_, fun k => ?_, ?_, ?_⟩
  · rw [adopt, hchildren, parent_setParents, halike.parent]
    intro j hj
    rw [halike.size]
    exact h.children j hj
  · rw [adopt_previous, enter_previous h.self]
  · rw [adopt_next, enter_next h]
  · exact enter_tail t i
  · exact enter_pending t i

/-- Adopting the children by `adopt` first and then entering the node is the same step. -/
theorem adopt_enter_steps (h : Ready t i) : Steps t i ((t.adopt i).enter i) := by
  have hshape := adopt_sameShape t i
  have hready : Ready (t.adopt i) i := by
    refine ⟨?_, fun j hj => ?_, fun j hj => ?_⟩
    · rw [hshape.size]
      exact h.self
    · rw [hshape.size]
      exact h.waiting j hj
    · rw [hshape.children] at hj
      rw [hshape.size]
      exact h.children j hj
  have halike := enter_alike (t.adopt i) i
  refine ⟨hshape.trans halike.toSameShape, fun k => ?_, fun k => ?_, fun k => ?_, ?_, ?_⟩
  · rw [halike.parent, adopt, parent_setParents i h.children]
  · rw [enter_previous hready.self, adopt_previous]
    rfl
  · rw [enter_next hready, adopt_next, hshape.isToken]
    rfl
  · rw [enter_tail, hshape.isToken]
    rfl
  · rw [enter_pending, hshape.isToken]
    rfl

end Threading

/-! ### Many steps -/

/-- What holds after the steps at the nodes of `done`, when threading started in table
`a`. -/
structure Progress (a : Arena) (done : List NodeId) (t : Threading) : Prop where
  /-- Classes and children stay as they are in `a`. -/
  shape : SameShape a t.arena
  /-- The last token of `done` is known. -/
  tail : t.tail = a.lastToken none done
  /-- What waits stands at the end of `done`. -/
  waiting : ∃ settled, done = settled ++ (t.tail.toList ++ t.pending) ∧ (t.tail = none → settled = [])
  /-- The `tail` is a token. -/
  token : ∀ j ∈ t.tail, (a.node j).isToken = true
  /-- In `pending`, behind the last token, only branches wait. -/
  branches : ∀ j ∈ t.pending, (a.node j).isToken = false
  /-- The row `done` is linked. -/
  linked : Linked t.arena none done none
  /-- Children of nodes in `done` know their parents. -/
  parents : ∀ i ∈ done, ∀ k ∈ (a.node i).children, (t.arena.node k).parent = i
  /-- All other nodes have the parents they had in `a`. -/
  others : ∀ k, (∀ i ∈ done, k ∉ (a.node i).children) → (t.arena.node k).parent = (a.node k).parent

namespace Progress

variable {done : List NodeId} {t u : Threading} {i : NodeId}

theorem start (a : Arena) : Progress a [] { arena := a } where
  shape := .refl a
  tail := rfl
  waiting := ⟨[], rfl, fun _ => rfl⟩
  token := fun _ hj => nomatch hj
  branches := fun _ hj => nomatch hj
  linked := trivial
  parents := fun _ hi => nomatch hi
  others := fun _ _ => rfl

theorem waiting_mem (h : Progress a done t) : ∀ j ∈ t.tail.toList ++ t.pending, j ∈ done := by
  obtain ⟨settled, hdone, -⟩ := h.waiting
  intro j hj
  rw [hdone]
  exact List.mem_append_right _ hj

/-- The links of the row `done` when a token follows it. -/
theorem linked_token (h : Progress a done t) (hstep : Steps t i u) (hnodup : done.Nodup)
    (hi : i ∉ done) (htoken : (t.arena.node i).isToken = true) :
    Linked u.arena none done (some i) := by
  obtain ⟨settled, hdone, hnone⟩ := h.waiting
  have hlinked := h.linked
  have hne : ∀ j ∈ done, j ≠ i := fun j hj hji => hi (hji ▸ hj)
  have htokens := hstep.shape.isToken
  -- in the row only what waits gets a new link, and that leads to the token
  have hprevious : ∀ j ∈ done, (u.arena.node j).previous = (t.arena.node j).previous := by
    intro j hj
    rw [hstep.previous, if_neg (hne j hj)]
  have hwaiting : ∀ j ∈ t.tail.toList ++ t.pending, (u.arena.node j).next = i := by
    intro j hj
    rw [hstep.next, if_neg (hne j (h.waiting_mem j hj)), if_pos ⟨htoken, hj⟩]
  have hsettled : ∀ j ∈ settled, (u.arena.node j).next = (t.arena.node j).next := by
    intro j hj
    rw [hdone, List.nodup_append] at hnodup
    have hjd : j ∈ done := hdone ▸ List.mem_append_left _ hj
    have hnw : j ∉ t.tail.toList ++ t.pending := fun hjw => hnodup.2.2 j hj j hjw rfl
    rw [hstep.next, if_neg (hne j hjd), if_neg fun hjw => hnw hjw.2]
  have hbranches : ∀ j ∈ t.pending, (u.arena.node j).isToken = false := by
    intro j hj
    rw [htokens, h.shape.isToken, h.branches j hj]
  have hbranches' : ∀ j ∈ t.pending, (t.arena.node j).isToken = false := by
    intro j hj
    rw [h.shape.isToken, h.branches j hj]
  -- branches that wait keep the token before them and get the token behind them
  have hpending : ∀ before, Linked t.arena before t.pending none →
      Linked u.arena before t.pending (some i) := by
    intro before hbefore
    rw [linked_branches hbranches'] at hbefore
    rw [linked_branches hbranches]
    intro j hj
    have hjd : j ∈ t.tail.toList ++ t.pending := List.mem_append_right _ hj
    rw [hprevious j (h.waiting_mem j hjd), hwaiting j hjd]
    exact ⟨(hbefore j hj).1, rfl⟩
  cases ht : t.tail with
  | none =>
      rw [hnone ht, ht] at hdone
      rw [hdone] at hlinked ⊢
      exact hpending none hlinked
  | some k =>
      -- split the row at its last token, which is linked to the new one like the branches
      have hk : k ∈ t.tail.toList ++ t.pending := by simp [ht]
      have hktoken : (t.arena.node k).isToken = true := by
        rw [h.shape.isToken]
        exact h.token k (by simp [ht])
      have hfirst : t.arena.firstToken (k :: t.pending) = some k := by
        rw [firstToken, List.find?_cons, hktoken]
      have hfirst' : u.arena.firstToken (k :: t.pending) = some k := by
        rw [firstToken, List.find?_cons, htokens, hktoken]
      have hrow : t.tail.toList ++ t.pending = k :: t.pending := by simp [ht]
      rw [hrow] at hdone
      rw [hdone, linked_append, hfirst] at hlinked
      obtain ⟨hfront, hkprev, -, hrest⟩ := hlinked
      rw [hktoken, if_pos rfl] at hrest
      rw [hdone, linked_append, hfirst']
      refine ⟨?_, ?_, ?_, ?_⟩
      · refine hfront.congr (fun j _ => htokens j) hsettled fun j hj => hprevious j ?_
        rw [hdone]
        exact List.mem_append_left _ hj
      · rw [hprevious k (h.waiting_mem k hk), hkprev, lastToken_congr fun j _ => htokens j]
      · rw [hwaiting k hk, firstToken_eq_none hbranches]
        rfl
      · rw [htokens, hktoken, if_pos rfl]
        exact hpending _ hrest

/-- The links of the row `done` when a branch follows it. -/
theorem linked_branch (h : Progress a done t) (hstep : Steps t i u) (hi : i ∉ done)
    (htoken : (t.arena.node i).isToken = false) : Linked u.arena none done none := by
  have hne : ∀ j ∈ done, j ≠ i := fun j hj hji => hi (hji ▸ hj)
  refine h.linked.congr (fun j _ => hstep.shape.isToken j) (fun j hj => ?_) fun j hj => ?_
  · rw [hstep.next, if_neg (hne j hj), if_neg]
    rw [htoken]
    exact fun hw => Bool.false_ne_true hw.1
  · rw [hstep.previous, if_neg (hne j hj)]

/-- One more step, at the node `i`, keeps the `Progress`. -/
theorem step (h : Progress a done t) (hstep : Steps t i u) (hnodup : (done ++ [i]).Nodup)
    (hchildren : ((done ++ [i]).flatMap fun j => (a.node j).children).Nodup) :
    Progress a (done ++ [i]) u := by
  rw [List.nodup_append] at hnodup
  have hi : i ∉ done := fun hi => hnodup.2.2 i hi i (List.mem_singleton_self i) rfl
  have htokens := h.shape.isToken
  -- no other node of the row has a child of `i`
  have hdisjoint : ∀ j ∈ done, ∀ k ∈ (a.node j).children, k ∉ (a.node i).children := by
    rw [List.flatMap_append, List.nodup_append, List.flatMap_singleton] at hchildren
    intro j hj k hk hki
    exact hchildren.2.2 k (List.mem_flatMap.mpr ⟨j, hj, hk⟩) k hki rfl
  have hlast : a.lastToken none (done ++ [i]) = if (a.node i).isToken then some i else t.tail := by
    rw [lastToken_append, ← h.tail, lastToken, lastToken]
  refine ⟨h.shape.trans hstep.shape, ?_, ?_, ?_, ?_, ?_, ?_, ?_⟩
  · rw [hstep.tail, htokens, hlast]
  · rw [hstep.tail, hstep.pending]
    split
    · exact ⟨done, by simp, fun hnone => nomatch hnone⟩
    · obtain ⟨settled, hdone, hnone⟩ := h.waiting
      refine ⟨settled, ?_, hnone⟩
      rw [hdone, List.append_assoc, List.append_assoc]
  · intro j hj
    rw [hstep.tail] at hj
    split at hj
    · rename_i htoken
      obtain rfl : i = j := Option.some.inj hj
      rw [← htokens]
      exact htoken
    · exact h.token j hj
  · intro j hj
    rw [hstep.pending] at hj
    split at hj
    · exact nomatch hj
    · rename_i htoken
      rcases List.mem_append.mp hj with hj | hj
      · exact h.branches j hj
      · rw [List.mem_singleton.mp hj, ← htokens]
        exact Bool.eq_false_iff.mpr htoken
  · -- the old row gets its new neighbour, and the node goes to its end
    rw [linked_append]
    refine ⟨?_, ?_, ?_, trivial⟩
    · rw [firstToken, List.find?_cons, hstep.shape.isToken]
      cases htoken : (t.arena.node i).isToken with
      | true => exact h.linked_token hstep hnodup.1 hi htoken
      | false => exact h.linked_branch hstep hi htoken
    · rw [hstep.previous, if_pos rfl, lastToken_congr (a := a) fun j _ => ?_, h.tail]
      rw [hstep.shape.isToken, htokens]
    · rw [hstep.next, if_pos rfl]
      rfl
  · intro j hj k hk
    rw [hstep.parent, h.shape.children]
    rcases List.mem_append.mp hj with hj | hj
    · rw [if_neg (hdisjoint j hj k hk)]
      exact h.parents j hj k hk
    · rw [List.mem_singleton.mp hj] at hk ⊢
      rw [if_pos hk]
  · intro k hk
    rw [hstep.parent, h.shape.children, if_neg (hk i (by simp))]
    exact h.others k fun j hj => hk j (List.mem_append_left _ hj)

/-- Steps at all nodes of the row `is` keep the `Progress`. -/
theorem foldl {step : Threading → NodeId → Threading}
    (hstep : ∀ t i, Ready t i → Steps t i (step t i)) {is : List NodeId}
    (h : Progress a done t) (hnodup : (done ++ is).Nodup)
    (hchildren : ((done ++ is).flatMap fun j => (a.node j).children).Nodup)
    (hsize : ∀ j ∈ done ++ is, j < a.size)
    (hkids : ∀ j ∈ done ++ is, ∀ k ∈ (a.node j).children, k < a.size) :
    Progress a (done ++ is) (is.foldl step t) := by
  induction is generalizing done t with
  | nil =>
      rw [List.append_nil]
      exact h
  | cons i is ih =>
      have hsplit : done ++ i :: is = (done ++ [i]) ++ is := by simp
      rw [hsplit] at hnodup hchildren hsize hkids ⊢
      have hready : Ready t i := by
        refine ⟨?_, fun j hj => ?_, fun j hj => ?_⟩
        · rw [h.shape.size]
          exact hsize i (by simp)
        · rw [h.shape.size]
          exact hsize j (by simp [h.waiting_mem j hj])
        · rw [h.shape.size]
          rw [h.shape.children] at hj
          exact hkids i (by simp) j hj
      refine ih (h.step (hstep t i hready) ?_ ?_) hnodup hchildren hsize hkids
      · exact (List.nodup_append.mp hnodup).1
      · rw [List.flatMap_append] at hchildren
        exact (List.nodup_append.mp hchildren).1

end Progress

end RakuTree.Arena
