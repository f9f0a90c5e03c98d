import RakuTree.Arena.Check
import RakuTree.Proofs.Arena.Edits

/-!
# RakuTree.Proofs.Arena.Chain

What threading makes of a tree, link by link, whatever the links were before.

`Threaded` says it by recursion along the nodes in order. Here it is read off for one
node at a time: a token is linked to its neighbours in the chain (`Chained`), and a
branch leads to the last token before it and to the first one behind. Both are the same
fact about a place in the row of nodes (`Linked.links_at`).

Threading writes links only, and only those of the tree (`Relinked`). Since the links of a
threaded tree are given by its shape, every way to thread it comes to the same table
(`thread_eq_of_threaded`): threading it once more gives back what was there, and relinking
gives what threading gives.
-/

namespace RakuTree

/-! ### Only links change -/

/-- The node `n` with all links taken off. -/
def Node.unlinked (n : Node) : Node := { n with next := 0, previous := 0, parent := 0 }

theorem Node.eq_of_unlinked {m n : Node} (h : m.unlinked = n.unlinked) (hnext : m.next = n.next)
    (hprevious : m.previous = n.previous) (hparent : m.parent = n.parent) : m = n := by
  cases m
  cases n
  simp_all [unlinked]

namespace Arena

open Outline

/-- Only links differ, and only those of the nodes in `is`. -/
structure Relinked (is : List NodeId) (a b : Arena) : Prop where
  /-- No node comes or goes from `a` to `b`. -/
  size : b.size = a.size
  /-- Apart from links, nodes of `b` are as they were. -/
  unlinked : ∀ j, (b.node j).unlinked = (a.node j).unlinked
  /-- Nodes other than `is` stay as they are altogether. -/
  others : ∀ j, j ∉ is → b.node j = a.node j

variable {a b c : Arena} {is : List NodeId}

namespace Relinked

theorem refl (is : List NodeId) (a : Arena) : Relinked is a a :=
  ⟨rfl, fun _ => rfl, fun _ _ => rfl⟩

theorem trans (hab : Relinked is a b) (hbc : Relinked is b c) : Relinked is a c where
  size := hbc.size.trans hab.size
  unlinked := fun j => (hbc.unlinked j).trans (hab.unlinked j)
  others := fun j hj => (hbc.others j hj).trans (hab.others j hj)

theorem update {f : Node → Node} (hf : ∀ n, (f n).unlinked = n.unlinked) (a : Arena)
    {i : NodeId} (hi : i ∈ is) : Relinked is a (a.update i f) where
  size := size_update a i f
  unlinked := field_update Node.unlinked hf a i
  others := by
    intro j hj
    have hji : j ≠ i := fun hji => hj (hji ▸ hi)
    exact node_update_of_ne hji f

theorem setNext (a : Arena) {i : NodeId} (hi : i ∈ is) (x : NodeId) :
    Relinked is a (a.setNext i x) :=
  update (fun _ => by rfl) a hi

theorem setPrevious (a : Arena) {i : NodeId} (hi : i ∈ is) (x : NodeId) :
    Relinked is a (a.setPrevious i x) :=
  update (fun _ => by rfl) a hi

theorem setParent (a : Arena) {i : NodeId} (hi : i ∈ is) (x : NodeId) :
    Relinked is a (a.setParent i x) :=
  update (fun _ => by rfl) a hi

theorem sameShape (h : Relinked is a b) : SameShape a b where
  size := h.size
  cls := fun j => by
    have hunlinked := congrArg Node.cls (h.unlinked j)
    exact hunlinked
  children := fun j => by
    have hunlinked := congrArg Node.children (h.unlinked j)
    exact hunlinked

/-- A fold of changes at nodes in `is`. -/
theorem foldl {step : Arena → NodeId → Arena} (h : ∀ b, ∀ k ∈ is, Relinked is b (step b k))
    {ks : List NodeId} (hks : ∀ k ∈ ks, k ∈ is) (a : Arena) : Relinked is a (ks.foldl step a) := by
  induction ks generalizing a with
  | nil => exact refl is a
  | cons k ks ih =>
      obtain ⟨hk, hrest⟩ := List.forall_mem_cons.mp hks
      exact (h a k hk).trans (ih hrest _)

end Relinked

/-! ### Threading only sets links -/

theorem Threading.enter_relinked {t : Threading} {i : NodeId} (hi : i ∈ is)
    (hwaiting : ∀ j ∈ t.tail.toList ++ t.pending, j ∈ is) :
    Relinked is t.arena (t.enter i).arena := by
  rw [enter]
  split
  · rw [link]
    refine Relinked.trans ?_ ((Relinked.setNext _ hi i).trans
      (Relinked.foldl (fun b k hk => Relinked.setNext b hk i) ?_ _))
    · cases ht : t.tail with
      | none => exact Relinked.setPrevious _ hi _
      | some j =>
          have hj : j ∈ is := hwaiting j (by simp [ht])
          exact (Relinked.setNext _ hj i).trans (Relinked.setPrevious _ hi j)
    · intro k hk
      exact hwaiting k (List.mem_append_right _ hk)
  · exact (Relinked.setPrevious _ hi _).trans (Relinked.setNext _ hi _)

theorem Threading.adopt_relinked {t : Threading} {i : NodeId}
    (hchildren : ∀ k ∈ (t.arena.node i).children, k ∈ is) :
    Relinked is t.arena (t.adopt i).arena :=
  Relinked.foldl (fun b _ hk => Relinked.setParent b hk i) hchildren _

/-- What waits after `i` was entered waited before or is `i` itself. -/
theorem Threading.enter_waiting {t : Threading} {i : NodeId} (hi : i ∈ is)
    (hwaiting : ∀ j ∈ t.tail.toList ++ t.pending, j ∈ is) :
    ∀ j ∈ (t.enter i).tail.toList ++ (t.enter i).pending, j ∈ is := by
  intro j hj
  rw [enter_tail, enter_pending] at hj
  by_cases htoken : (t.arena.node i).isToken = true
  · simp only [htoken, if_true, Option.toList_some, List.append_nil, List.mem_singleton] at hj
    exact hj ▸ hi
  · rw [if_neg htoken, if_neg htoken, ← List.append_assoc] at hj
    rcases List.mem_append.mp hj with hj | hj
    · exact hwaiting j hj
    · exact List.mem_singleton.mp hj ▸ hi

/-- A run sets links of nodes in `is` only, if each of its steps does. -/
theorem foldl_relinked {step : Threading → NodeId → Threading}
    (hstep : ∀ t, ∀ i ∈ is, (∀ k ∈ (t.arena.node i).children, k ∈ is) →
      (∀ j ∈ t.tail.toList ++ t.pending, j ∈ is) → Relinked is t.arena (step t i).arena ∧
        ∀ j ∈ (step t i).tail.toList ++ (step t i).pending, j ∈ is)
    {ks : List NodeId} {t : Threading} (hks : ∀ i ∈ ks, i ∈ is)
    (hchildren : ∀ i ∈ ks, ∀ k ∈ (t.arena.node i).children, k ∈ is)
    (hwaiting : ∀ j ∈ t.tail.toList ++ t.pending, j ∈ is) :
    Relinked is t.arena (ks.foldl step t).arena := by
  induction ks generalizing t with
  | nil => exact .refl is _
  | cons i ks ih =>
      obtain ⟨hi, hrest⟩ := List.forall_mem_cons.mp hks
      obtain ⟨hkids, hrestKids⟩ := List.forall_mem_cons.mp hchildren
      obtain ⟨hfirst, hwaiting'⟩ := hstep t i hi hkids hwaiting
      refine hfirst.trans (ih hrest ?_ hwaiting')
      intro j hj k hk
      rw [hfirst.sameShape.children] at hk
      exact hrestKids j hj k hk

theorem visitStep_relinked {t : Threading} {i : NodeId} (hi : i ∈ is)
    (hchildren : ∀ k ∈ (t.arena.node i).children, k ∈ is)
    (hwaiting : ∀ j ∈ t.tail.toList ++ t.pending, j ∈ is) :
    Relinked is t.arena (visitStep t i).arena ∧
      ∀ j ∈ (visitStep t i).tail.toList ++ (visitStep t i).pending, j ∈ is := by
  refine ⟨(Threading.enter_relinked hi hwaiting).trans (Threading.adopt_relinked ?_),
    Threading.enter_waiting hi hwaiting⟩
  rwa [(t.enter_alike i).children]

theorem relinkStep_relinked {t : Threading} {i : NodeId} (hi : i ∈ is)
    (hchildren : ∀ k ∈ (t.arena.node i).children, k ∈ is)
    (hwaiting : ∀ j ∈ t.tail.toList ++ t.pending, j ∈ is) :
    Relinked is t.arena (relinkStep t i).arena ∧
      ∀ j ∈ (relinkStep t i).tail.toList ++ (relinkStep t i).pending, j ∈ is :=
  ⟨(Threading.adopt_relinked hchildren).trans (Threading.enter_relinked (t := t.adopt i) hi hwaiting),
    Threading.enter_waiting (t := t.adopt i) hi hwaiting⟩

/-- Relinking a tree by `relink` sets links of the tree and nothing else. -/
theorem relink_relinked {t : Outline} (hfits : Fits a t) (hnodup : t.ids.Nodup) :
    Relinked t.ids a (a.relink t.root) := by
  rw [relink, hfits.walk_eq hnodup]
  refine foldl_relinked (fun u i hi hchildren => relinkStep_relinked hi hchildren)
    (t := { arena := a }) (fun i hi => hi) ?_ ?_
  · exact fun i hi k hk => hfits.child_mem_ids hi hk
  · exact fun j hj => absurd hj List.not_mem_nil

/-- Threading a tree by `thread` sets links of the tree and nothing else. -/
theorem thread_relinked {t : Outline} (hfits : Fits a t) (hnodup : t.ids.Nodup) :
    Relinked t.ids a (a.thread t.root).1 := by
  have hshape := setParent_sameShape a t.root t.root
  have hrun := visit_run hfits (hfits.length_le_size hnodup)
    (t := { arena := a.setParent t.root t.root }) hshape
  have hthread : (a.thread t.root).1 =
      (t.ids.foldl visitStep { arena := a.setParent t.root t.root }).arena := by
    rw [thread, hrun]
  rw [hthread]
  refine (Relinked.setParent a t.root_mem_ids t.root).trans
    (foldl_relinked (fun u i hi hchildren => visitStep_relinked hi hchildren)
      (t := { arena := a.setParent t.root t.root }) (fun i hi => hi) ?_ ?_)
  · intro i hi k hk
    rw [hshape.children] at hk
    exact hfits.child_mem_ids hi hk
  · intro j hj
    exact absurd hj List.not_mem_nil

/-- Threading comes to every table `b` that is `Threaded` and differs in links of the tree only. -/
theorem thread_eq_of_threaded {t : Outline} (hfits : Fits a t) (hnodup : t.ids.Nodup)
    (hrelinked : Relinked t.ids a b) (hb : Threaded b t) : a.thread t.root = (b, none) := by
  obtain ⟨hnone, hshape, hthreaded⟩ := thread_threaded hfits hnodup
  have hthread := thread_relinked hfits hnodup
  have hsame : (a.thread t.root).1 = b := by
    refine eq_of_node_eq (hthread.size.trans hrelinked.size.symm) fun j _ => ?_
    by_cases hj : j ∈ t.ids
    · obtain ⟨hnext, hprevious, hparent⟩ :=
        hb.unique_of_fits hthreaded (hfits.sameShape hrelinked.sameShape)
          (fun k _ => (hshape.isToken k).trans (hrelinked.sameShape.isToken k).symm)
          (fun k _ => (hshape.children k).trans (hrelinked.sameShape.children k).symm) j hj
      exact Node.eq_of_unlinked ((hthread.unlinked j).trans (hrelinked.unlinked j).symm) hnext
        hprevious hparent
    · exact (hthread.others j hj).trans (hrelinked.others j hj).symm
  exact Prod.ext hsame hnone

/-- Threading a tree that is `Threaded` changes nothing at all. -/
theorem thread_eq_self {t : Outline} (hfits : Fits a t) (hnodup : t.ids.Nodup)
    (h : Threaded a t) : a.thread t.root = (a, none) :=
  thread_eq_of_threaded hfits hnodup (.refl _ a) h

/-- A tree that was threaded is a tree for which `thread` changes nothing. -/
theorem IsTree.thread {r : NodeId} (h : IsTree a r) :
    IsTree (a.thread r).1 r ∧ (a.thread r).1.thread r = ((a.thread r).1, none) := by
  obtain ⟨t, rfl, hfits, hnodup⟩ := h
  obtain ⟨-, hshape, hthreaded⟩ := thread_threaded hfits hnodup
  have hfits' := hfits.sameShape hshape
  exact ⟨⟨t, rfl, hfits', hnodup⟩, thread_eq_self hfits' hnodup hthreaded⟩

/-! ### Reading links off a row -/

theorem lastToken_eq (a : Arena) (before : Option NodeId) (is : List NodeId) :
    a.lastToken before is = ((is.filter fun j => (a.node j).isToken).getLast?).or before := by
  induction is generalizing before with
  | nil => rfl
  | cons i is ih =>
      rw [lastToken, ih]
      by_cases htoken : (a.node i).isToken = true
      · rw [if_pos htoken, List.filter_cons_of_pos (by exact htoken), List.getLast?_cons]
        cases (is.filter fun j => (a.node j).isToken).getLast? with
        | none => rfl
        | some j => rfl
      · rw [if_neg htoken, List.filter_cons_of_neg (by exact htoken)]

/-- The links of the node `i` of a row: to the last token in front of it and to the first one behind
it, or to itself where there is none. -/
theorem Linked.links_at {front back : List NodeId} {i : NodeId}
    (h : Linked a none (front ++ i :: back) none) :
    (a.node i).previous = ((front.filter fun j => (a.node j).isToken).getLast?).getD i ∧
      (a.node i).next = ((back.filter fun j => (a.node j).isToken).head?).getD i := by
  obtain ⟨-, hprevious, hnext, -⟩ := linked_append.mp h
  rw [lastToken_eq, Option.or_none] at hprevious
  rw [firstToken, ← List.head?_filter, Option.or_none] at hnext
  exact ⟨hprevious, hnext⟩

/-- The tokens `ts` are all of a chain, linked both ways from its first to its last. -/
structure Chained (a : Arena) (ts : List NodeId) : Prop where
  /-- There is nothing before the first of `ts`. -/
  first : ∀ t ∈ ts.head?, (a.node t).previous = t
  /-- There is nothing behind the last of `ts`. -/
  last : ∀ t ∈ ts.getLast?, (a.node t).next = t
  /-- Neighbours in `ts` lead to each other. -/
  neighbours : ∀ front s t back, ts = front ++ s :: t :: back →
    (a.node s).next = t ∧ (a.node t).previous = s

/-- The tokens of a row that is `Linked` make up a chain. -/
theorem Linked.chained (h : Linked a none is none) :
    Chained a (is.filter fun j => (a.node j).isToken) := by
  refine ⟨fun t ht => ?_, fun t ht => ?_, fun tokens s t rest hsplit => ?_⟩
  · rw [Option.mem_def, List.head?_eq_some_iff] at ht
    obtain ⟨ts, hts⟩ := ht
    obtain ⟨front, back, rfl, hfront, -, -⟩ := List.filter_eq_cons_iff.mp hts
    rw [h.links_at.1, List.filter_eq_nil_iff.mpr hfront]
    rfl
  · rw [Option.mem_def, List.getLast?_eq_some_iff] at ht
    obtain ⟨ts, hts⟩ := ht
    obtain ⟨front, rest, rfl, -, hrest⟩ := List.filter_eq_append_iff.mp hts
    obtain ⟨middle, back, rfl, -, -, hback⟩ := List.filter_eq_cons_iff.mp hrest
    rw [← List.append_assoc] at h
    rw [h.links_at.2, hback]
    rfl
  · -- between two neighbours of the chain there are only branches
    obtain ⟨front, tail, rfl, -, htail⟩ := List.filter_eq_append_iff.mp hsplit
    obtain ⟨left, tail, rfl, -, hs, htail⟩ := List.filter_eq_cons_iff.mp htail
    obtain ⟨middle, back, rfl, hmiddle, ht, -⟩ := List.filter_eq_cons_iff.mp htail
    rw [← List.append_assoc] at h
    refine ⟨?_, ?_⟩
    · rw [h.links_at.2, htail]
      rfl
    · rw [← List.cons_append, ← List.append_assoc] at h
      rw [h.links_at.1, List.filter_append, List.filter_cons_of_pos (by exact hs),
        List.filter_eq_nil_iff.mpr hmiddle, List.getLast?_concat]
      rfl

/-! ### Threading a tree -/

/-- **Threading establishes the stream.** Whatever the links of a tree were, threading goes
through and sets nothing but links of the tree. Then children know their parents and the
root is its own parent; the tokens are a chain; a branch leads to the first token at or
behind it and back to the last token before it, or to itself where there is none; following
the chain comes to its end and gives the tokens; and threading again changes nothing. -/
theorem thread_establishes_stream {a : Arena} {r : NodeId} (h : IsTree a r) :
    ((a.thread r).2 = none ∧ Relinked (a.walk r) a (a.thread r).1) ∧
      ((∀ i ∈ a.walk r, ∀ k ∈ (a.node i).children, ((a.thread r).1.node k).parent = i) ∧
        ((a.thread r).1.node r).parent = r) ∧
      Chained (a.thread r).1 (a.tokens r) ∧
      (∀ front i back, a.walk r = front ++ i :: back → (a.node i).kind? = some .branch →
        ((a.thread r).1.node i).next =
            ((back.filter fun j => (a.node j).isToken).head?).getD i ∧
          ((a.thread r).1.node i).previous =
            ((front.filter fun j => (a.node j).isToken).getLast?).getD i) ∧
      ((∀ limit, (a.tokens r).length ≤ limit →
          (a.thread r).1.streamWithin limit r = (a.tokens r, false)) ∧
        (a.thread r).1.stream r = a.tokens r) ∧
      (a.thread r).1.thread r = ((a.thread r).1, none) := by
  obtain ⟨t, rfl, hfits, hnodup⟩ := h
  obtain ⟨hnone, hshape, hthreaded⟩ := thread_threaded hfits hnodup
  have hfits' := hfits.sameShape hshape
  have hrelinked := thread_relinked hfits hnodup
  -- classes stay, so the tokens are the same before and after
  have hisToken : (fun j => ((a.thread t.root).1.node j).isToken) = fun j => (a.node j).isToken :=
    funext hshape.isToken
  have hwalk : a.walk t.root = t.ids := hfits.walk_eq hnodup
  have htokens : (a.thread t.root).1.tokens t.root = a.tokens t.root := by
    rw [tokens, tokens, hfits'.walk_eq hnodup, hwalk, hisToken]
  have hchained := hthreaded.linked.chained
  rw [hisToken, ← hwalk] at hchained
  refine ⟨⟨hnone, hwalk ▸ hrelinked⟩, ⟨fun i hi k hk => ?_, hthreaded.root⟩, hchained,
    fun front i back hsplit _ => ?_, ⟨fun limit hlimit => ?_, ?_⟩, ?_⟩
  · rw [hwalk] at hi
    exact hthreaded.parents i hi k (hshape.children i ▸ hk)
  · rw [hwalk] at hsplit
    have hlinked := hthreaded.linked
    rw [hsplit] at hlinked
    obtain ⟨hprevious, hnext⟩ := hlinked.links_at
    rw [hisToken] at hprevious hnext
    exact ⟨hnext, hprevious⟩
  · rw [← htokens] at hlimit ⊢
    exact hthreaded.streamWithin_of_le hfits' hnodup hlimit
  · rw [stream, hthreaded.streamWithin_eq hfits' hnodup, htokens]
  · exact thread_eq_self hfits' hnodup hthreaded

/-- A document with an empty statement in front of `$()`. -/
def sampleContext : Element :=
  .branch .document (.ofText 0 ['$', '(', ')']) none
    [.branch .statement (.ofText 0 []) none [],
      .contextualizer (some .scalar) (.ofText 0 ['$']) ['$'] none
        [.leaf ⟨.balancedEnter, .ofText 1 ['('], ['('], none, {}⟩,
          .leaf ⟨.balancedExit, .ofText 2 [')'], [')'], none, {}⟩]]

/-- The sample with links that lead astray: round in circles, and to wrong parents. `thread` does
not look at them. -/
def sampleTangled : Arena :=
  ((((ofElement sampleContext).setNext 3 2).setPrevious 2 4).setParent 3 1).setParent 0 4

theorem sample_establishes_stream :
    IsTree sampleTangled 0 ∧ (sampleTangled.thread 0).1.stream 0 = sampleTangled.tokens 0 ∧
      sampleTangled.tokens 0 = [2, 3, 4] ∧
      (sampleTangled.thread 0).1.links 0 = [(2, 0, 0), (2, 1, 0), (3, 2, 0), (4, 2, 2), (4, 3, 2)] ∧
      (sampleTangled.thread 0).1.thread 0 = ((sampleTangled.thread 0).1, none) := by
  have hshape : SameShape (ofElement sampleContext) sampleTangled :=
    (((setNext_alike _ 3 2).trans (setPrevious_alike _ 2 4)).toSameShape.trans
      (setParent_sameShape _ 3 1)).trans (setParent_sameShape _ 0 4)
  have htree : IsTree sampleTangled 0 := by
    obtain ⟨t, hroot, hfits, hnodup⟩ := isTree_ofElement (e := sampleContext) (by decide)
    exact ⟨t, hroot, hfits.sameShape hshape, hnodup⟩
  obtain ⟨-, -, -, -, ⟨-, hstream⟩, hagain⟩ := thread_establishes_stream htree
  exact ⟨htree, hstream, by decide +kernel, by decide +kernel, hagain⟩

/-! ### Relinking a tree -/

/-- **Threading and relinking agree.** Whatever the links of a tree were, the loop over its nodes
and the recursion down the tree come to the same table, if only the root is then made its own
parent. Where it was so before, they come to the same table as it is. -/
theorem thread_eq_relink {a : Arena} {r : NodeId} (h : IsTree a r) :
    a.thread r = ((a.relink r).setParent r r, none) ∧
      ((a.node r).parent = r → a.thread r = (a.relink r, none)) := by
  obtain ⟨t, rfl, hfits, hnodup⟩ := h
  have hrelinked := relink_relinked hfits hnodup
  refine ⟨?_, fun hroot => ?_⟩
  · have hset := Relinked.setParent (a.relink t.root) t.root_mem_ids t.root
    exact thread_eq_of_threaded hfits hnodup (hrelinked.trans hset)
      (relink_setParent_threaded hfits hnodup)
  · exact thread_eq_of_threaded hfits hnodup hrelinked (relink_threaded hfits hnodup hroot).2

/-- The sample with links that lead astray, but for the parent of its root, which `relink` keeps. -/
def sampleAstray : Arena :=
  (((ofElement sampleContext).setNext 3 2).setPrevious 2 4).setParent 3 1

theorem sample_thread_eq_relink :
    IsTree sampleAstray 0 ∧ (sampleAstray.node 0).parent = 0 ∧
      sampleAstray.links 0 = [(0, 0, 0), (1, 1, 1), (2, 4, 2), (2, 3, 1), (4, 4, 4)] ∧
      sampleAstray.thread 0 = (sampleAstray.relink 0, none) := by
  have hshape : SameShape (ofElement sampleContext) sampleAstray :=
    ((setNext_alike _ 3 2).trans (setPrevious_alike _ 2 4)).toSameShape.trans
      (setParent_sameShape _ 3 1)
  have htree : IsTree sampleAstray 0 := by
    obtain ⟨t, hroot, hfits, hnodup⟩ := isTree_ofElement (e := sampleContext) (by decide)
    exact ⟨t, hroot, hfits.sameShape hshape, hnodup⟩
  have hroot : (sampleAstray.node 0).parent = 0 := by decide +kernel
  exact ⟨htree, hroot, by decide +kernel, (thread_eq_relink htree).2 hroot⟩

end Arena

end RakuTree
