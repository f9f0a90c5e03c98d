import RakuTree.Proofs.Arena.Linked

/-!
# RakuTree.Proofs.Arena.Threaded

Threading and relinking a tree both leave it `Threaded`, whatever the links were before,
and there is only one way to be threaded.

Threading is a recursion down the tree, relinking a loop over its nodes in order. The
recursion is the loop in disguise (`visit_run`): it enters the nodes parents first and
hands its state from one to the next.
-/

namespace RakuTree.Arena

open Outline

/-! ### Trees with links -/

/-- The links of the tree `t` in the table `a` are what threading makes them. -/
structure Threaded (a : Arena) (t : Outline) : Prop where
  /-- The root of `t` has no parent but itself. -/
  root : (a.node t.root).parent = t.root
  /-- Children in `t` know their parents. -/
  parents : ∀ i ∈ t.ids, ∀ k ∈ (a.node i).children, (a.node k).parent = i
  /-- The nodes of `t` are linked in order, parents first. -/
  linked : Linked a none t.ids none

variable {a b : Arena} {t : Outline}

/-- There is only one way for a tree to be `Threaded`. -/
theorem Threaded.unique_of_fits (ha : Threaded a t) (hb : Threaded b t) (hfits : Fits a t)
    (htoken : ∀ j ∈ t.ids, (b.node j).isToken = (a.node j).isToken)
    (hchildren : ∀ j ∈ t.ids, (b.node j).children = (a.node j).children) :
    ∀ j ∈ t.ids, (b.node j).next = (a.node j).next ∧ (b.node j).previous = (a.node j).previous ∧
      (b.node j).parent = (a.node j).parent := by
  intro j hj
  obtain ⟨hnext, hprevious⟩ := ha.linked.unique hb.linked htoken j hj
  refine ⟨hnext, hprevious, ?_⟩
  by_cases hroot : j = t.root
  · rw [hroot, ha.root, hb.root]
  · obtain ⟨p, hp, hjp⟩ := hfits.exists_parent hj hroot
    rw [ha.parents p hp j hjp, hb.parents p hp j (hchildren p hp ▸ hjp)]

theorem Threaded.unique (hfits : Fits a t) (ha : Threaded a t) (hb : Threaded b t)
    (hshape : SameShape a b) :
    ∀ j ∈ t.ids, (b.node j).next = (a.node j).next ∧ (b.node j).previous = (a.node j).previous ∧
      (b.node j).parent = (a.node j).parent :=
  ha.unique_of_fits hb hfits (fun j _ => hshape.isToken j) fun j _ => hshape.children j

/-- What steps at all nodes of a tree leave: its nodes are `Linked` in order, and children know
their parents. The root keeps the parent it had. -/
theorem foldl_steps {step : Threading → NodeId → Threading}
    (hstep : ∀ t i, Ready t i → Steps t i (step t i)) (hfits : Fits a t) (hnodup : t.ids.Nodup) :
    SameShape a (t.ids.foldl step { arena := a }).arena ∧
      Linked (t.ids.foldl step { arena := a }).arena none t.ids none ∧
      (∀ i ∈ t.ids, ∀ k ∈ (a.node i).children,
        ((t.ids.foldl step { arena := a }).arena.node k).parent = i) ∧
      ((t.ids.foldl step { arena := a }).arena.node t.root).parent = (a.node t.root).parent := by
  have hprogress := (Progress.start a).foldl hstep hnodup (hfits.nodup_children hnodup)
    hfits.lt_size fun j hj k hk => hfits.lt_size k (hfits.child_mem_ids hj hk)
  rw [List.nil_append] at hprogress
  refine ⟨hprogress.shape, hprogress.linked, hprogress.parents, hprogress.others _ ?_⟩
  intro i hi hchild
  exact hfits.root_notMem_children hnodup hi hchild

/-- Steps at all nodes of a tree, if each `Steps` as it should, thread it. -/
theorem threaded_foldl {step : Threading → NodeId → Threading}
    (hstep : ∀ t i, Ready t i → Steps t i (step t i)) (hfits : Fits a t) (hnodup : t.ids.Nodup)
    (hroot : (a.node t.root).parent = t.root) :
    SameShape a (t.ids.foldl step { arena := a }).arena ∧
      Threaded (t.ids.foldl step { arena := a }).arena t := by
  obtain ⟨hshape, hlinked, hparents, hself⟩ := foldl_steps hstep hfits hnodup
  refine ⟨hshape, hself.trans hroot, fun i hi k hk => ?_, hlinked⟩
  rw [hshape.children] at hk
  exact hparents i hi k hk

/-! ### Relinking -/

theorem relink_sameShape (a : Arena) (i : NodeId) : SameShape a (a.relink i) := by
  have hsteps : ∀ (is : List NodeId) (t : Threading),
      SameShape t.arena (is.foldl relinkStep t).arena := by
    intro is
    induction is with
    | nil => exact fun t => .refl _
    | cons j is ih =>
        intro t
        exact ((t.adopt_sameShape j).trans ((t.adopt j).enter_alike j).toSameShape).trans (ih _)
  exact hsteps (a.walk i) { arena := a }

/-- Relinking by `relink` threads a tree whose root has no parent. -/
theorem relink_threaded (hfits : Fits a t) (hnodup : t.ids.Nodup)
    (hroot : (a.node t.root).parent = t.root) :
    SameShape a (a.relink t.root) ∧ Threaded (a.relink t.root) t := by
  rw [relink, hfits.walk_eq hnodup]
  exact threaded_foldl (fun t i h => t.adopt_enter_steps h) hfits hnodup hroot

/-- Relinking by `relink` threads any tree, but for the parent of its root. -/
theorem relink_setParent_threaded (hfits : Fits a t) (hnodup : t.ids.Nodup) :
    Threaded ((a.relink t.root).setParent t.root t.root) t := by
  have hstep : ∀ t i, Ready t i → Steps t i (relinkStep t i) :=
    fun t i h => t.adopt_enter_steps h
  rw [relink, hfits.walk_eq hnodup]
  obtain ⟨hshape, hlinked, hparents, -⟩ := foldl_steps hstep hfits hnodup
  generalize (t.ids.foldl relinkStep { arena := a }).arena = b at hshape hlinked hparents ⊢
  have hset := setParent_sameShape b t.root t.root
  have hlt : t.root < b.size := hshape.size ▸ hfits.lt_size _ t.root_mem_ids
  refine ⟨by rw [parent_setParent b _ hlt, if_pos rfl], fun i hi k hk => ?_, ?_⟩
  · rw [hset.children, hshape.children] at hk
    have hne : k ≠ t.root := fun hkr => hfits.root_notMem_children hnodup hi (hkr ▸ hk)
    rw [parent_setParent b _ hlt, if_neg hne]
    exact hparents i hi k hk
  · exact hlinked.congr (fun j _ => hset.isToken j)
      (fun j _ => field_update Node.next (fun _ => by rfl) b t.root j)
      fun j _ => field_update Node.previous (fun _ => by rfl) b t.root j

/-! ### Threading -/

/-- A step of threading at node `i`, as `visit` takes it. -/
def visitStep (t : Threading) (i : NodeId) : Threading := (t.enter i).adopt i

theorem visitStep_sameShape (t : Threading) (i : NodeId) :
    SameShape t.arena (visitStep t i).arena :=
  (t.enter_alike i).toSameShape.trans ((t.enter i).adopt_sameShape i)

theorem Threading.adopt_of_nil {t : Threading} {i : NodeId}
    (h : (t.arena.node i).children = []) : t.adopt i = t := by
  rw [adopt, h]
  rfl

theorem foldl_visitStep_sameShape (is : List NodeId) (t : Threading) :
    SameShape t.arena (is.foldl visitStep t).arena := by
  induction is generalizing t with
  | nil => exact .refl _
  | cons i is ih => exact (visitStep_sameShape t i).trans (ih _)

theorem run_bind_of_ok {α : Type} {x : EStateM ThreadError Threading α}
    {k : α → EStateM ThreadError Threading Unit} {t u : Threading} {y : α}
    (h : x.run t = .ok y u) : (x >>= k).run t = (k y).run u := by
  change EStateM.bind x k t = _
  have hx : x t = .ok y u := h
  simp only [EStateM.bind, hx]
  rfl

/-- Threading a node by `visit` takes a `visitStep` there and goes on with the children. -/
theorem visit_succ {t : Threading} {i : NodeId} (hkind : (t.arena.node i).kind? ≠ none)
    (hleaf : (t.arena.node i).kind? = some .leaf → (t.arena.node i).children = [])
    (depth : Nat) :
    (visit (depth + 1) i).run t =
      ((t.arena.node i).children.forM (visit depth)).run (visitStep t i) := by
  have hget : (get : EStateM ThreadError Threading Threading).run t = .ok t t := rfl
  rw [visit, run_bind_of_ok hget]
  cases hk : (t.arena.node i).kind? with
  | none => exact absurd hk hkind
  | some kind =>
      have htoken : (t.arena.node i).isToken = (kind != .branch) := by
        rw [Node.isToken, hk]
        rfl
      cases kind with
      | leaf =>
          -- a leaf has no children to adopt
          have hnil := hleaf hk
          have hstep : visitStep t i = t.link i := by
            rw [visitStep, Threading.enter, htoken]
            refine Threading.adopt_of_nil ?_
            exact ((t.link_alike i).children i).trans hnil
          simp only [hk]
          rw [hnil, hstep]
          rfl
      | branch =>
          have hstep : visitStep t i = (t.queue i).adopt i := by
            rw [visitStep, Threading.enter, htoken]
            rfl
          simp only [hk]
          rw [hstep]
          rfl
      | contextualizer =>
          have hstep : visitStep t i = (t.link i).adopt i := by
            rw [visitStep, Threading.enter, htoken]
            rfl
          simp only [hk]
          rw [hstep]
          rfl

/-- Going down a tree by `visit` takes a `visitStep` at each of its nodes in order. -/
theorem visit_run {u : Outline} (hfits : Fits a u) {depth : Nat} (hdepth : u.ids.length ≤ depth)
    {t : Threading} (hshape : SameShape a t.arena) :
    (visit depth u.root).run t = .ok () (u.ids.foldl visitStep t) := by
  induction hfits generalizing depth t with
  | @node i ks hi hch hkind hleaf _ ih =>
      rw [ids, List.length_cons] at hdepth
      cases depth with
      | zero => exact absurd hdepth (Nat.not_succ_le_zero _)
      | succ depth =>
          -- the children in a row; each hands its state on to the next
          have hlist : ∀ (ls : List Outline), ls ⊆ ks → ∀ t : Threading, SameShape a t.arena →
              ((ls.map Outline.root).forM (visit depth)).run t =
                .ok () ((idsList ls).foldl visitStep t) := by
            intro ls hls
            induction ls with
            | nil =>
                intro t _
                rw [idsList]
                rfl
            | cons l ls ihls =>
                intro t ht
                have hl : l ∈ ks := hls List.mem_cons_self
                have hlength := length_ids_le hl
                have hrun := ih l hl (by omega : l.ids.length ≤ depth) ht
                change ((visit depth l.root) >>= fun _ =>
                  (ls.map Outline.root).forM (visit depth)).run t = _
                rw [run_bind_of_ok hrun, idsList, List.foldl_append]
                refine ihls (fun k hk => hls (List.mem_cons_of_mem _ hk)) _ ?_
                exact ht.trans (foldl_visitStep_sameShape _ _)
          have hkids : (t.arena.node i).children = ks.map Outline.root := by
            rw [hshape.children, hch]
          rw [← hshape.kind?] at hkind hleaf
          have hnil : (t.arena.node i).kind? = some .leaf → (t.arena.node i).children = [] := by
            intro hl
            rw [hkids, hleaf hl, List.map_nil]
          rw [Outline.root, visit_succ hkind hnil, hkids, ids, List.foldl_cons]
          exact hlist ks (List.Subset.refl _) (visitStep t i)
            (hshape.trans (visitStep_sameShape t i))

/-- Threading by `thread` makes a tree `Threaded`, whatever its links were before. -/
theorem thread_threaded (hfits : Fits a t) (hnodup : t.ids.Nodup) :
    (a.thread t.root).2 = none ∧ SameShape a (a.thread t.root).1 ∧
      Threaded (a.thread t.root).1 t := by
  have hshape := setParent_sameShape a t.root t.root
  have hrun := visit_run hfits (hfits.length_le_size hnodup)
    (t := { arena := a.setParent t.root t.root }) hshape
  have hlt : t.root < a.size := hfits.lt_size _ t.root_mem_ids
  have hroot : ((a.setParent t.root t.root).node t.root).parent = t.root := by
    rw [parent_setParent a _ hlt, if_pos rfl]
  obtain ⟨hsame, hthreaded⟩ := threaded_foldl (fun t i h => t.enter_adopt_steps h)
    (hfits.sameShape hshape) hnodup hroot
  rw [thread, hrun]
  exact ⟨rfl, hshape.trans hsame, hthreaded⟩

/-! ### The token chain -/

/-- Following the links from the first token of a row that is `Linked` gives its tokens, and ends
there. -/
theorem chainFrom_eq {before : Option NodeId} {is : List NodeId} (h : Linked a before is none)
    (hnodup : is.Nodup) {first : NodeId} (hfirst : a.firstToken is = some first) {limit : Nat}
    (hlimit : (is.filter fun j => (a.node j).isToken).length ≤ limit) :
    a.chainFrom limit first = (is.filter fun j => (a.node j).isToken, false) := by
  induction is generalizing before first limit with
  | nil => exact nomatch hfirst
  | cons i is ih =>
      obtain ⟨-, hnext, hrest⟩ := h
      obtain ⟨hi, hnodup⟩ := List.nodup_cons.mp hnodup
      rw [firstToken, List.find?_cons] at hfirst
      cases htoken : (a.node i).isToken with
      | false =>
          -- no link leads to a branch, so the chain does not see it
          rw [htoken] at hfirst
          rw [List.filter_cons_of_neg (by simp [htoken])] at hlimit ⊢
          exact ih hrest hnodup hfirst hlimit
      | true =>
          rw [htoken] at hfirst
          obtain rfl : i = first := Option.some.inj hfirst
          rw [List.filter_cons_of_pos (by exact htoken)] at hlimit ⊢
          cases limit with
          | zero => exact absurd hlimit (Nat.not_succ_le_zero _)
          | succ limit =>
              rw [List.length_cons] at hlimit
              rw [chainFrom, isEnd, hnext, Option.or_none]
              cases hsecond : a.firstToken is with
              | none =>
                  -- the last token leads back to itself
                  have hnone : is.filter (fun j => (a.node j).isToken) = [] := by
                    rw [firstToken, ← List.head?_filter, List.head?_eq_none_iff] at hsecond
                    exact hsecond
                  rw [hnone, Option.getD_none, if_pos (by simp)]
              | some second =>
                  have hmem : second ∈ is := List.mem_of_find?_eq_some hsecond
                  have hne : second ≠ i := fun hsi => hi (hsi ▸ hmem)
                  rw [Option.getD_some, if_neg (by simpa using hne),
                    ih hrest hnodup hsecond (by omega)]

/-- In a tree that is `Threaded`, the chain from the first token holds the tokens and ends, as soon
as `limit` leaves room for them. -/
theorem Threaded.streamWithin_of_le (h : Threaded a t) (hfits : Fits a t) (hnodup : t.ids.Nodup)
    {limit : Nat} (hlimit : (a.tokens t.root).length ≤ limit) :
    a.streamWithin limit t.root = (a.tokens t.root, false) := by
  have htokens : a.tokens t.root = t.ids.filter fun j => (a.node j).isToken := by
    rw [tokens, hfits.walk_eq hnodup]
  rw [streamWithin]
  cases hcons : a.tokens t.root with
  | nil => rfl
  | cons first rest =>
      rw [htokens] at hlimit hcons
      refine Eq.trans ?_ (congrArg (·, false) hcons)
      refine chainFrom_eq h.linked hnodup ?_ hlimit
      rw [firstToken, ← List.head?_filter, hcons, List.head?_cons]

/-- In a tree that is `Threaded`, the chain is the tokens. -/
theorem Threaded.streamWithin_eq (h : Threaded a t) (hfits : Fits a t) (hnodup : t.ids.Nodup) :
    a.streamWithin (2 * a.size + 1) t.root = (a.tokens t.root, false) := by
  refine h.streamWithin_of_le hfits hnodup ?_
  have hlength : (a.tokens t.root).length ≤ (a.walk t.root).length := List.length_filter_le _ _
  have hsize := hfits.length_le_size hnodup
  rw [hfits.walk_eq hnodup] at hlength
  omega

/-! ### Upwards -/

/-- Going up from one node by `parent` comes to another by way of the nodes of a path. -/
inductive Climbs (a : Arena) : NodeId → List NodeId → NodeId → Prop
  /-- The node `i` is there already. -/
  | here {i : NodeId} : Climbs a i [] i
  /-- The parent `p` of `i` is one node up, and the rest of the way starts there. -/
  | up {i p r : NodeId} {path : List NodeId} (hp : (a.node i).parent = p) (hne : p ≠ i)
      (h : Climbs a p path r) : Climbs a i (p :: path) r

namespace Climbs

variable {i r : NodeId} {path : List NodeId}

theorem snoc {p : NodeId} (h : Climbs a i path r) (hp : (a.node r).parent = p) (hne : p ≠ r) :
    Climbs a i (path ++ [p]) p := by
  induction h with
  | here => exact .up hp hne .here
  | up hp' hne' _ ih => exact .up hp' hne' (ih hp hne)

theorem ancestorsWithin_eq (h : Climbs a i path r) (hr : (a.node r).parent = r) {depth : Nat}
    (hdepth : path.length ≤ depth) : a.ancestorsWithin depth i = path := by
  induction h generalizing depth with
  | here =>
      cases depth with
      | zero => rfl
      | succ depth => rw [ancestorsWithin, isRoot, hr, if_pos (by simp)]
  | up hp hne _ ih =>
      cases depth with
      | zero => exact absurd hdepth (Nat.not_succ_le_zero _)
      | succ depth =>
          rw [ancestorsWithin, isRoot, hp, if_neg (by simpa using hne),
            ih hr (Nat.le_of_succ_le_succ hdepth)]

theorem getLast?_getD (h : Climbs a i path r) : path.getLast?.getD i = r := by
  induction h with
  | here => rfl
  | up _ _ _ ih =>
      rw [List.getLast?_cons, Option.getD_some]
      exact ih

end Climbs

/-- The way down to a node, backwards, in a table `b` where children know their parents. -/
theorem Route.climbs {k u : Outline} {path : List NodeId} {f : List Outline → Outline}
    (h : Route k path u f) (hfits : Fits a u) (hnodup : u.ids.Nodup)
    (hparents : ∀ i ∈ u.ids, ∀ k ∈ (a.node i).children, (b.node k).parent = i) :
    Climbs b k.root path u.root ∧ path.length < u.ids.length := by
  -- one step up from a child to the root of a tree
  have hstep : ∀ {l : Outline} {i : NodeId} {ks : List Outline}, l ∈ ks →
      Fits a (.node i ks) → (Outline.node i ks).ids.Nodup →
      (∀ j ∈ (Outline.node i ks).ids, ∀ k ∈ (a.node j).children, (b.node k).parent = j) →
      (b.node l.root).parent = i ∧ i ≠ l.root ∧ l.ids.length < (Outline.node i ks).ids.length := by
    intro l i ks hl hfits hnodup hparents
    rw [ids, List.nodup_cons] at hnodup
    cases hfits with
    | node _ hch _ _ _ =>
        refine ⟨hparents i (by simp [ids]) l.root (hch ▸ List.mem_map_of_mem hl), ?_, ?_⟩
        · exact fun hil => hnodup.1 (hil ▸ (ids_sublist hl).subset l.root_mem_ids)
        · rw [ids, List.length_cons]
          exact Nat.lt_succ_of_le (length_ids_le hl)
  induction h with
  | here =>
      obtain ⟨hparent, hne, hlt⟩ := hstep (l := k) (by simp) hfits hnodup hparents
      have hpos : 0 < k.ids.length := List.length_pos_of_mem k.root_mem_ids
      exact ⟨.up hparent hne .here, Nat.lt_of_le_of_lt hpos hlt⟩
  | @deeper path t f i left right h ih =>
      have hkid : t ∈ left ++ t :: right := by simp
      obtain ⟨hparent, hne, hlt⟩ := hstep hkid hfits hnodup hparents
      have hnodup' := hnodup.sublist ((ids_sublist hkid).cons i)
      cases hfits with
      | node _ _ _ _ hks =>
          obtain ⟨hclimbs, hlength⟩ := ih (hks t hkid) hnodup' fun j hj =>
            hparents j (mem_ids_of_kid hkid i hj)
          refine ⟨hclimbs.snoc hparent hne, ?_⟩
          rw [List.length_append, List.length_singleton]
          omega

/-- The nodes above a node of a tree, in any table `b` with the parents of the tree. -/
theorem Threaded.ancestors_eq (h : Threaded a t) (hfits : Fits a t) (hnodup : t.ids.Nodup)
    (hsize : a.size ≤ b.size) (hb : ∀ j ∈ t.ids, (b.node j).parent = (a.node j).parent)
    {k : Outline} {path : List NodeId} {f : List Outline → Outline} (hroute : Route k path t f) :
    b.ancestors k.root = path ∧ b.root k.root = t.root := by
  have hparents : ∀ j ∈ t.ids, ∀ k ∈ (a.node j).children, (b.node k).parent = j := by
    intro j hj k hk
    rw [hb k (hfits.child_mem_ids hj hk), h.parents j hj k hk]
  obtain ⟨hclimbs, hlength⟩ := hroute.climbs hfits hnodup hparents
  have hroot : (b.node t.root).parent = t.root := by
    rw [hb _ t.root_mem_ids, h.root]
  have hle := hfits.length_le_size hnodup
  have hancestors : b.ancestors k.root = path := hclimbs.ancestorsWithin_eq hroot (by omega)
  exact ⟨hancestors, by rw [Arena.root, hancestors, hclimbs.getLast?_getD]⟩

/-- The root above every node of a tree, in any table `b` with the parents of the tree. -/
theorem Threaded.root_eq (h : Threaded a t) (hfits : Fits a t) (hnodup : t.ids.Nodup)
    (hsize : a.size ≤ b.size) (hb : ∀ j ∈ t.ids, (b.node j).parent = (a.node j).parent)
    {i : NodeId} (hi : i ∈ t.ids) (hne : i ≠ t.root) : b.root i = t.root := by
  obtain ⟨k, path, f, rfl, hroute⟩ := exists_route t hi hne
  exact (h.ancestors_eq hfits hnodup hsize hb hroute).2

end RakuTree.Arena
