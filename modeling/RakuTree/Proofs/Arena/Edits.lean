import Mathlib.Data.List.Nodup
import Mathlib.Logic.Relation
import RakuTree.Proofs.Arena.Numbered
import RakuTree.Proofs.Arena.Threaded

/-!
# RakuTree.Proofs.Arena.Edits

Edits keep a document threaded.

An edit mends the chain around the place where it cuts, and that is hard to follow: the
ends of the chain, branches without tokens and stale links of nodes that were removed
earlier all are cases of their own. But none of it matters. All that has to be known about
an edit before it relinks is that it got the child list of one node right and left classes
and the other child lists alone; relinking then threads the tree, whatever the links are
(`Intact.relink_rehung`).
-/

namespace RakuTree.Arena

open Outline

/-- The tree `t` at `r` is in the table, with each node once, and is threaded. -/
structure Intact (a : Arena) (r : NodeId) (t : Outline) : Prop where
  /-- The tree `t` is rooted at `r`. -/
  root : t.root = r
  /-- The table `a` holds the tree `t`. -/
  fits : Fits a t
  /-- No node occurs twice in `t`. -/
  nodup : t.ids.Nodup
  /-- The links of `t` are right. -/
  threaded : Threaded a t

variable {a b : Arena} {r : NodeId} {t : Outline}

namespace Intact

theorem walk_eq (h : Intact a r t) : a.walk r = t.ids := by
  rw [← h.root]
  exact h.fits.walk_eq h.nodup

/-- No node `p` is below itself. -/
theorem notMem_below (h : Intact a r t) {p : NodeId} {ks : List Outline}
    {front back : List NodeId} (hfocus : Focus p t ks front back) : p ∉ idsList ks := by
  have hnodup := h.nodup
  rw [hfocus.ids, List.nodup_append, List.nodup_cons] at hnodup
  intro hp
  exact hnodup.2.1.1 (List.mem_append_left _ hp)

/-- What is known about a child `k` of the node in `Focus`. -/
theorem focus_child (h : Intact a r t) {p : NodeId} {left right : List Outline} {k : Outline}
    {front back : List NodeId} (hfocus : Focus p t (left ++ k :: right) front back) :
    p ∈ t.ids ∧ k.root ∈ t.ids ∧ k.root ≠ r ∧ (a.node k.root).parent = p ∧ p ≠ k.root ∧
      Fits a k ∧ k.ids.Nodup ∧ k.root ∉ left.map Outline.root := by
  have hp : p ∈ t.ids := by simp [hfocus.ids]
  have hbelow : k.root ∈ idsList (left ++ k :: right) :=
    mem_idsList.mpr ⟨k, by simp, k.root_mem_ids⟩
  have hnodup := h.nodup
  rw [hfocus.ids, idsList_append, idsList] at hnodup
  have hkids := (List.nodup_cons.mp hnodup.of_append_right).2.of_append_left
  cases hfocus.fits h.fits with
  | node _ hch _ _ hks =>
      have hchild : k.root ∈ (a.node p).children := by simp [hch]
      have hmem : k.root ∈ idsList t.kids := h.fits.child_mem hp hchild
      refine ⟨hp, h.fits.child_mem_ids hp hchild, fun hroot => ?_, h.threaded.parents p hp _ hchild,
        fun hpk => ?_, hks k (by simp), hkids.of_append_right.of_append_left, fun hleft => ?_⟩
      · rw [hroot, ← h.root] at hmem
        have hroot := h.nodup
        rw [ids_eq, List.nodup_cons] at hroot
        exact hroot.1 hmem
      · exact h.notMem_below hfocus (hpk ▸ hbelow)
      · exact (List.nodup_append.mp hkids).2.2 _ ((map_root_sublist left).subset hleft) _
          (List.mem_append_left _ k.root_mem_ids) rfl

/-- A node `i` that is not the root stands among its siblings below another node. -/
theorem exists_siblings (h : Intact a r t) {i : NodeId} (hi : i ∈ t.ids) (hne : i ≠ r) :
    ∃ p left k right front back, k.root = i ∧ Focus p t (left ++ k :: right) front back := by
  obtain ⟨k, path, f, hk, hroute⟩ := exists_route t hi (h.root ▸ hne)
  obtain ⟨p, left, right, front, back, hfocus, -⟩ := hroute.exists_focus h.nodup
  exact ⟨p, left, k, right, front, back, hk, hfocus⟩

end Intact

/-! ### Changing one child list -/

/-- Node `p` has the children `ks` now, and node `i` the parent `q`. Otherwise only the chain
and ranges differ. -/
structure Rehung (a b : Arena) (p : NodeId) (ks : List NodeId) (i q : NodeId) : Prop where
  /-- No node comes or goes from `a` to `b`. -/
  size : b.size = a.size
  /-- Classes stay as they are in `a`. -/
  cls : ∀ j, (b.node j).cls = (a.node j).cls
  /-- The child lists other than that of `p` stay. -/
  children : ∀ j, (b.node j).children = if j = p then ks else (a.node j).children
  /-- The parents of nodes other than `i` stay. -/
  parent : ∀ j, (b.node j).parent = if j = i then q else (a.node j).parent

namespace Rehung

variable {c : Arena} {p i q : NodeId} {ks : List NodeId}

theorem set (hi : i < a.size) (hp : p < a.size) :
    Rehung a ((a.setChildren p ks).setParent i q) p ks i q := by
  have hi' : i < (a.setChildren p ks).size := by
    rw [setChildren, size_update]
    exact hi
  refine ⟨?_, fun j => ?_, fun j => ?_, fun j => ?_⟩
  · rw [setParent, size_update, setChildren, size_update]
  · rw [(setParent_sameShape _ i q).cls, cls_setChildren]
  · rw [(setParent_sameShape _ i q).children, children_setChildren a hp]
  · rw [parent_setParent _ _ hi', parent_setChildren]

/-- The chain may change before a table is `Rehung`. -/
theorem after_alike (hab : Alike a b) (h : Rehung b c p ks i q) : Rehung a c p ks i q where
  size := h.size.trans hab.size
  cls := fun j => (h.cls j).trans (hab.cls j)
  children := fun j => by rw [h.children, hab.children]
  parent := fun j => by rw [h.parent, hab.parent]

/-- The chain may change after a table is `Rehung`. -/
theorem before_alike (h : Rehung a b p ks i q) (hbc : Alike b c) : Rehung a c p ks i q where
  size := hbc.size.trans h.size
  cls := fun j => (hbc.cls j).trans (h.cls j)
  children := fun j => by rw [hbc.children, h.children]
  parent := fun j => by rw [hbc.parent, h.parent]

/-- A tree without node `p` still fits. -/
theorem fits {u : Outline} (h : Rehung a b p ks i q) (hu : Fits a u) (hp : p ∉ u.ids) :
    Fits b u := by
  refine hu.congr (Nat.le_of_eq h.size.symm) (fun j _ => h.cls j) fun j hj => ?_
  have hjp : j ≠ p := fun hjp => hp (hjp ▸ hj)
  rw [h.children, if_neg hjp]

end Rehung

/-- The tree `Fits` after the children of one node were replaced. -/
theorem Rehung.fits_replace {p i q : NodeId} {ks ls : List Outline} {front back : List NodeId}
    (hb : Rehung a b p (ls.map Outline.root) i q) (hfits : Fits a t)
    (hfocus : Focus p t ks front back) (hks : ks ≠ []) (hls : ∀ l ∈ ls, Fits a l)
    (hnodup : (t.replace p ls).ids.Nodup) : Fits b (t.replace p ls) := by
  have hkind : (b.node p).kind? = (a.node p).kind? := congrArg Class.kind? (hb.cls p)
  have hbelow : p ∉ idsList ls := by
    rw [hfocus.ids_replace] at hnodup
    have hp := (List.nodup_cons.mp hnodup.of_append_right).1
    exact fun hpl => hp (List.mem_append_left _ hpl)
  have hnode : Fits b (.node p ls) := by
    cases hfocus.fits hfits with
    | node hlt _ hsome hleaf _ =>
        refine .node (hb.size ▸ hlt) ?_ ?_ ?_ ?_
        · rw [hb.children, if_pos rfl]
        · rw [hkind]
          exact hsome
        · rw [hkind]
          exact fun hl => absurd (hleaf hl) hks
        · -- no child holds its parent, so nothing changed in it
          intro l hl
          exact hb.fits (hls l hl) fun hpl => hbelow (mem_idsList.mpr ⟨l, hl, hpl⟩)
  refine hfocus.fits_replace hfits (Nat.le_of_eq hb.size.symm) (fun j _ => hb.cls j) ?_ hnode
  intro j _ hj
  rw [hb.children, if_neg hj]

/-- Relinking by `relink` after the children of one node were replaced. -/
theorem Intact.relink_rehung (h : Intact a r t) {p i q : NodeId} {ks ls : List Outline}
    {front back : List NodeId} (hfocus : Focus p t ks front back) (hks : ks ≠ [])
    (hb : Rehung a b p (ls.map Outline.root) i q) (hls : ∀ l ∈ ls, Fits a l)
    (hnodup : (t.replace p ls).ids.Nodup) (hne : r ≠ i) :
    Intact (b.relink r) r (t.replace p ls) := by
  have hfits : Fits b (t.replace p ls) := hb.fits_replace h.fits hfocus hks hls hnodup
  have hroot : (t.replace p ls).root = r := by rw [root_replace, h.root]
  have hparent : (b.node (t.replace p ls).root).parent = (t.replace p ls).root := by
    rw [hroot, hb.parent, if_neg hne, ← h.root, h.threaded.root]
  obtain ⟨hshape, hthreaded⟩ := relink_threaded hfits hnodup hparent
  rw [hroot] at hshape hthreaded
  exact ⟨hroot, hfits.sameShape hshape, hnodup, hthreaded⟩

/-! ### Adding -/

/-- Adding nodes for later by `add` leaves the document alone. -/
theorem Intact.add (h : Intact a r t) (e : Element) : Intact (a.add e) r t := by
  have hnode : ∀ j ∈ t.ids, (a.add e).node j = a.node j := fun j hj =>
    node_add (h.fits.lt_size j hj)
  refine ⟨h.root, ?_, h.nodup, ?_, ?_, ?_⟩
  · exact h.fits.congr (size_le_add a e) (fun j hj => by rw [hnode j hj]) fun j hj => by
      rw [hnode j hj]
  · rw [hnode _ t.root_mem_ids, h.threaded.root]
  · intro i hi k hk
    rw [hnode i hi] at hk
    rw [hnode k (h.fits.child_mem_ids hi hk), h.threaded.parents i hi k hk]
  · exact h.threaded.linked.congr (fun j hj => by rw [hnode j hj]) (fun j hj => by rw [hnode j hj])
      fun j hj => by rw [hnode j hj]

/-! ### Removing -/

theorem cutTokens_alike (a : Arena) (i : NodeId) : Alike a (a.cutTokens i) := by
  refine (linkRow_alike (a.tokens i) a).trans ?_
  rw [cutTokens]
  split
  · exact cutOut_alike _ _ _
  · exact .refl _

/-- Detaching a node by `detach` changes the child list of its parent, and its own parent. -/
theorem detach_rehung {i p : NodeId} (hi : i < a.size) (hp : p < a.size)
    (hparent : (a.node i).parent = p) (hne : p ≠ i) :
    Rehung a (a.detach i) p ((a.node p).children.erase i) i i := by
  have hroot : a.isRoot i = false := by
    rw [isRoot, hparent]
    exact beq_eq_false_iff_ne.mpr hne
  have hdetach : a.detach i = (a.setChildren p ((a.node p).children.erase i)).setParent i i := by
    rw [detach, hroot, hparent]
    rfl
  rw [hdetach]
  exact .set hi hp

/-- The node `i` on its own, before the links of the tree it was in are set again. -/
def unhook (a : Arena) (i : NodeId) : Arena :=
  (((a.cutTokens i).detach i).setNext i i).setPrevious i i

/-- Removing a node by `remove` takes it off the tree, closes the gap and relinks. -/
theorem Intact.remove_eq (h : Intact a r t) {i : NodeId} (hi : i ∈ t.ids) (hne : i ≠ r)
    (ranges : Bool) :
    a.remove i ranges =
      (if ranges then
        (a.unhook i).shiftFrom r ((a.unhook i).outerEnd i)
          (-((a.unhook i).outerEnd i - ((a.unhook i).node i).start)) ((a.cutTokens i).ancestors i)
      else a.unhook i).relink r := by
  have hcut := cutTokens_alike a i
  have hroot : (a.cutTokens i).root i = r := by
    rw [← h.root]
    exact h.threaded.root_eq h.fits h.nodup (Nat.le_of_eq hcut.size.symm)
      (fun j _ => hcut.parent j) hi (h.root ▸ hne)
  simp only [Arena.remove, hroot, if_neg hne.symm]
  rfl

/-- A child `k` of the node in `Focus` is taken off the tree by `unhook`. -/
theorem Intact.unhook_rehung (h : Intact a r t) {p : NodeId} {left right : List Outline}
    {k : Outline} {front back : List NodeId}
    (hfocus : Focus p t (left ++ k :: right) front back) :
    Rehung a (a.unhook k.root) p ((left ++ right).map Outline.root) k.root k.root := by
  obtain ⟨hp, hi, -, hparent, hpk, -, -, hleft⟩ := h.focus_child hfocus
  have hcut := cutTokens_alike a k.root
  have hdetach := detach_rehung (a := a.cutTokens k.root) (hcut.size ▸ h.fits.lt_size _ hi)
    (hcut.size ▸ h.fits.lt_size p hp) ((hcut.parent _).trans hparent) hpk
  have hchildren : ((a.cutTokens k.root).node p).children.erase k.root =
      (left ++ right).map Outline.root := by
    cases hfocus.fits h.fits with
    | node _ hch _ _ _ =>
        rw [hcut.children, hch, List.map_append, List.map_cons, List.erase_append_right _ hleft,
          List.erase_cons_head, List.map_append]
  rw [hchildren] at hdetach
  exact (hdetach.after_alike hcut).before_alike
    ((setNext_alike _ k.root k.root).trans (setPrevious_alike _ k.root k.root))

/-- What is left in the tree without a child `k` of the node in `Focus`. -/
theorem Intact.without_child (h : Intact a r t) {p : NodeId} {left right : List Outline}
    {k : Outline} {front back : List NodeId}
    (hfocus : Focus p t (left ++ k :: right) front back) :
    (∀ l ∈ left ++ right, Fits a l) ∧ (t.replace p (left ++ right)).ids.Nodup := by
  constructor
  · intro l hl
    cases hfocus.fits h.fits with
    | node _ _ _ _ hks =>
        refine hks l ?_
        rcases List.mem_append.mp hl with hl | hl
        · exact List.mem_append_left _ hl
        · exact List.mem_append_right _ (List.mem_cons_of_mem _ hl)
  · have hids' : (t.replace p (left ++ right)).ids =
        (front ++ p :: idsList left) ++ (idsList right ++ back) :=
      hfocus.ids_replace_child left [] right
    have hnodup := h.nodup
    rw [hfocus.ids_child] at hnodup
    rw [hids']
    exact hnodup.sublist ((List.sublist_append_right _ _).append_left _)

/-- Removing a child `k` of the node in `Focus` takes it out of the tree. -/
theorem Intact.remove_focus (h : Intact a r t) {p : NodeId} {left right : List Outline}
    {k : Outline} {front back : List NodeId}
    (hfocus : Focus p t (left ++ k :: right) front back) (ranges : Bool) :
    Intact (a.remove k.root ranges) r (t.replace p (left ++ right)) := by
  obtain ⟨-, hi, hne, -⟩ := h.focus_child hfocus
  obtain ⟨hfits, hnodup⟩ := h.without_child hfocus
  rw [h.remove_eq hi hne]
  refine h.relink_rehung hfocus (by simp) ((h.unhook_rehung hfocus).before_alike ?_) hfits hnodup
    hne.symm
  split
  · exact shiftFrom_alike _ _ _ _ _
  · exact .refl _

/-- Removing a node takes its subtree, which is its `walk`, out of the document. -/
theorem Intact.remove (h : Intact a r t) {i : NodeId} (hi : i ∈ t.ids) (hne : i ≠ r)
    (ranges : Bool) :
    ∃ u front back, Intact (a.remove i ranges) r u ∧ t.ids = front ++ (a.walk i ++ back) ∧
      u.ids = front ++ back := by
  obtain ⟨p, left, k, right, front, back, rfl, hfocus⟩ := h.exists_siblings hi hne
  obtain ⟨-, -, -, -, -, hfits, hnodup, -⟩ := h.focus_child hfocus
  refine ⟨_, _, _, h.remove_focus hfocus ranges, ?_, hfocus.ids_replace_child left [] right⟩
  rw [hfits.walk_eq hnodup]
  exact hfocus.ids_child

/-! ### Inserting -/

theorem insertTokens_alike (a : Arena) (side : Side) (anchor i : NodeId) (ranges : Bool) :
    Alike a (a.insertTokens side anchor i ranges) := by
  simp only [insertTokens]
  refine (linkRow_alike (a.tokens i) a).trans ?_
  generalize a.linkRow (a.tokens i) = b
  have hmove : Alike b (if ranges then b.moveTo i (b.placeBeside anchor side) anchor else b) := by
    split
    · exact moveTo_alike _ _ _ _
    · exact .refl _
  refine hmove.trans ?_
  generalize ite (ranges = true) _ b = c
  split
  · cases side with
    | before => exact spliceBefore_alike _ _ _ _
    | after => exact spliceAfter_alike _ _ _ _
  · exact .refl _

/-- Attaching a node by `attach` changes the child list of the parent, and its own parent. -/
theorem attach_rehung {side : Side} {anchor i p : NodeId} {ks : List NodeId} (hi : i < a.size)
    (hp : p < a.size) (hparent : (a.node anchor).parent = p) (hne : p ≠ anchor)
    (hkind : (a.node p).isParent = true)
    (hks : insertBeside side anchor i (a.node p).children = some ks) :
    ∃ b, a.attach side anchor i = some b ∧ Rehung a b p ks i p := by
  have hroot : a.isRoot anchor = false := by
    rw [isRoot, hparent]
    exact beq_eq_false_iff_ne.mpr hne
  refine ⟨_, ?_, .set hi hp⟩
  simp only [attach, hroot, hparent, hkind, hks, if_true, Option.map_some, Bool.false_eq_true,
    if_false, parent_setChildren]

/-- A node `p` with children can have children. -/
theorem Fits.isParent {p : NodeId} {ks : List Outline} (h : Fits a (.node p ks)) (hks : ks ≠ []) :
    (a.node p).isParent = true := by
  cases h with
  | node _ _ hsome hleaf _ =>
      rw [Node.isParent]
      cases hkind : (a.node p).kind? with
      | none => exact absurd hkind hsome
      | some kind =>
          cases kind with
          | leaf => exact absurd (hleaf hkind) hks
          | branch => rfl
          | contextualizer => rfl

/-- What happens on the way to `relink` when the tree `u` is inserted beside a child of the node in
`Focus`: only the child list of that node and the parent of the new child change. -/
theorem Intact.insert_eq_relink (h : Intact a r t) {p : NodeId} {left right : List Outline}
    {k : Outline} {front back : List NodeId}
    (hfocus : Focus p t (left ++ k :: right) front back) {u : Outline} (hu : Fits a u)
    (hdisjoint : ∀ j ∈ u.ids, j ∉ t.ids) (side : Side) (ranges : Bool) :
    ∃ c, (a.insertTokens side k.root u.root ranges).attach side k.root u.root = some c ∧
      a.insert side k.root u.root ranges = (c.relink r, none) ∧
      Rehung a c p ((left ++ (side.arrange [u] [k] ++ right)).map Outline.root) u.root p := by
  obtain ⟨hp, hanchor, hne, hparent, hpk, -, -, hleft⟩ := h.focus_child hfocus
  have huroot : u.root ∉ t.ids := hdisjoint _ u.root_mem_ids
  have hb := insertTokens_alike a side k.root u.root ranges
  generalize hmended : a.insertTokens side k.root u.root ranges = b at hb
  have hnode := hfocus.fits h.fits
  have hkind : (b.node p).isParent = true :=
    (hnode.sameShape hb.toSameShape).isParent (by simp)
  cases hnode with
  | node _ hch _ _ _ =>
      have hbeside : insertBeside side k.root u.root (b.node p).children =
          some ((left ++ (side.arrange [u] [k] ++ right)).map Outline.root) := by
        rw [hb.children, hch, List.map_append, List.map_cons, insertBeside_append hleft,
          List.map_append, List.map_append, map_root_arrange]
      obtain ⟨c, hattach, hc⟩ := attach_rehung
        (hb.size ▸ hu.lt_size _ u.root_mem_ids) (hb.size ▸ h.fits.lt_size p hp)
        ((hb.parent _).trans hparent) hpk hkind hbeside
      have hc := hc.after_alike hb
      -- the new parent is that of a node outside the document
      have hkept : ∀ j ∈ t.ids, (c.node j).parent = (a.node j).parent := by
        intro j hj
        have hju : j ≠ u.root := fun hju => huroot (hju ▸ hj)
        rw [hc.parent, if_neg hju]
      have hroot : c.root k.root = r := by
        rw [← h.root]
        exact h.threaded.root_eq h.fits h.nodup (Nat.le_of_eq hc.size.symm) hkept hanchor
          (h.root ▸ hne)
      have hnotRoot : c.isRoot k.root = false := by
        rw [isRoot, hkept _ hanchor, hparent]
        exact beq_eq_false_iff_ne.mpr hpk
      refine ⟨c, hattach, ?_, hc⟩
      simp only [Arena.insert, hmended, hattach, hnotRoot, Bool.false_eq_true, if_false, hroot]

/-- Inserting the tree `u` beside a child of the node in `Focus` puts it into the tree. -/
theorem Intact.insert_focus (h : Intact a r t) {p : NodeId} {left right : List Outline}
    {k : Outline} {front back : List NodeId}
    (hfocus : Focus p t (left ++ k :: right) front back) {u : Outline} (hu : Fits a u)
    (hunodup : u.ids.Nodup) (hdisjoint : ∀ j ∈ u.ids, j ∉ t.ids) (side : Side) (ranges : Bool) :
    (a.insert side k.root u.root ranges).2 = none ∧
      Intact (a.insert side k.root u.root ranges).1 r
        (t.replace p (left ++ (side.arrange [u] [k] ++ right))) := by
  obtain ⟨c, -, hinsert, hc⟩ := h.insert_eq_relink hfocus hu hdisjoint side ranges
  have hids' := hfocus.ids_replace_child left (side.arrange [u] [k]) right
  rw [idsList_arrange] at hids'
  rw [hinsert]
  cases hfocus.fits h.fits with
  | node _ _ _ _ hks =>
      refine ⟨rfl, h.relink_rehung hfocus (by simp) hc ?_ ?_ ?_⟩
      · intro l hl
        rw [List.mem_append, List.mem_append, (side.arrange_perm [u] [k]).mem_iff] at hl
        rcases hl with hl | hl | hl
        · exact hks l (List.mem_append_left _ hl)
        · rcases List.mem_pair.mp hl with rfl | rfl
          · exact hu
          · exact hks l (by simp)
        · exact hks l (List.mem_append_right _ (List.mem_cons_of_mem _ hl))
      · rw [hids']
        have hperm : List.Perm ((front ++ p :: idsList left) ++
            (side.arrange u.ids k.ids ++ (idsList right ++ back))) (u.ids ++ t.ids) := by
          rw [hfocus.ids_child]
          refine (((side.arrange_perm _ _).append_right _).append_left _).trans ?_
          rw [List.append_assoc u.ids]
          exact List.perm_append_comm_assoc _ _ _
        refine hperm.symm.nodup (List.nodup_append.mpr ⟨hunodup, h.nodup, ?_⟩)
        rintro j hj _ hj' rfl
        exact hdisjoint j hj hj'
      · have hmem : r ∈ t.ids := h.root ▸ t.root_mem_ids
        exact fun hru => hdisjoint _ u.root_mem_ids (hru ▸ hmem)

/-- Inserting the tree `u` beside the node `anchor` puts it into the document. -/
theorem Intact.insert (h : Intact a r t) {anchor : NodeId} (hanchor : anchor ∈ t.ids)
    (hne : anchor ≠ r) {u : Outline} (hu : Fits a u) (hunodup : u.ids.Nodup)
    (hdisjoint : ∀ j ∈ u.ids, j ∉ t.ids) (side : Side) (ranges : Bool) :
    (a.insert side anchor u.root ranges).2 = none ∧
      ∃ v front back, Intact (a.insert side anchor u.root ranges).1 r v ∧
        t.ids = front ++ (a.walk anchor ++ back) ∧
        v.ids = front ++ (side.arrange u.ids (a.walk anchor) ++ back) := by
  obtain ⟨p, left, k, right, front, back, rfl, hfocus⟩ := h.exists_siblings hanchor hne
  obtain ⟨-, -, -, -, -, hfits, hnodup, -⟩ := h.focus_child hfocus
  obtain ⟨hnone, hintact⟩ := h.insert_focus hfocus hu hunodup hdisjoint side ranges
  have hids' := hfocus.ids_replace_child left (side.arrange [u] [k]) right
  rw [idsList_arrange] at hids'
  rw [hfits.walk_eq hnodup]
  exact ⟨hnone, _, _, _, hintact, hfocus.ids_child, hids'⟩

/-! ### Runs of edits -/

/-- Node `i` and what is under it make up a tree of leaves, branches and contextualizers in
which every node occurs once. Its links may be anything. -/
def IsTree (a : Arena) (i : NodeId) : Prop := ∃ t : Outline, t.root = i ∧ Fits a t ∧ t.ids.Nodup

theorem isTree_ofElement {e : Element} (he : e.isKinded = true) : IsTree (ofElement e) 0 :=
  ⟨e.outline 0, e.root_outline 0, ofElement_fits he, nodup_outline e 0⟩

theorem isTree_add {e : Element} (he : e.isKinded = true) (a : Arena) : IsTree (a.add e) a.size :=
  ⟨e.outline a.size, e.root_outline a.size, add_fits he a, nodup_outline e a.size⟩

/-- A tree whose links are what `thread` makes them is `Intact`. -/
theorem IsTree.exists_intact (h : IsTree a r) (hthreaded : a.thread r = (a, none)) :
    ∃ t, Intact a r t := by
  obtain ⟨t, rfl, hfits, hnodup⟩ := h
  obtain ⟨-, -, ht⟩ := thread_threaded hfits hnodup
  rw [hthreaded] at ht
  exact ⟨t, rfl, hfits, hnodup, ht⟩

/-- One edit of the document at `r`. New nodes may come into the table at any time. -/
inductive Edit (r : NodeId) : Arena → Arena → Prop
  /-- Removes the node `i` of the document. -/
  | remove {a : Arena} {i : NodeId} (ranges : Bool) (hi : i ∈ a.walk r) (hne : i ≠ r) :
      Edit r a (a.remove i ranges)
  /-- Inserts a tree `i` that shares no node with the document, beside the node `anchor` of the
  document. -/
  | insert {a : Arena} {anchor i : NodeId} (side : Side) (ranges : Bool)
      (hanchor : anchor ∈ a.walk r) (hne : anchor ≠ r) (htree : IsTree a i)
      (hdisjoint : ∀ j ∈ a.walk i, j ∉ a.walk r) : Edit r a (a.insert side anchor i ranges).1
  /-- Makes a new tree of `e`, outside the document. -/
  | add {a : Arena} (e : Element) : Edit r a (a.add e)

/-- Removing the node `i` takes it out of the document with all that is under it. -/
theorem Intact.remove_node (h : Intact a r t) {i : NodeId} (hi : i ∈ a.walk r) (hne : i ≠ r)
    (ranges : Bool) :
    (∃ u, Intact (a.remove i ranges) r u) ∧
      ∃ front back, a.walk r = front ++ (a.walk i ++ back) ∧
        (a.remove i ranges).walk r = front ++ back := by
  rw [h.walk_eq] at hi ⊢
  obtain ⟨u, front, back, hu, hids, hids'⟩ := h.remove hi hne ranges
  exact ⟨⟨u, hu⟩, front, back, hids, hu.walk_eq.trans hids'⟩

/-- Inserting a tree that shares no node with the document succeeds and puts it beside the `anchor`.
-/
theorem Intact.insert_tree (h : Intact a r t) {anchor i : NodeId} (hanchor : anchor ∈ a.walk r)
    (hne : anchor ≠ r) (htree : IsTree a i) (hdisjoint : ∀ j ∈ a.walk i, j ∉ a.walk r)
    (side : Side) (ranges : Bool) :
    (∃ u, Intact (a.insert side anchor i ranges).1 r u) ∧
      (a.insert side anchor i ranges).2 = none ∧
      ∃ front back, a.walk r = front ++ (a.walk anchor ++ back) ∧
        (a.insert side anchor i ranges).1.walk r =
          front ++ (side.arrange (a.walk i) (a.walk anchor) ++ back) := by
  obtain ⟨u, rfl, hu, hunodup⟩ := htree
  rw [h.walk_eq] at hanchor hdisjoint ⊢
  rw [hu.walk_eq hunodup] at hdisjoint ⊢
  obtain ⟨hnone, v, front, back, hv, hids, hids'⟩ :=
    h.insert hanchor hne hu hunodup hdisjoint side ranges
  exact ⟨⟨v, hv⟩, hnone, front, back, hids, hv.walk_eq.trans hids'⟩

/-- An `Edit` keeps the document `Intact`. -/
theorem Edit.intact (h : Edit r a b) (ha : Intact a r t) : ∃ u, Intact b r u := by
  cases h with
  | remove ranges hi hne => exact (ha.remove_node hi hne ranges).1
  | insert side ranges hanchor hne htree hdisjoint =>
      exact (ha.insert_tree hanchor hne htree hdisjoint side ranges).1
  | add e => exact ⟨t, ha.add e⟩

/-- A run of edits keeps the document `Intact`. -/
theorem edits_intact (h : Relation.ReflTransGen (Edit r) a b) (ha : Intact a r t) :
    ∃ u, Intact b r u := by
  induction h with
  | refl => exact ⟨t, ha⟩
  | tail _ hedit ih =>
      obtain ⟨u, hu⟩ := ih
      exact hedit.intact hu

/-- Threading a document that is `Intact` by `thread` changes nothing, whatever its links were
before. -/
theorem Intact.thread_eq (h : Intact a r t) (hshape : SameShape a b) :
    (b.thread r).2 = none ∧ ∀ j ∈ a.walk r,
      (a.node j).next = ((b.thread r).1.node j).next ∧
      (a.node j).previous = ((b.thread r).1.node j).previous ∧
      (a.node j).parent = ((b.thread r).1.node j).parent := by
  obtain ⟨hnone, hthread, hthreaded⟩ := thread_threaded (h.fits.sameShape hshape) h.nodup
  rw [h.root] at hnone hthread hthreaded
  refine ⟨hnone, fun j hj => ?_⟩
  rw [h.walk_eq] at hj
  obtain ⟨hnext, hprevious, hparent⟩ :=
    h.threaded.unique h.fits hthreaded (hshape.trans hthread) j hj
  exact ⟨hnext.symm, hprevious.symm, hparent.symm⟩

/-- **Edits keep a document threaded.** After any run of edits on a document that was threaded,
it is a tree in which threading anew changes no link, whatever the links were set to before;
its chain ends, and holds its tokens. From there, removing takes out just the nodes it should,
and inserting never fails and puts the new nodes beside the anchor. -/
theorem edits_keep_threaded {a₀ a : Arena} {r : NodeId} (htree : IsTree a₀ r)
    (hrun : Relation.ReflTransGen (Edit r) (a₀.thread r).1 a) :
    IsTree a r ∧
      (∀ b, SameShape a b → (b.thread r).2 = none ∧ ∀ j ∈ a.walk r,
        (a.node j).next = ((b.thread r).1.node j).next ∧
        (a.node j).previous = ((b.thread r).1.node j).previous ∧
        (a.node j).parent = ((b.thread r).1.node j).parent) ∧
      (a.streamWithin (2 * a.size + 1) r).2 = false ∧ a.stream r = a.tokens r ∧
      (∀ i ranges, i ∈ a.walk r → i ≠ r →
        ∃ front back, a.walk r = front ++ (a.walk i ++ back) ∧
          (a.remove i ranges).walk r = front ++ back) ∧
      ∀ side anchor i ranges, anchor ∈ a.walk r → anchor ≠ r → IsTree a i →
        (∀ j ∈ a.walk i, j ∉ a.walk r) →
        (a.insert side anchor i ranges).2 = none ∧
          ∃ front back, a.walk r = front ++ (a.walk anchor ++ back) ∧
            (a.insert side anchor i ranges).1.walk r =
              front ++ (side.arrange (a.walk i) (a.walk anchor) ++ back) := by
  obtain ⟨t, rfl, hfits, hnodup⟩ := htree
  obtain ⟨-, hshape, hthreaded⟩ := thread_threaded hfits hnodup
  obtain ⟨u, hu⟩ := edits_intact hrun ⟨rfl, hfits.sameShape hshape, hnodup, hthreaded⟩
  have hstream := hu.threaded.streamWithin_eq hu.fits hu.nodup
  rw [hu.root] at hstream
  refine ⟨⟨u, hu.root, hu.fits, hu.nodup⟩, fun b hb => hu.thread_eq hb, ?_, ?_, ?_, ?_⟩
  · rw [hstream]
  · rw [stream, hstream]
  · intro i ranges hi hne
    exact (hu.remove_node hi hne ranges).2
  · intro side anchor i ranges hanchor hne hi hdisjoint
    exact (hu.insert_tree hanchor hne hi hdisjoint side ranges).2

/-- A document with the statement `x;` and a line break. -/
def sampleTree : Element :=
  .branch .document ⟨0, 3, by decide, by decide⟩ none
    [.branch .statement ⟨0, 2, by decide, by decide⟩ none
      [.leaf ⟨.bareword, ⟨0, 1, by decide, by decide⟩, ['x'], none, {}⟩,
        .leaf ⟨.semicolon, ⟨1, 2, by decide, by decide⟩, [';'], none, {}⟩],
      .leaf ⟨.ws, ⟨2, 3, by decide, by decide⟩, ['\n'], none, {}⟩]

/-- A blank of its own, to be put into `sampleCut`. -/
def sampleBlank : Element := .leaf ⟨.ws, ⟨0, 1, by decide, by decide⟩, [' '], none, {}⟩

/-- The document `sampleTree` without its statement, and with `sampleBlank` waiting outside. -/
def sampleCut : Arena := (((ofElement sampleTree).thread 0).1.remove 1 true).add sampleBlank

/-- The document `sampleCut` with the blank in front of the line break. -/
def sampleSpaced : Arena := (sampleCut.insert .before 4 5 true).1

/-- The document `sampleSpaced` with its statement put back behind the line break. -/
def sampleMoved : Arena := (sampleSpaced.insert .after 4 1 false).1

theorem sample_keeps_threaded :
    Relation.ReflTransGen (Edit 0) ((ofElement sampleTree).thread 0).1 sampleMoved ∧
      sampleMoved.stream 0 = sampleMoved.tokens 0 ∧ sampleMoved.tokens 0 = [5, 4, 2, 3] := by
  have htree : IsTree (ofElement sampleTree) 0 := isTree_ofElement (by decide)
  have hblank : IsTree sampleCut 5 := isTree_add (by decide) _
  have hleaf : ∀ i ∈ [2, 3], Fits sampleSpaced (.node i []) := by
    intro i hi
    refine .node ?_ ?_ ?_ (fun _ => rfl) (fun k hk => nomatch hk)
    · revert i
      decide +kernel
    · revert i
      decide +kernel
    · revert i
      decide +kernel
  have hstatement : IsTree sampleSpaced 1 := by
    refine ⟨.node 1 [.node 2 [], .node 3 []], rfl, ?_, by decide⟩
    refine .node (by decide +kernel) (by decide +kernel) (by decide +kernel) ?_ ?_
    · intro hkind
      exact absurd hkind (by decide +kernel)
    · intro k hk
      obtain ⟨i, hi, rfl⟩ : ∃ i ∈ [2, 3], Outline.node i [] = k := List.mem_map.mp hk
      exact hleaf i hi
  have hcut : Edit 0 ((ofElement sampleTree).thread 0).1
      (((ofElement sampleTree).thread 0).1.remove 1 true) :=
    .remove true (by decide +kernel) (by decide)
  have hspaced : Edit 0 sampleCut sampleSpaced :=
    .insert .before true (by decide +kernel) (by decide) hblank (by decide +kernel)
  have hmoved : Edit 0 sampleSpaced sampleMoved :=
    .insert .after false (by decide +kernel) (by decide) hstatement (by decide +kernel)
  have hrun : Relation.ReflTransGen (Edit 0) ((ofElement sampleTree).thread 0).1 sampleMoved :=
    (((Relation.ReflTransGen.single hcut).tail (.add sampleBlank)).tail hspaced).tail hmoved
  exact ⟨hrun, (edits_keep_threaded htree hrun).2.2.2.1, by decide +kernel⟩

end RakuTree.Arena
