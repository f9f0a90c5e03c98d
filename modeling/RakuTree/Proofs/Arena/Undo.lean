import RakuTree.Proofs.Arena.Removal
import RakuTree.Proofs.Arena.Tiled

/-!
# RakuTree.Proofs.Arena.Undo

Removing what was just inserted.

An insertion and the removal behind it look at different tables: the removal finds the node at
another place, with other nodes above it and another width, and works out anew what to move. It
still undoes the insertion. Child lists come back since the node goes from where it was put
(`Route.among`), and with them all links, which are given by the tree (`Threaded.unique_of_fits`).
Ranges come back since the room that is closed is the room that was opened: what started at its
place stands behind it now, and what did not still starts before (`Extent.resized_resized`).
-/

namespace RakuTree.Arena

open Outline

variable {a b : Arena} {r : NodeId} {t k u : Outline} {path : List NodeId}
  {f : List Outline → Outline}

/-- Removing the tree `k` leaves its place empty. -/
theorem Intact.remove_route (h : Intact a r t) (hroute : Route k path t f) (ranges : Bool) :
    Intact (a.remove k.root ranges) r (f []) := by
  obtain ⟨p, left, right, front, back, hfocus, hf⟩ := hroute.exists_focus h.nodup
  rw [hf]
  exact h.remove_focus hfocus ranges

/-- Inserting the tree `u` puts it into the place of `k`, beside that. -/
theorem Intact.insert_route (h : Intact a r t) (hroute : Route k path t f) (hu : Fits a u)
    (hunodup : u.ids.Nodup) (hdisjoint : ∀ j ∈ u.ids, j ∉ t.ids) (side : Side) (ranges : Bool) :
    (a.insert side k.root u.root ranges).2 = none ∧
      Intact (a.insert side k.root u.root ranges).1 r (f (side.arrange [u] [k])) ∧
      (a.insert side k.root u.root ranges).1.size = a.size := by
  obtain ⟨p, left, right, front, back, hfocus, hf⟩ := hroute.exists_focus h.nodup
  obtain ⟨hnone, hintact⟩ := h.insert_focus hfocus hu hunodup hdisjoint side ranges
  obtain ⟨c, -, hinsert, hrehung⟩ := h.insert_eq_relink hfocus hu hdisjoint side ranges
  rw [hf]
  refine ⟨hnone, hintact, ?_⟩
  rw [hinsert, (relink_sameShape c r).size, hrehung.size]

/-- The tree `u` that was inserted beside `k` can be taken out again, which leaves `k`. -/
theorem Route.inserted (h : Route k path t f) (u : Outline) (side : Side) :
    ∃ g, Route u path (f (side.arrange [u] [k])) g ∧ g [] = t := by
  cases side with
  | before => exact ⟨_, h.among u [] [k], h.self_eq⟩
  | after => exact ⟨_, h.among u [k] [], h.self_eq⟩

/-! Without ranges no extent changes. -/

theorem Intact.extent_insert_false (h : Intact a r t) (hroute : Route k path t f) (hu : Fits a u)
    (hdisjoint : ∀ j ∈ u.ids, j ∉ t.ids) (side : Side) (j : NodeId) :
    (a.insert side k.root u.root false).1.extent j = a.extent j := by
  obtain ⟨p, left, right, front, back, hfocus, -⟩ := hroute.exists_focus h.nodup
  obtain ⟨c, hattach, hinsert, -⟩ := h.insert_eq_relink hfocus hu hdisjoint side false
  rw [hinsert, extent_relink, extent_attach _ hattach, extent_insertTokens,
    if_neg Bool.false_ne_true, extent_linkRow]

theorem Intact.extent_remove_false (h : Intact a r t) (hroute : Route k path t f) (j : NodeId) :
    (a.remove k.root false).extent j = a.extent j := by
  obtain ⟨p, left, right, front, back, hfocus, -⟩ := hroute.exists_focus h.nodup
  obtain ⟨-, hi, hne, -⟩ := h.focus_child hfocus
  rw [h.remove_eq hi hne]
  simp [unhook]

section Undo

variable (h : Intact a r t) (hroute : Route k path t f) (hu : Fits a u) (hunodup : u.ids.Nodup)
  (hdisjoint : ∀ j ∈ u.ids, j ∉ t.ids) (side : Side)

include h hroute hu hunodup hdisjoint

/-- Once `u` is removed, the document has its tree `t` back. -/
theorem Intact.remove_inserted (ranges : Bool) :
    Intact ((a.insert side k.root u.root ranges).1.remove u.root ranges) r t := by
  obtain ⟨-, hb, -⟩ := h.insert_route hroute hu hunodup hdisjoint side ranges
  obtain ⟨g, hroute', hg⟩ := hroute.inserted u side
  have hc := hb.remove_route hroute' ranges
  rwa [hg] at hc

/-- The room that `remove` closes is the room that `insert` opened: extents are as they were. -/
theorem Intact.extent_remove_inserted_true
    (hwidth : (a.node u.root).start ≤ a.outerEnd u.root) {j : NodeId} (hj : j ∈ t.ids) :
    ((a.insert side k.root u.root true).1.remove u.root true).extent j = a.extent j := by
  obtain ⟨-, hb, hsize⟩ := h.insert_route hroute hu hunodup hdisjoint side true
  obtain ⟨hopened, hmoved⟩ := h.extent_insert hroute hu hunodup hdisjoint side
  obtain ⟨g, hroute', -⟩ := hroute.inserted u side
  generalize (a.insert side k.root u.root true).1 = b at hb hsize hopened hmoved
  have hub : Fits b u := by
    obtain ⟨p, left, right, front, back, hfocus, -⟩ := hroute'.exists_focus hb.nodup
    obtain ⟨-, -, -, -, -, hub, -⟩ := hb.focus_child hfocus
    exact hub
  have hju : j ∉ u.ids := fun hju => hdisjoint j hju hj
  have hjb : j ∈ (f (side.arrange [u] [k])).ids := by
    obtain ⟨front, back, hids, hids'⟩ := hroute.exists_ids
    rw [hids, List.mem_append, List.mem_append] at hj
    rw [hids', idsList_arrange, List.mem_append, List.mem_append, (side.arrange_perm _ _).mem_iff,
      List.mem_append]
    exact hj.imp_right fun hj => hj.imp_left .inr
  -- the inserted tree starts at the place and is as wide as before
  have hstart : (b.node u.root).start = a.placeBeside k.root side := by
    have hroot : (b.node u.root).start = (a.node u.root).start +
        (a.placeBeside k.root side - (a.node u.root).start) :=
      congrArg Extent.start (hmoved u.root u.root_mem_ids)
    omega
  have hend : b.outerEnd u.root = a.placeBeside k.root side +
      (a.outerEnd u.root - (a.node u.root).start) := by
    rw [hu.outerEnd_moved hub hsize hmoved]
    omega
  have hwidth' : b.outerEnd u.root - (b.node u.root).start =
      a.outerEnd u.root - (a.node u.root).start := by
    rw [hend, hstart]
    omega
  rw [hb.extent_remove hroute' j hjb hju, hwidth', hopened j hj, hend]
  exact Extent.resized_resized (by omega)

theorem Intact.extent_remove_inserted (ranges : Bool)
    (hwidth : (a.node u.root).start ≤ a.outerEnd u.root) {j : NodeId} (hj : j ∈ t.ids) :
    ((a.insert side k.root u.root ranges).1.remove u.root ranges).extent j = a.extent j := by
  cases ranges with
  | true => exact h.extent_remove_inserted_true hroute hu hunodup hdisjoint side hwidth hj
  | false =>
      obtain ⟨-, hb, -⟩ := h.insert_route hroute hu hunodup hdisjoint side false
      obtain ⟨g, hroute', -⟩ := hroute.inserted u side
      rw [hb.extent_remove_false hroute', h.extent_insert_false hroute hu hdisjoint]

end Undo

/-- **Removing undoes inserting.** Take any threaded document, whatever its ranges are, any node
`x` of it but its root, and a tree at `y` that shares no node with the document and does not end
before it starts. Put `y` before or behind `x` and remove it again, both with ranges or both
without. Then every node of the document has the range, links, parent and children it had, and
`y` is on its own. -/
theorem remove_undoes_insert {a : Arena} {r x y : NodeId} (htree : IsTree a r)
    (hthreaded : a.thread r = (a, none)) (hx : x ∈ a.walk r) (hne : x ≠ r) (hy : IsTree a y)
    (hdisjoint : ∀ j ∈ a.walk y, j ∉ a.walk r) (hwidth : (a.node y).start ≤ a.outerEnd y)
    (side : Side) (ranges : Bool) :
    (a.insert side x y ranges).2 = none ∧
      ((a.insert side x y ranges).1.remove y ranges).walk r = a.walk r ∧
      (∀ j ∈ a.walk r,
        (((a.insert side x y ranges).1.remove y ranges).node j).start = (a.node j).start ∧
        (((a.insert side x y ranges).1.remove y ranges).node j).stop = (a.node j).stop ∧
        (((a.insert side x y ranges).1.remove y ranges).node j).next = (a.node j).next ∧
        (((a.insert side x y ranges).1.remove y ranges).node j).previous = (a.node j).previous ∧
        (((a.insert side x y ranges).1.remove y ranges).node j).parent = (a.node j).parent ∧
        (((a.insert side x y ranges).1.remove y ranges).node j).children = (a.node j).children) ∧
      (((a.insert side x y ranges).1.remove y ranges).node y).next = y ∧
      (((a.insert side x y ranges).1.remove y ranges).node y).previous = y ∧
      (((a.insert side x y ranges).1.remove y ranges).node y).parent = y := by
  obtain ⟨t, h⟩ := htree.exists_intact hthreaded
  obtain ⟨u, rfl, hu, hunodup⟩ := hy
  rw [hu.walk_eq hunodup, h.walk_eq] at hdisjoint
  rw [h.walk_eq] at hx ⊢
  obtain ⟨k, path, f, rfl, hroute⟩ := exists_route t hx (h.root ▸ hne)
  obtain ⟨hnone, hb, -⟩ := h.insert_route hroute hu hunodup hdisjoint side ranges
  have hc := h.remove_inserted hroute hu hunodup hdisjoint side ranges
  have hextent := fun j =>
    h.extent_remove_inserted hroute hu hunodup hdisjoint side ranges hwidth (j := j)
  -- the removed tree is on its own
  obtain ⟨g, hroute', -⟩ := hroute.inserted u side
  obtain ⟨p, left, right, front, back, hfocus, -⟩ := hroute'.exists_focus hb.nodup
  obtain ⟨hnext, hprevious, hparent⟩ := hb.remove_links hfocus ranges u.root_mem_ids
  rw [if_pos (.inl rfl)] at hnext hprevious
  rw [if_pos rfl] at hparent
  refine ⟨hnone, hc.walk_eq, fun j hj => ?_, hnext, hprevious, hparent⟩
  generalize (a.insert side k.root u.root ranges).1.remove u.root ranges = c at hc hextent
  have hchildren : ∀ j ∈ t.ids, (c.node j).children = (a.node j).children :=
    fun j hj => h.fits.children_eq hc.fits hj
  have htoken : ∀ j ∈ t.ids, (c.node j).isToken = (a.node j).isToken := by
    intro j hj
    exact isToken_of_cls (congrArg Extent.cls (hextent j hj))
  obtain ⟨hnext, hprevious, hparent⟩ :=
    h.threaded.unique_of_fits hc.threaded h.fits htoken hchildren j hj
  exact ⟨congrArg Extent.start (hextent j hj), congrArg Extent.stop (hextent j hj), hnext,
    hprevious, hparent, hchildren j hj⟩

/-- A document whose ranges overlap, come in the wrong order and stick out, with an empty
statement. -/
def sampleStrewn : Element :=
  .branch .document (.ofText 0 ['a', 'b', 'c']) none
    [.leaf (Leaf.found .bareword 1 ['a'] none), .branch .statement (.ofText 1 []) none [],
      .contextualizer none (.ofText 0 ['$']) ['$'] none
        [.leaf (Leaf.found .bareword 2 ['b', 'c'] none)]]

/-- The document `sampleStrewn` with a fragment waiting outside. -/
def sampleStrewnRoom : Arena := ((ofElement sampleStrewn).thread 0).1.add sampleFragment

/-- In `sampleStrewnRoom`, nodes that start at the place of the empty statement move behind the
fragment and come back. -/
theorem sample_undoes_insert :
    (sampleStrewnRoom.walk 0).map (fun j => (sampleStrewnRoom.node j).start) = [0, 1, 1, 0, 2] ∧
      (sampleStrewnRoom.walk 0).map
        (fun j => ((sampleStrewnRoom.insert .before 2 5 true).1.node j).start) = [0, 3, 3, 0, 4] ∧
      (((sampleStrewnRoom.insert .before 2 5 true).1.remove 5 true).node 1).start = 1 ∧
      (((sampleStrewnRoom.insert .before 2 5 true).1.remove 5 true).node 4).start = 2 ∧
      (((sampleStrewnRoom.insert .before 2 5 true).1.remove 5 true).node 5).parent = 5 := by
  obtain ⟨t, ht⟩ := exists_intact_add (e := sampleStrewn) (by decide) sampleFragment
  have hthreaded : sampleStrewnRoom.thread 0 = (sampleStrewnRoom, none) :=
    ht.root ▸ thread_eq_self ht.fits ht.nodup ht.threaded
  obtain ⟨-, -, hnodes, -, -, hparent⟩ := remove_undoes_insert (x := 2) (y := 5)
    ⟨t, ht.root, ht.fits, ht.nodup⟩ hthreaded (by decide +kernel) (by decide)
    (isTree_add (by decide) _) (by decide +kernel) (by decide +kernel) .before true
  have hword : (sampleStrewnRoom.node 1).start = 1 := by decide +kernel
  have hbody : (sampleStrewnRoom.node 4).start = 2 := by decide +kernel
  exact ⟨by decide +kernel, by decide +kernel, (hnodes 1 (by decide +kernel)).1.trans hword,
    (hnodes 4 (by decide +kernel)).1.trans hbody, hparent⟩

end RakuTree.Arena
