import RakuTree.Proofs.Arena.Chain
import RakuTree.Proofs.Arena.Room

/-!
# RakuTree.Proofs.Arena.Tiled

Edits that move ranges keep a document gap-free.

A document is `Tiled` over a source when its tokens tile the source, each with the text that
stands there, and every branch spans its tokens. Where the tokens stand is one half, what
they say is the other. Texts as wide as their ranges that tile a stretch are the slices of
what they make up together (`Tiles.content_eq`), so it is enough to know which texts come one
after the other, and that follows from the order of the nodes.
-/

namespace RakuTree.Arena

open Outline

variable {a c : Arena} {s e : Int}

/-! ### Texts -/

/-- The text of the tokens among the nodes `is`. -/
def textIn (a : Arena) (is : List NodeId) : Text :=
  (a.tokensIn is).flatMap fun i => (a.node i).content

@[simp] theorem textIn_append (a : Arena) (is js : List NodeId) :
    a.textIn (is ++ js) = a.textIn is ++ a.textIn js := by
  simp [textIn]

theorem textIn_congr {is : List NodeId} (hcls : ∀ j ∈ is, (c.node j).cls = (a.node j).cls)
    (hcontent : ∀ j ∈ is, (c.node j).content = (a.node j).content) : c.textIn is = a.textIn is := by
  rw [textIn, tokensIn_congr hcls]
  exact List.flatMap_congr fun j hj => hcontent j (List.mem_filter.mp hj).1

theorem Fits.kind?_ne_none {t : Outline} (h : Fits a t) : ∀ j ∈ t.ids, (a.node j).kind? ≠ none := by
  induction h with
  | node _ _ hkind _ _ ih =>
      intro j hj
      rw [ids, List.mem_cons] at hj
      rcases hj with rfl | hj
      · exact hkind
      · obtain ⟨k, hk, hj⟩ := mem_idsList.mp hj
        exact ih k hk j hj

/-- The text of a tree, by `text?`, is that of its tokens, as long as branches have no text of their
own. -/
theorem Fits.text?_eq {t : Outline} (h : Fits a t) (hnodup : t.ids.Nodup)
    (hblank : ∀ j ∈ t.ids, (a.node j).kind? = some .branch → (a.node j).content = []) :
    a.text? t.root = some (a.textIn t.ids) := by
  have hlist : ∀ is : List NodeId, (∀ j ∈ is, (a.node j).kind? ≠ none) →
      (∀ j ∈ is, (a.node j).kind? = some .branch → (a.node j).content = []) →
      (is.mapM fun j => (a.node j).ownText?).map List.flatten = some (a.textIn is) := by
    intro is hkind hblank
    induction is with
    | nil => rfl
    | cons i is ih =>
        obtain ⟨hi, hrest⟩ := List.forall_mem_cons.mp hkind
        obtain ⟨hblanki, hblankrest⟩ := List.forall_mem_cons.mp hblank
        obtain ⟨texts, htexts, hflatten⟩ := Option.map_eq_some_iff.mp (ih hrest hblankrest)
        have hown : (a.node i).ownText? = some (a.node i).content := by
          simp [Node.ownText?, hi]
        have hcons : a.textIn (i :: is) = (a.node i).content ++ a.textIn is := by
          by_cases hbranch : (a.node i).kind? = some .branch
          · simp [textIn, tokensIn_cons_of_branch hbranch, hblanki hbranch]
          · simp [textIn, tokensIn_cons_of_token (isToken_of_ne_branch hbranch)]
        simp [List.mapM_cons, hown, htexts, hflatten, hcons]
  rw [text?, h.walk_eq hnodup]
  exact hlist t.ids h.kind?_ne_none hblank

/-- Tokens that are `Tiles` of a stretch with the texts of the source make up the slice of the
source. -/
theorem Tiles.flatMap_slice {ts : List NodeId} {src : Text} (h : a.Tiles s ts e) (hs : 0 ≤ s)
    (hordered : ∀ j ∈ ts, (a.node j).start ≤ (a.node j).stop)
    (hcontent : ∀ j ∈ ts, (a.node j).content = Text.slice src (a.node j).start (a.node j).stop) :
    (ts.flatMap fun j => (a.node j).content) = Text.slice src s e := by
  induction ts generalizing s with
  | nil =>
      obtain rfl : s = e := h
      simp [Text.slice_self src hs]
  | cons i ts ih =>
      obtain ⟨rfl, hrest⟩ := tiles_cons.mp h
      obtain ⟨hi, horderedRest⟩ := List.forall_mem_cons.mp hordered
      obtain ⟨htext, htextRest⟩ := List.forall_mem_cons.mp hcontent
      have hle := (hrest.le_end horderedRest).1
      rw [List.flatMap_cons, htext, ih hrest (by omega) horderedRest htextRest,
        Text.slice_append hs hi hle]

/-- Texts as wide as their ranges, by `Snug`, end where their ranges end. -/
theorem Tiles.end_eq_length {ts : List NodeId} (h : a.Tiles s ts e)
    (hsnug : ∀ j ∈ ts, (a.extent j).Snug) :
    e = s + (ts.flatMap fun j => (a.node j).content).length := by
  induction ts generalizing s with
  | nil =>
      obtain rfl : s = e := h
      simp
  | cons i ts ih =>
      obtain ⟨rfl, hrest⟩ := tiles_cons.mp h
      obtain ⟨hi, hsnugRest⟩ := List.forall_mem_cons.mp hsnug
      have hlength : ((a.node i).content.length : Int) = (a.node i).stop - (a.node i).start := hi
      have hend := ih hrest hsnugRest
      rw [List.flatMap_cons, List.length_append, Int.natCast_add]
      omega

/-- Texts as wide as their ranges that are `Tiles` of a stretch are the slices of what they make up.
-/
theorem Tiles.content_eq {ts : List NodeId} {src : Text} (h : a.Tiles s ts e) (hs : 0 ≤ s)
    (hsnug : ∀ j ∈ ts, (a.extent j).Snug)
    (hstands : Text.StandsAt src s.toNat (ts.flatMap fun j => (a.node j).content)) :
    ∀ j ∈ ts, (a.node j).content = Text.slice src (a.node j).start (a.node j).stop := by
  induction ts generalizing s with
  | nil => simp
  | cons i ts ih =>
      obtain ⟨rfl, hrest⟩ := tiles_cons.mp h
      obtain ⟨hi, hsnugRest⟩ := List.forall_mem_cons.mp hsnug
      have hlength : ((a.node i).content.length : Int) = (a.node i).stop - (a.node i).start := hi
      rw [List.flatMap_cons] at hstands
      have hself := (hstands.shorten (List.prefix_append _ _)).slice_eq
      have hplace : ((a.node i).start.toNat : Int) = (a.node i).start := Int.toNat_of_nonneg hs
      have hstop : (a.node i).start + (a.node i).content.length = (a.node i).stop := by omega
      rw [hplace, hstop] at hself
      refine List.forall_mem_cons.mpr ⟨hself.symm, ih hrest (by omega) hsnugRest ?_⟩
      have hnext : (a.node i).stop.toNat = (a.node i).start.toNat + (a.node i).content.length := by
        omega
      rw [hnext]
      exact hstands.drop (by simp)

/-! ### What edits do to extents -/

section Extents

variable {r : NodeId} {t k u : Outline} {path : List NodeId} {f : List Outline → Outline}

theorem extent_insertTokens (a : Arena) (side : Side) (anchor i j : NodeId) (ranges : Bool) :
    (a.insertTokens side anchor i ranges).extent j =
      (if ranges then (a.linkRow (a.tokens i)).moveTo i
        ((a.linkRow (a.tokens i)).placeBeside anchor side) anchor
      else a.linkRow (a.tokens i)).extent j := by
  simp only [insertTokens]
  split
  · cases side with
    | before => simp
    | after => simp
  · rfl

/-- The place beside a tree, `placeBeside`, depends on the nodes in it only. -/
theorem Fits.placeBeside_congr {b : Arena} (ha : Fits a k) (hb : Fits b k) (hsize : b.size = a.size)
    (hextent : ∀ j ∈ k.ids, b.extent j = a.extent j) (side : Side) :
    b.placeBeside k.root side = a.placeBeside k.root side := by
  cases side with
  | before => exact congrArg Extent.start (hextent k.root k.root_mem_ids)
  | after => exact ha.outerEnd_congr hb hsize hextent

/-- Inserting the tree `u` opens room for it in the document and moves it there. -/
theorem Intact.extent_insert (h : Intact a r t) (hroute : Route k path t f) (hu : Fits a u)
    (hunodup : u.ids.Nodup) (hdisjoint : ∀ j ∈ u.ids, j ∉ t.ids) (side : Side) :
    (∀ j ∈ t.ids, (a.insert side k.root u.root true).1.extent j =
        (a.extent j).resized (path.contains j) (a.placeBeside k.root side)
          (a.outerEnd u.root - (a.node u.root).start)) ∧
      ∀ j ∈ u.ids, (a.insert side k.root u.root true).1.extent j =
        (a.extent j).moved (a.placeBeside k.root side - (a.node u.root).start) := by
  obtain ⟨p, left, right, front, back, hfocus, -⟩ := hroute.exists_focus h.nodup
  obtain ⟨-, -, -, -, -, hk, -, -⟩ := h.focus_child hfocus
  obtain ⟨c, hattach, hinsert, -⟩ := h.insert_eq_relink hfocus hu hdisjoint side true
  -- linking the new tokens in a row changes nothing that counts here
  have hb := linkRow_alike (a.tokens u.root) a
  have hextent := a.extent_linkRow (a.tokens u.root)
  have hinserted : ∀ j, (a.insert side k.root u.root true).1.extent j =
      ((a.linkRow (a.tokens u.root)).moveTo u.root
        ((a.linkRow (a.tokens u.root)).placeBeside k.root side) k.root).extent j := by
    intro j
    rw [hinsert, extent_relink, extent_attach _ hattach, extent_insertTokens, if_pos rfl]
  generalize a.linkRow (a.tokens u.root) = b at hb hextent hinserted
  have hub := hu.sameShape hb.toSameShape
  obtain ⟨hancestors, hroot⟩ := h.threaded.ancestors_eq h.fits h.nodup (Nat.le_of_eq hb.size.symm)
    (fun j _ => hb.parent j) hroute
  have hwalk : b.walk (b.root k.root) = t.ids := by
    rw [hroot, (h.fits.sameShape hb.toSameShape).walk_eq h.nodup]
  have hwalk' : b.walk u.root = u.ids := hub.walk_eq hunodup
  have hstart : (b.node u.root).start = (a.node u.root).start :=
    congrArg Extent.start (hextent u.root)
  have hplace : b.placeBeside k.root side = a.placeBeside k.root side :=
    hk.placeBeside_congr (hk.sameShape hb.toSameShape) hb.size (fun j _ => hextent j) side
  have hmoved := extent_moveTo (a := b) (i := u.root) k.root (a.placeBeside k.root side)
    (hwalk ▸ h.nodup) (hwalk ▸ hb.size ▸ h.fits.lt_size) (hwalk' ▸ hunodup)
    (hwalk' ▸ hb.size ▸ hu.lt_size) (hwalk ▸ hdisjoint _ u.root_mem_ids)
    (hwalk' ▸ hwalk ▸ hdisjoint)
  rw [hwalk, hwalk', hancestors, hstart, hu.outerEnd_congr hub hb.size fun j _ => hextent j]
    at hmoved
  rw [hplace] at hinserted
  refine ⟨fun j hj => ?_, fun j hj => ?_⟩
  · have hju : j ∉ u.ids := fun hju => hdisjoint j hju hj
    rw [hinserted, hmoved, if_neg hju, if_pos hj, hextent]
  · rw [hinserted, hmoved, if_pos hj, hextent]

/-- Removing the tree `k` closes the room it took in the document. -/
theorem Intact.extent_remove (h : Intact a r t) (hroute : Route k path t f) :
    ∀ j ∈ t.ids, j ∉ k.ids → (a.remove k.root true).extent j =
      (a.extent j).resized (path.contains j) (a.outerEnd k.root)
        (-(a.outerEnd k.root - (a.node k.root).start)) := by
  obtain ⟨p, left, right, front, back, hfocus, -⟩ := hroute.exists_focus h.nodup
  obtain ⟨-, hi, hne, -, -, hk, -, -⟩ := h.focus_child hfocus
  obtain ⟨hfits, hnodup⟩ := h.without_child hfocus
  have hcut := cutTokens_alike a k.root
  obtain ⟨hancestors, -⟩ := h.threaded.ancestors_eq h.fits h.nodup (Nat.le_of_eq hcut.size.symm)
    (fun j _ => hcut.parent j) hroute
  have hrehung := h.unhook_rehung hfocus
  have hextent : ∀ j, (a.unhook k.root).extent j = a.extent j := by simp [unhook]
  rw [h.remove_eq hi hne, hancestors]
  generalize a.unhook k.root = b at hrehung hextent
  have hfitsb : Fits b (t.replace p (left ++ right)) :=
    hrehung.fits_replace h.fits hfocus (by simp) hfits hnodup
  have hwalk : b.walk r = (t.replace p (left ++ right)).ids := by
    have hwalk := hfitsb.walk_eq hnodup
    rwa [root_replace, h.root] at hwalk
  have hkb : Fits b k := by
    refine hrehung.fits hk fun hpk => h.notMem_below hfocus ?_
    exact (ids_sublist (by simp)).subset hpk
  have hstart : (b.node k.root).start = (a.node k.root).start :=
    congrArg Extent.start (hextent k.root)
  rw [hk.outerEnd_congr hkb hrehung.size fun j _ => hextent j, hstart]
  intro j hj hjk
  have hjwalk : j ∈ b.walk r := by
    have hids : (t.replace p (left ++ right)).ids =
        (front ++ p :: idsList left) ++ (idsList right ++ back) :=
      hfocus.ids_replace_child left [] right
    rw [hfocus.ids_child] at hj
    rw [hwalk, hids]
    rcases List.mem_append.mp hj with hj | hj
    · exact List.mem_append_left _ hj
    · exact List.mem_append_right _ ((List.mem_append.mp hj).resolve_left hjk)
  rw [if_pos rfl, extent_relink, extent_shiftFrom (hwalk ▸ hnodup) (hwalk ▸ hfitsb.lt_size),
    if_pos hjwalk, hextent]

end Extents

/-! ### Documents without gaps -/

/-- The document at `r` is threaded and covers the source: its tokens tile the source, each with
the text that stands there, and every branch spans its tokens. -/
structure Tiled (a : Arena) (r : NodeId) (src : Text) : Prop where
  /-- The nodes below `r` make up a tree. -/
  tree : IsTree a r
  /-- The links of the tree are what `thread` makes them. -/
  threaded : a.thread r = (a, none)
  /-- The tokens come one after the other, from the beginning of `src` to its end. -/
  tokens : a.Tiles 0 (a.tokens r) src.length
  /-- A token has the text of `src` over its range. -/
  contents : ∀ j ∈ a.tokens r, (a.node j).content = Text.slice src (a.node j).start (a.node j).stop
  /-- A branch `i` starts where its first token does and ends with the last one. -/
  branches : ∀ i ∈ a.walk r, (a.node i).kind? = some .branch →
    a.Tiles (a.node i).start (a.tokens i) (a.node i).stop

/-- A tree that could be put into a document, by `insert`: no node is empty, its tokens come one
after the other, and every branch spans its tokens and has no text of its own. -/
structure Fragment (a : Arena) (i : NodeId) : Prop where
  /-- The nodes below `i` make up a tree. -/
  tree : IsTree a i
  /-- No node below `i` is empty. -/
  wide : Wide a (a.walk i)
  /-- The tokens come one after the other, from the start of `i` to its `outerEnd`. -/
  tokens : a.Tiles (a.node i).start (a.tokens i) (a.outerEnd i)
  /-- A branch `j` starts where its first token does and ends with the last one. -/
  branches : ∀ j ∈ a.walk i, (a.node j).kind? = some .branch →
    a.Tiles (a.node j).start (a.tokens j) (a.node j).stop
  /-- All text is in tokens: a branch `j` has none of its own. -/
  blank : ∀ j ∈ a.walk i, (a.node j).kind? = some .branch → (a.node j).content = []

section Tiled

variable {r : NodeId} {t : Outline} {src : Text}

theorem Intact.tokens_eq (h : Intact a r t) : a.tokens r = a.tokensIn t.ids := by
  rw [Arena.tokens, h.walk_eq, tokensIn]

/-- Going along the chain of a document that is `Intact`, by `stream`, meets its tokens. -/
theorem Intact.stream_eq (h : Intact a r t) : a.stream r = a.tokens r := by
  have hstream := h.threaded.streamWithin_eq h.fits h.nodup
  rw [h.root] at hstream
  rw [stream, hstream]

theorem Tiled.exists_outline (h : Tiled a r src) : ∃ t, Intact a r t ∧ Spans a t := by
  obtain ⟨t, ht⟩ := h.tree.exists_intact h.threaded
  refine ⟨t, ht, (spans_iff ht.fits ht.nodup).mpr ?_⟩
  rw [← ht.walk_eq]
  exact h.branches

/-- A document whose texts are as wide as their ranges is `Tiled` over its own text. -/
theorem Intact.tiled (h : Intact a r t) (hspans : Spans a t)
    (htiles : a.Tiles 0 (a.tokensIn t.ids) e) (hsnug : ∀ j ∈ a.tokensIn t.ids, (a.extent j).Snug) :
    Tiled a r (a.textIn t.ids) := by
  have hend := htiles.end_eq_length hsnug
  rw [Int.zero_add] at hend
  refine ⟨⟨t, h.root, h.fits, h.nodup⟩, ?_, ?_, ?_, ?_⟩
  · rw [← h.root]
    exact thread_eq_self h.fits h.nodup h.threaded
  · rw [h.tokens_eq]
    exact hend ▸ htiles
  · rw [h.tokens_eq]
    exact htiles.content_eq (Int.le_refl 0) hsnug (List.prefix_refl _)
  · rw [h.walk_eq]
    exact (spans_iff h.fits h.nodup).mp hspans

/-- A row of tokens that covers the source from an offset `s` on passes `checkRow`. -/
theorem checkRow_ok {ts : List NodeId} (h : a.Tiles s ts src.length)
    (hkind : ∀ j ∈ ts, (a.node j).kind? ≠ none)
    (hcontent : ∀ j ∈ ts, (a.node j).content = Text.slice src (a.node j).start (a.node j).stop) :
    a.checkRow src s ts = .ok () := by
  induction ts generalizing s with
  | nil =>
      have hs : s = src.length := h
      simp [checkRow, hs]
  | cons i ts ih =>
      obtain ⟨rfl, hrest⟩ := tiles_cons.mp h
      obtain ⟨hi, hkindRest⟩ := List.forall_mem_cons.mp hkind
      obtain ⟨htext, htextRest⟩ := List.forall_mem_cons.mp hcontent
      simp [checkRow, hi, ← htext, ih hrest hkindRest htextRest]

/-- The chain of a document that is `Tiled` passes `validate`. -/
theorem Tiled.validate (h : Tiled a r src) : a.validate r src = .ok () := by
  obtain ⟨t, hintact, -⟩ := h.exists_outline
  rw [Arena.validate, hintact.stream_eq]
  refine checkRow_ok h.tokens (fun j hj => ?_) h.contents
  rw [hintact.tokens_eq] at hj
  exact hintact.fits.kind?_ne_none j (List.mem_filter.mp hj).1

/-- Texts of the source are as wide as their ranges, that is, `Snug`. -/
theorem Tiled.snug (h : Tiled a r src) (hwide : Wide a (a.walk r)) :
    ∀ j ∈ a.tokens r, (a.extent j).Snug := by
  intro j hj
  have hord : ∀ i ∈ a.tokens r, (a.node i).start ≤ (a.node i).stop := fun i hi =>
    Int.le_of_lt (hwide i (List.mem_filter.mp hi).1)
  have hstart : 0 ≤ (a.node j).start := h.tokens.le_start hord j hj
  have hstop : (a.node j).stop ≤ src.length := (h.tokens.le_end hord).2 j hj
  have hlength := Text.length_slice hstart (hord j hj) hstop
  rw [← h.contents j hj] at hlength
  exact hlength

/-- The source in front of the tree `k`, in it and behind it. -/
theorem Tiled.textIn_around (h : Tiled a r src) (hwide : Wide a (a.walk r)) {k : Outline}
    (hfits : Fits a k) (hnodup : k.ids.Nodup) (hspans : Spans a k) {front back : List NodeId}
    (hids : a.walk r = front ++ (k.ids ++ back)) :
    a.textIn front = Text.slice src 0 (a.node k.root).start ∧
      a.textIn front ++ a.textIn k.ids = Text.slice src 0 (a.outerEnd k.root) ∧
      a.textIn k.ids ++ a.textIn back = Text.sliceFrom src (a.node k.root).start ∧
      a.textIn back = Text.sliceFrom src (a.outerEnd k.root) := by
  have htiles := h.tokens
  have hcontent := h.contents
  have hwideTokens : Wide a (a.tokens r) := fun j hj => hwide j (List.mem_filter.mp hj).1
  have htokens : a.tokens r = a.tokensIn front ++ (a.tokensIn k.ids ++ a.tokensIn back) := by
    rw [Arena.tokens, hids]
    simp [tokensIn]
  rw [htokens] at htiles hcontent hwideTokens
  obtain ⟨m, hfront, hrest⟩ := htiles.split
  obtain ⟨n, hmiddle, hback⟩ := Abut.split hrest
  have hwidek : Wide a k.ids := fun j hj => hwide j (by simp [hids, hj])
  obtain ⟨rfl, hmn, -⟩ := hspans.bounds hwidek hmiddle
  obtain rfl := hspans.outerEnd_eq hfits hnodup hwidek hmiddle
  have hord : ∀ {ts : List NodeId}, (∀ j ∈ ts, j ∈ a.tokensIn front ++ (a.tokensIn k.ids ++
      a.tokensIn back)) → ∀ j ∈ ts, (a.node j).start ≤ (a.node j).stop := fun hts j hj =>
    Int.le_of_lt (hwideTokens j (hts j hj))
  have hm := (Abut.le_end hfront (hord fun j hj => by simp [hj])).1
  have hn := (Abut.le_end hback (hord fun j hj => by simp [hj])).1
  have hslice : ∀ {s e : Int} {is : List NodeId}, a.Tiles s (a.tokensIn is) e → 0 ≤ s →
      (∀ j ∈ a.tokensIn is, j ∈ a.tokensIn front ++ (a.tokensIn k.ids ++ a.tokensIn back)) →
      a.textIn is = Text.slice src s e := fun h hs hsub =>
    h.flatMap_slice hs (hord hsub) fun j hj => hcontent j (hsub j hj)
  have hfrontText := hslice hfront (Int.le_refl 0) fun j hj => by simp [hj]
  have hmiddleText := hslice hmiddle hm fun j hj => by simp [hj]
  have hbackText := hslice hback (by omega) fun j hj => by simp [hj]
  rw [hfrontText, hmiddleText, hbackText, Text.sliceFrom_eq_slice, Text.sliceFrom_eq_slice]
  exact ⟨rfl, Text.slice_append (Int.le_refl 0) hm (Int.le_of_lt hmn),
    Text.slice_append hm (Int.le_of_lt hmn) hn, rfl⟩

end Tiled

/-! ### Edits -/

section Edits

variable {r : NodeId} {src : Text} {k t : Outline} {path : List NodeId}
  {f : List Outline → Outline} {cut d : Int}

theorem Route.spans (h : Route k path t f) (ht : Spans a t) : Spans a k := by
  induction h with
  | here =>
      cases ht with
      | node _ hks => exact hks k (by simp)
  | deeper _ ih =>
      cases ht with
      | node _ hks => exact ih (hks _ (by simp))

/-- Opening room of width `d` gives no token another width. -/
theorem Route.snug_resized (h : Route k path t f) (hfits : Fits a t) {j : NodeId} (hj : j ∈ t.ids)
    (htoken : (a.node j).isToken = true) (hsnug : (a.extent j).Snug) :
    ((a.extent j).resized (path.contains j) cut d).Snug := by
  refine hsnug.resized fun hpath => ?_
  have hleaf := h.kind?_ne_leaf hfits (List.contains_iff_mem.mp hpath)
  have hsome := hfits.kind?_ne_none j hj
  change (a.node j).kind? = some .contextualizer
  cases hkind : (a.node j).kind? with
  | none => exact absurd hkind hsome
  | some kind =>
      cases kind with
      | leaf => exact absurd hkind hleaf
      | branch => simp [Node.isToken, hkind] at htoken
      | contextualizer => rfl

/-- A document in which room was opened, by `Opens`, is `Tiled` over the texts of its tokens. -/
theorem Tiled.edit (h : Tiled a r src) (hwide : Wide a (a.walk r)) (ht : Intact a r t)
    (hspans : Spans a t) (hroute : Route k path t f) {ls : List Outline}
    (hnew : Intact c r (f ls)) (hopens : Opens a c cut d [k] ls)
    (hc : ∀ j ∈ t.ids, j ∉ k.ids → c.extent j = (a.extent j).resized (path.contains j) cut d)
    (hsnug : ∀ j ∈ (f ls).ids, (c.node j).isToken = true → (c.extent j).Snug) :
    Tiled c r (c.textIn (f ls).ids) := by
  have htiles := h.tokens
  rw [ht.tokens_eq] at htiles
  rw [ht.walk_eq] at hwide
  have hroot := hroute.opens ht.fits ht.nodup hspans hwide hopens hc 0 src.length
  simp only [idsList, List.append_nil, List.forall_mem_singleton] at hroot
  obtain ⟨-, -, htiles', hspans'⟩ := hroot htiles
  refine hnew.tiled hspans' htiles' fun j hj => ?_
  obtain ⟨hj, htoken⟩ := List.mem_filter.mp hj
  exact hsnug j hj htoken

/-- A tree `y` put beside a node of a document brings its text along. -/
theorem Tiled.insert {x y : NodeId} (h : Tiled a r src) (hwide : Wide a (a.walk r))
    (hx : x ∈ a.walk r) (hne : x ≠ r) (hy : Fragment a y)
    (hdisjoint : ∀ j ∈ a.walk y, j ∉ a.walk r) (hsnug : ∀ j ∈ a.tokens y, (a.extent j).Snug)
    (side : Side) :
    (a.insert side x y true).2 = none ∧ ∃ text, a.text? y = some text ∧
      Tiled (a.insert side x y true).1 r (Text.slice src 0 (a.placeBeside x side) ++
        (text ++ Text.sliceFrom src (a.placeBeside x side))) := by
  obtain ⟨t, ht, hspans⟩ := h.exists_outline
  obtain ⟨u, rfl, hu, hunodup⟩ := hy.tree
  have hwalk : a.walk r = t.ids := ht.walk_eq
  have hwalkU : a.walk u.root = u.ids := hu.walk_eq hunodup
  obtain ⟨k, path, f, rfl, hroute⟩ := exists_route t (hwalk ▸ hx) (ht.root ▸ hne)
  obtain ⟨p, left, right, front, back, hfocus, hf⟩ := hroute.exists_focus ht.nodup
  obtain ⟨-, -, -, -, -, hk, hknodup, -⟩ := ht.focus_child hfocus
  have hspansU : Spans a u := by
    rw [spans_iff hu hunodup, ← hwalkU]
    exact hy.branches
  have htilesU := hy.tokens
  rw [Arena.tokens, hwalkU] at htilesU hsnug
  rw [hwalkU, hwalk] at hdisjoint
  obtain ⟨hnone, hnew⟩ := ht.insert_focus hfocus hu hunodup hdisjoint side true
  obtain ⟨hcDoc, hcU⟩ := ht.extent_insert hroute hu hunodup hdisjoint side
  refine ⟨hnone, _, hu.text?_eq hunodup (hwalkU ▸ hy.blank), ?_⟩
  generalize (a.insert side k.root u.root true).1 = c at hnew hcDoc hcU
  rw [← hf] at hnew
  -- where the nodes of the new document come from
  obtain ⟨front, back, hids, hids'⟩ := hroute.exists_ids
  have hidsNew : (f (side.arrange [u] [k])).ids = front ++ (side.arrange u.ids k.ids ++ back) := by
    rw [hids', idsList_arrange]
  have hsource : ∀ j ∈ (f (side.arrange [u] [k])).ids, j ∈ u.ids ∨ j ∈ t.ids := by
    intro j hj
    simp only [hidsNew, List.mem_append, (side.arrange_perm _ _).mem_iff] at hj
    simp only [hids, List.mem_append]
    tauto
  have hsame : ∀ j ∈ (f (side.arrange [u] [k])).ids,
      (c.node j).cls = (a.node j).cls ∧ (c.node j).content = (a.node j).content := by
    intro j hj
    rcases hsource j hj with hj | hj
    · have hc := hcU j hj
      exact ⟨congrArg Extent.cls hc, congrArg Extent.content hc⟩
    · have hc := hcDoc j hj
      exact ⟨(congrArg Extent.cls hc).trans Extent.cls_resized,
        (congrArg Extent.content hc).trans Extent.content_resized⟩
  have hopens : Opens a c (a.placeBeside k.root side) (a.outerEnd u.root - (a.node u.root).start)
      [k] (side.arrange [u] [k]) := by
    refine opens_insert side hk hknodup (hroute.spans hspans) ?_ hspansU htilesU rfl ?_ hcU
    · exact fun j hj => hwide j (hwalk ▸ hroute.ids_subset hj)
    · intro j hj
      have hpath : j ∉ path := fun hpath => hroute.notMem_of_mem_path ht.nodup hpath hj
      simpa [hpath] using hcDoc j (hroute.ids_subset hj)
  have htiled := h.edit hwide ht hspans hroute hnew hopens (fun j hj _ => hcDoc j hj) ?_
  · -- the texts of the old document, with the new one in between
    obtain ⟨hfront, hfrontAnchor, hanchorBack, hback⟩ := h.textIn_around hwide hk hknodup
      (hroute.spans hspans) (hwalk.trans hids)
    rw [textIn_congr (fun j hj => (hsame j hj).1) fun j hj => (hsame j hj).2, hidsNew] at htiled
    cases side with
    | before =>
        simp only [Side.arrange, placeBeside] at htiled ⊢
        rw [← hfront, ← hanchorBack]
        simpa using htiled
    | after =>
        simp only [Side.arrange, placeBeside] at htiled ⊢
        rw [← hfrontAnchor, ← hback]
        simpa using htiled
  · intro j hj htoken
    rw [isToken_of_cls (hsame j hj).1] at htoken
    rcases hsource j hj with hj | hj
    · rw [hcU j hj]
      exact (hsnug j (List.mem_filter.mpr ⟨hj, htoken⟩)).moved
    · rw [hcDoc j hj]
      refine hroute.snug_resized ht.fits hj htoken (h.snug hwide j ?_)
      exact List.mem_filter.mpr ⟨hwalk ▸ hj, htoken⟩

/-- A node `x` taken out of a document takes its text along. -/
theorem Tiled.remove {x : NodeId} (h : Tiled a r src) (hwide : Wide a (a.walk r))
    (hx : x ∈ a.walk r) (hne : x ≠ r) :
    Tiled (a.remove x true) r
      (Text.slice src 0 (a.node x).start ++ Text.sliceFrom src (a.outerEnd x)) := by
  obtain ⟨t, ht, hspans⟩ := h.exists_outline
  have hwalk : a.walk r = t.ids := ht.walk_eq
  obtain ⟨k, path, f, rfl, hroute⟩ := exists_route t (hwalk ▸ hx) (ht.root ▸ hne)
  obtain ⟨p, left, right, front, back, hfocus, hf⟩ := hroute.exists_focus ht.nodup
  obtain ⟨-, -, -, -, -, hk, hknodup, -⟩ := ht.focus_child hfocus
  have hnew : Intact (a.remove k.root true) r (f []) := by
    rw [hf]
    exact ht.remove_focus hfocus true
  have hc := ht.extent_remove hroute
  generalize a.remove k.root true = c at hnew hc
  obtain ⟨front, back, hids, hids'⟩ := hroute.exists_ids
  have hidsNew : (f []).ids = front ++ back := hids' []
  have hsource : ∀ j ∈ (f []).ids, j ∈ t.ids ∧ j ∉ k.ids := by
    intro j hj
    have hnodup := ht.nodup
    rw [hids, List.nodup_append, List.nodup_append] at hnodup
    obtain ⟨-, ⟨-, -, hkb⟩, hfk⟩ := hnodup
    rw [hidsNew] at hj
    rw [hids]
    rcases List.mem_append.mp hj with hj | hj
    · exact ⟨List.mem_append_left _ hj, fun hjk => hfk j hj j (List.mem_append_left _ hjk) rfl⟩
    · exact ⟨List.mem_append_right _ (List.mem_append_right _ hj), fun hjk => hkb j hjk j hj rfl⟩
  have hsame : ∀ j ∈ (f []).ids,
      (c.node j).cls = (a.node j).cls ∧ (c.node j).content = (a.node j).content := by
    intro j hj
    have hcj := hc j (hsource j hj).1 (hsource j hj).2
    exact ⟨(congrArg Extent.cls hcj).trans Extent.cls_resized,
      (congrArg Extent.content hcj).trans Extent.content_resized⟩
  have hspansK := hroute.spans hspans
  have hwideK : Wide a k.ids := fun j hj => hwide j (hwalk ▸ hroute.ids_subset hj)
  have htiled := h.edit hwide ht hspans hroute hnew (opens_remove hk hknodup hspansK hwideK) hc ?_
  · obtain ⟨hfront, -, -, hback⟩ := h.textIn_around hwide hk hknodup hspansK
      (hwalk.trans hids)
    rw [textIn_congr (fun j hj => (hsame j hj).1) fun j hj => (hsame j hj).2, hidsNew] at htiled
    rw [← hfront, ← hback]
    simpa using htiled
  · intro j hj htoken
    rw [isToken_of_cls (hsame j hj).1] at htoken
    obtain ⟨hjt, hjk⟩ := hsource j hj
    rw [hc j hjt hjk]
    refine hroute.snug_resized ht.fits hjt htoken (h.snug hwide j ?_)
    exact List.mem_filter.mpr ⟨hwalk ▸ hjt, htoken⟩

end Edits

/-- **Edits that move ranges keep a document gap-free.** In a document that is tiled over a
source and has no empty node, take any node but the root. Putting a fragment whose texts are as
wide as their ranges in front of it or behind it never fails, and leaves the document tiled over
the source with the text of the fragment put in there. Removing it leaves the document tiled over
the source with that stretch taken out, so the chain validates. -/
theorem ranged_edits_keep_tiled {a : Arena} {r x : NodeId} {src : Text} (h : Tiled a r src)
    (hwide : Wide a (a.walk r)) (hx : x ∈ a.walk r) (hne : x ≠ r) :
    (∀ y, Fragment a y → (∀ j ∈ a.walk y, j ∉ a.walk r) →
      (∀ j ∈ a.tokens y, ((a.node j).content.length : Int) = (a.node j).stop - (a.node j).start) →
      (∀ side, (a.insert side x y true).2 = none) ∧ ∃ text, a.text? y = some text ∧
        Tiled (a.insert .before x y true).1 r
          (Text.slice src 0 (a.node x).start ++ (text ++ Text.sliceFrom src (a.node x).start)) ∧
        Tiled (a.insert .after x y true).1 r
          (Text.slice src 0 (a.outerEnd x) ++ (text ++ Text.sliceFrom src (a.outerEnd x)))) ∧
      Tiled (a.remove x true) r
        (Text.slice src 0 (a.node x).start ++ Text.sliceFrom src (a.outerEnd x)) ∧
      (a.remove x true).validate r
        (Text.slice src 0 (a.node x).start ++ Text.sliceFrom src (a.outerEnd x)) = .ok () := by
  have hremove := h.remove hwide hx hne
  refine ⟨fun y hy hdisjoint hsnug => ?_, hremove, hremove.validate⟩
  have hinsert := h.insert hwide hx hne hy hdisjoint hsnug
  obtain ⟨-, text, htext, hbefore⟩ := hinsert .before
  obtain ⟨-, text', htext', hafter⟩ := hinsert .after
  obtain rfl : text = text' := Option.some.inj (htext.symm.trans htext')
  exact ⟨fun side => (hinsert side).1, text, htext, hbefore, hafter⟩

/-! ### Samples -/

/-- A document that was threaded by `thread`, with another tree waiting outside. -/
theorem exists_intact_add {e : Element} (he : e.isKinded = true) (f : Element) :
    ∃ t, Intact (((ofElement e).thread 0).1.add f) 0 t := by
  obtain ⟨t, hroot, hfits, hnodup⟩ := isTree_ofElement he
  obtain ⟨-, hshape, hthreaded⟩ := thread_threaded hfits hnodup
  rw [hroot] at hshape hthreaded
  exact ⟨t, Intact.add ⟨hroot, hfits.sameShape hshape, hnodup, hthreaded⟩ f⟩

/-- The statement `$(x);` as a document. -/
def sampleNested : Element :=
  .branch .document (.ofText 0 ['$', '(', 'x', ')', ';']) none
    [.branch .statement (.ofText 0 ['$', '(', 'x', ')', ';']) none
      [.contextualizer (some .scalar) (.ofText 0 ['$']) ['$'] none
        [.leaf ⟨.balancedEnter, .ofText 1 ['('], ['('], none, {}⟩,
          .leaf ⟨.bareword, .ofText 2 ['x'], ['x'], none, {}⟩,
          .leaf ⟨.balancedExit, .ofText 3 [')'], [')'], none, {}⟩],
        .leaf ⟨.semicolon, .ofText 4 [';'], [';'], none, {}⟩]]

/-- The statement `y` and a blank, taken from somewhere else. -/
def sampleFragment : Element :=
  .branch .statement (.ofText 7 ['y', ' ']) none
    [.leaf ⟨.bareword, .ofText 7 ['y'], ['y'], none, {}⟩,
      .leaf ⟨.ws, .ofText 8 [' '], [' '], none, {}⟩]

/-- The document `sampleNested` with `sampleFragment` waiting outside. -/
def sampleRoom : Arena := ((ofElement sampleNested).thread 0).1.add sampleFragment

theorem sample_keeps_tiled :
    Tiled sampleRoom 0 ['$', '(', 'x', ')', ';'] ∧ Wide sampleRoom (sampleRoom.walk 0) ∧
      Fragment sampleRoom 7 ∧
      Tiled (sampleRoom.insert .before 4 7 true).1 0 ['$', '(', 'y', ' ', 'x', ')', ';'] ∧
      Tiled (sampleRoom.remove 2 true) 0 [';'] := by
  obtain ⟨t, ht⟩ := exists_intact_add (e := sampleNested) (by decide) sampleFragment
  have htiled : Tiled sampleRoom 0 ['$', '(', 'x', ')', ';'] :=
    { tree := ⟨t, ht.root, ht.fits, ht.nodup⟩
      threaded := ht.root ▸ thread_eq_self ht.fits ht.nodup ht.threaded
      tokens := by decide +kernel
      contents := by decide +kernel
      branches := by decide +kernel }
  have hwide : Wide sampleRoom (sampleRoom.walk 0) := by decide +kernel
  have hfragment : Fragment sampleRoom 7 :=
    { tree := isTree_add (by decide) _
      wide := by decide +kernel
      tokens := by decide +kernel
      branches := by decide +kernel
      blank := by decide +kernel }
  obtain ⟨hinsert, -, -⟩ := ranged_edits_keep_tiled (x := 4) htiled hwide (by decide +kernel) (by decide)
  obtain ⟨-, text, htext, hbefore, -⟩ := hinsert 7 hfragment (by decide +kernel) (by decide +kernel)
  obtain rfl : text = ['y', ' '] := Option.some.inj (htext.symm.trans (by decide +kernel))
  obtain ⟨-, hremove, -⟩ := ranged_edits_keep_tiled (x := 2) htiled hwide (by decide +kernel) (by decide)
  exact ⟨htiled, hwide, hfragment, hbefore, hremove⟩

/-- The word `a` as a document. -/
def sampleWord : Element :=
  .branch .document (.ofText 0 ['a']) none [.leaf ⟨.bareword, .ofText 0 ['a'], ['a'], none, {}⟩]

/-- A word of one character with a range that is two characters wide, so that it is not `Snug`. -/
def sampleLoose : Element := .leaf ⟨.bareword, .ofText 0 ['b', ' '], ['b'], none, {}⟩

/-- The document `sampleWord` with `sampleLoose` waiting outside. -/
def sampleLooseRoom : Arena := ((ofElement sampleWord).thread 0).1.add sampleLoose

/-- Where texts are not `Snug`, room is made for the range, and the document does not cover the
source with the text put in. -/
theorem loose_fragment_breaks_tiling :
    Tiled sampleLooseRoom 0 ['a'] ∧ Wide sampleLooseRoom (sampleLooseRoom.walk 0) ∧
      (1 ∈ sampleLooseRoom.walk 0 ∧ 1 ≠ 0) ∧ Fragment sampleLooseRoom 2 ∧
      (∀ j ∈ sampleLooseRoom.walk 2, j ∉ sampleLooseRoom.walk 0) ∧
      sampleLooseRoom.text? 2 = some ['b'] ∧
      ¬ Tiled (sampleLooseRoom.insert .before 1 2 true).1 0
        (Text.slice ['a'] 0 (sampleLooseRoom.node 1).start ++
          (['b'] ++ Text.sliceFrom ['a'] (sampleLooseRoom.node 1).start)) ∧
      (sampleLooseRoom.insert .before 1 2 true).1.validate 0 ['b', 'a'] =
        .error (.altered "Bareword(0..2 'b')") := by
  obtain ⟨t, ht⟩ := exists_intact_add (e := sampleWord) (by decide) sampleLoose
  refine ⟨⟨⟨t, ht.root, ht.fits, ht.nodup⟩, ht.root ▸ thread_eq_self ht.fits ht.nodup ht.threaded,
    by decide +kernel, by decide +kernel, by decide +kernel⟩, by decide +kernel, by decide +kernel,
    ⟨isTree_add (by decide) _, by decide +kernel, by decide +kernel, by decide +kernel,
      by decide +kernel⟩, by decide +kernel, by decide +kernel, fun h => ?_, by decide +kernel⟩
  have htokens := h.tokens
  revert htokens
  decide +kernel

end RakuTree.Arena
