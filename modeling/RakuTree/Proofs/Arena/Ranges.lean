import RakuTree.Proofs.Arena.Edits
import RakuTree.Proofs.Layout

/-!
# RakuTree.Proofs.Arena.Ranges

What edits do to ranges.

Mending the chain and the child lists leaves the `Extent` of every node alone: its class,
range and text. Ranges only change where room is opened or closed, and there each node of
the document is looked at once (`extent_foldl`), so that what becomes of a node can be said
without following the loop (`extent_shiftFrom`, `extent_moveTo`).

Whether such a change is right depends on how ranges and tree belong together. In a tree
that `Spans`, the tokens of a branch tile its range. When in addition no node is empty, the
place where a node starts tells on which side of a cut it lies (`Spans.bounds`), and the end
of all that a node covers is the end of its last token (`Spans.outerEnd_eq`).
-/

namespace RakuTree

/-- What a `Node` covers, and with which text. -/
structure Extent where
  /-- The class of the node, `Node.cls`. -/
  cls : Class
  /-- Where the node starts, `Node.start`. -/
  start : Int
  /-- Where the node ends, `Node.stop`. -/
  stop : Int
  /-- The text the node carries itself, `Node.content`. -/
  content : Text

namespace Extent

/-- The extent `e` somewhere else, `d` further on. -/
def moved (d : Int) (e : Extent) : Extent := { e with start := e.start + d, stop := e.stop + d }

/-- The extent `e` with `d` more inside. A contextualizer covers its sigil only. -/
def grown (d : Int) (e : Extent) : Extent :=
  if e.cls.kind? = some .contextualizer then e else { e with stop := e.stop + d }

/-- What becomes of the extent of a node when room is opened at `place`. -/
def resized (encloses : Bool) (place d : Int) (e : Extent) : Extent :=
  if encloses then e.grown d else if place ≤ e.start then e.moved d else e

variable {encloses : Bool} {place d : Int} {e : Extent}

@[simp] theorem moved_zero : e.moved 0 = e := by simp [moved]

@[simp] theorem cls_grown : (e.grown d).cls = e.cls := by
  rw [grown]
  split <;> rfl

@[simp] theorem start_grown : (e.grown d).start = e.start := by
  rw [grown]
  split <;> rfl

@[simp] theorem content_grown : (e.grown d).content = e.content := by
  rw [grown]
  split <;> rfl

theorem stop_grown (h : e.cls.kind? ≠ some .contextualizer) : (e.grown d).stop = e.stop + d := by
  simp [grown, h]

theorem grown_of_contextualizer (h : e.cls.kind? = some .contextualizer) : e.grown d = e := by
  simp [grown, h]

theorem moved_neg_moved : (e.moved d).moved (-d) = e := by
  simp only [moved, Int.add_neg_cancel_right]

theorem grown_neg_grown : (e.grown d).grown (-d) = e := by
  by_cases hkind : e.cls.kind? = some .contextualizer
  · rw [grown_of_contextualizer hkind, grown_of_contextualizer hkind]
  · simp only [grown, if_neg hkind, Int.add_neg_cancel_right]

@[simp] theorem resized_zero : e.resized encloses place 0 = e := by simp [resized, grown]

@[simp] theorem cls_resized : (e.resized encloses place d).cls = e.cls := by
  simp only [resized, moved]
  split
  · exact cls_grown
  · split <;> rfl

@[simp] theorem content_resized : (e.resized encloses place d).content = e.content := by
  simp only [resized, moved]
  split
  · exact content_grown
  · split <;> rfl

theorem resized_of_lt (h : e.start < place) : e.resized false place d = e := by
  simp [resized, Int.not_le.mpr h]

theorem resized_of_le (h : place ≤ e.start) : e.resized false place d = e.moved d := by
  simp [resized, h]

/-- Closing the room again that `resized` opened gives back what was there. What starts at the place
moves behind the room and comes back from there. -/
theorem resized_resized (hd : 0 ≤ d) :
    (e.resized encloses place d).resized encloses (place + d) (-d) = e := by
  cases encloses with
  | true => exact grown_neg_grown
  | false =>
      by_cases hplace : place ≤ e.start
      · rw [resized_of_le hplace, resized_of_le (by simp only [moved]; omega), moved_neg_moved]
      · have hlt : e.start < place := by omega
        rw [resized_of_lt hlt, resized_of_lt (by omega)]

/-- The text of `e` is as long as its range is wide. -/
def Snug (e : Extent) : Prop := (e.content.length : Int) = e.stop - e.start

instance (e : Extent) : Decidable e.Snug :=
  inferInstanceAs (Decidable ((e.content.length : Int) = e.stop - e.start))

theorem Snug.moved (h : e.Snug) : (e.moved d).Snug := by
  simp only [Snug, Extent.moved] at h ⊢
  omega

/-- Only what `encloses` the room can get another width than its text. -/
theorem Snug.resized (h : e.Snug)
    (hkind : encloses = true → e.cls.kind? = some .contextualizer) :
    (e.resized encloses place d).Snug := by
  rw [Extent.resized]
  split
  · rename_i hencloses
    rwa [grown_of_contextualizer (hkind hencloses)]
  · split
    · exact h.moved
    · exact h

end Extent

/-- The extent of the node `n`. -/
def Node.extent (n : Node) : Extent := ⟨n.cls, n.start, n.stop, n.content⟩

namespace Arena

open Outline

/-- The extent of node `i`. -/
def extent (a : Arena) (i : NodeId) : Extent := (a.node i).extent

variable {a b : Arena} {i j : NodeId}

/-! ### Changes that leave extents alone -/

section Frame

variable (a : Arena)

theorem extent_update {f : Node → Node} (hf : ∀ n, (f n).extent = n.extent) (i j : NodeId) :
    (a.update i f).extent j = a.extent j :=
  field_update Node.extent hf a i j

@[simp] theorem extent_setNext (i x j : NodeId) : (a.setNext i x).extent j = a.extent j :=
  a.extent_update (fun _ => by rfl) i j

@[simp] theorem extent_setPrevious (i x j : NodeId) : (a.setPrevious i x).extent j = a.extent j :=
  a.extent_update (fun _ => by rfl) i j

@[simp] theorem extent_setParent (i x j : NodeId) : (a.setParent i x).extent j = a.extent j :=
  a.extent_update (fun _ => by rfl) i j

@[simp] theorem extent_setChildren (i : NodeId) (ks : List NodeId) (j : NodeId) :
    (a.setChildren i ks).extent j = a.extent j :=
  a.extent_update (fun _ => by rfl) i j

@[simp] theorem extent_setParents (ks : List NodeId) (x j : NodeId) :
    (a.setParents ks x).extent j = a.extent j :=
  field_setParents Node.extent (fun _ _ => by rfl) ks x a j

@[simp] theorem extent_linkRow (ts : List NodeId) (j : NodeId) :
    (a.linkRow ts).extent j = a.extent j := by
  induction ts generalizing a with
  | nil => rfl
  | cons i ts ih =>
      cases ts with
      | nil => rfl
      | cons k ts => simp [linkRow, ih]

@[simp] theorem extent_cutOut (first last j : NodeId) :
    (a.cutOut first last).extent j = a.extent j := by
  simp only [cutOut, extent_setNext, extent_setPrevious]
  split <;> simp

@[simp] theorem extent_cutTokens (i j : NodeId) : (a.cutTokens i).extent j = a.extent j := by
  simp only [cutTokens]
  split <;> simp

@[simp] theorem extent_spliceBefore (first last i j : NodeId) :
    (a.spliceBefore first last i).extent j = a.extent j := by
  simp only [spliceBefore]
  split <;> simp

@[simp] theorem extent_spliceAfter (first last i j : NodeId) :
    (a.spliceAfter first last i).extent j = a.extent j := by
  simp only [spliceAfter]
  split <;> simp

@[simp] theorem extent_detach (i j : NodeId) : (a.detach i).extent j = a.extent j := by
  simp only [detach]
  split <;> simp

theorem extent_attach {side : Side} {anchor i : NodeId} (h : a.attach side anchor i = some b)
    (j : NodeId) : b.extent j = a.extent j := by
  simp only [attach] at h
  split at h
  · simp_all
  · obtain ⟨c, hc, rfl⟩ := Option.map_eq_some_iff.mp h
    rw [extent_setParent]
    split at hc
    · obtain ⟨ks, -, rfl⟩ := Option.map_eq_some_iff.mp hc
      simp
    · simp_all

theorem extent_relinkStep (t : Threading) (i j : NodeId) :
    (relinkStep t i).arena.extent j = t.arena.extent j := by
  have hadopt : (t.adopt i).arena.extent j = t.arena.extent j := extent_setParents _ _ _ _
  rw [← hadopt, relinkStep]
  generalize t.adopt i = t
  have hpending : ∀ (ps : List NodeId) (a : Arena),
      (ps.foldl (fun a b => a.setNext b i) a).extent j = a.extent j := by
    intro ps
    induction ps with
    | nil => simp
    | cons p ps ih => simp [ih]
  split
  · rw [Threading.link, hpending, extent_setNext]
    split <;> simp
  · simp [Threading.queue]

@[simp] theorem extent_relink (i j : NodeId) : (a.relink i).extent j = a.extent j := by
  have hsteps : ∀ (is : List NodeId) (t : Threading),
      (is.foldl relinkStep t).arena.extent j = t.arena.extent j := by
    intro is
    induction is with
    | nil => simp
    | cons k is ih => simp [ih, extent_relinkStep]
  exact hsteps (a.walk i) { arena := a }

end Frame

/-! ### Looking around in tables of the same shape -/

theorem SameShape.walk (h : SameShape a b) (i : NodeId) : b.walk i = a.walk i := by
  have hwithin : ∀ depth i, b.walkWithin depth i = a.walkWithin depth i := by
    intro depth
    induction depth with
    | zero => simp [walkWithin]
    | succ depth ih => simp [walkWithin, h.children, funext ih]
  rw [Arena.walk, h.size, hwithin, Arena.walk]

/-- A tree that moves as a whole by `d` takes its end along. -/
theorem Fits.outerEnd_moved {t : Outline} {d : Int} (ha : Fits a t) (hb : Fits b t)
    (hsize : b.size = a.size) (hextent : ∀ j ∈ t.ids, b.extent j = (a.extent j).moved d) :
    b.outerEnd t.root = a.outerEnd t.root + d := by
  have hwithin : ∀ depth, b.outerEndWithin depth t.root = a.outerEndWithin depth t.root + d := by
    induction ha with
    | @node i ks _ hch _ _ _ ih =>
        cases hb with
        | node _ hch' _ _ hks' =>
            have hi := hextent i (by simp [ids])
            have hkind : (b.node i).kind? = (a.node i).kind? :=
              congrArg (fun e : Extent => e.cls.kind?) hi
            have hstop : (b.node i).stop = (a.node i).stop + d := congrArg Extent.stop hi
            intro depth
            cases depth with
            | zero => exact hstop
            | succ depth =>
                simp only [Outline.root, outerEndWithin, hkind, hstop, hch, hch']
                split
                · rename_i k _ hlast
                  rw [List.getLast?_map, Option.map_eq_some_iff] at hlast
                  obtain ⟨l, hl, rfl⟩ := hlast
                  have hmem := List.mem_of_getLast? hl
                  refine ih l hmem (hks' l hmem) (fun j hj => hextent j ?_) depth
                  rw [ids]
                  exact List.mem_cons_of_mem _ (mem_idsList.mpr ⟨l, hmem, hj⟩)
                · rfl
  rw [outerEnd, hsize, hwithin, outerEnd]

/-- Where a tree ends, `outerEnd`, depends on the nodes in it only. -/
theorem Fits.outerEnd_congr {t : Outline} (ha : Fits a t) (hb : Fits b t) (hsize : b.size = a.size)
    (hextent : ∀ j ∈ t.ids, b.extent j = a.extent j) : b.outerEnd t.root = a.outerEnd t.root := by
  have hmoved := ha.outerEnd_moved (d := 0) hb hsize (by simpa using hextent)
  rwa [Int.add_zero] at hmoved

/-! ### Opening room -/

/-- A change `step` at each of some nodes that looks at the extent of that node only. -/
theorem extent_foldl {step : Arena → NodeId → Arena} {f : NodeId → Extent → Extent}
    (hsize : ∀ b i, (step b i).size = b.size)
    (hstep : ∀ b i j, i < b.size →
      (step b i).extent j = if j = i then f i (b.extent i) else b.extent j)
    {is : List NodeId} (hnodup : is.Nodup) (his : ∀ i ∈ is, i < a.size) (j : NodeId) :
    (is.foldl step a).extent j = if j ∈ is then f j (a.extent j) else a.extent j := by
  induction is generalizing a with
  | nil => simp
  | cons i is ih =>
      obtain ⟨hi, hnodup⟩ := List.nodup_cons.mp hnodup
      obtain ⟨hlt, hrest⟩ := List.forall_mem_cons.mp his
      rw [List.foldl_cons, ih hnodup (by simpa [hsize] using hrest), hstep a i j hlt]
      by_cases hji : j = i
      · subst hji
        simp [hi]
      · simp [hji]

theorem extent_shift (hi : i < a.size) (d : Int) (j : NodeId) :
    (a.shift i d).extent j = if j = i then (a.extent i).moved d else a.extent j := by
  by_cases hji : j = i
  · subst hji
    simp [extent, shift, node_update_self hi, Node.extent, Extent.moved]
  · simp [extent, shift, node_update_of_ne hji, hji]

theorem extent_grow (hi : i < a.size) (hkind : (a.node i).kind? ≠ some .contextualizer) (d : Int)
    (j : NodeId) : (a.grow i d).extent j = if j = i then (a.extent i).grown d else a.extent j := by
  by_cases hji : j = i
  · subst hji
    have hkind' : (a.node j).cls.kind? ≠ some .contextualizer := hkind
    simp [extent, grow, node_update_self hi, Node.extent, Extent.grown, hkind']
  · simp [extent, grow, node_update_of_ne hji, hji]

/-- What becomes of every node `j` when room is opened in a tree by `shiftFrom`. -/
theorem extent_shiftFrom {root : NodeId} (hnodup : (a.walk root).Nodup)
    (hlt : ∀ i ∈ a.walk root, i < a.size) (place d : Int) (enclosing : List NodeId) (j : NodeId) :
    (a.shiftFrom root place d enclosing).extent j =
      if j ∈ a.walk root then (a.extent j).resized (enclosing.contains j) place d
      else a.extent j := by
  by_cases hd : d = 0
  · simp [shiftFrom, hd]
  · rw [shiftFrom, if_neg hd]
    refine extent_foldl (f := fun i e => e.resized (enclosing.contains i) place d)
      (fun b i => ?_) (fun b i j hi => ?_) hnodup hlt j
    · simp only
      split
      · split <;> simp [grow]
      · split <;> simp [shift]
    · simp only
      by_cases henclosing : enclosing.contains i = true
      · rw [if_pos henclosing, Extent.resized, if_pos henclosing]
        by_cases hkind : (b.node i).kind? = some .contextualizer
        · have hkind' : (b.extent i).cls.kind? = some .contextualizer := hkind
          rw [if_pos hkind, Extent.grown, if_pos hkind']
          by_cases hji : j = i <;> simp [hji]
        · rw [if_neg hkind, extent_grow hi hkind]
      · rw [if_neg henclosing, Extent.resized, if_neg henclosing]
        have hstart : (b.extent i).start = (b.node i).start := rfl
        rw [hstart]
        by_cases hplace : place ≤ (b.node i).start
        · rw [if_pos hplace, if_pos hplace, extent_shift hi]
        · rw [if_neg hplace, if_neg hplace]
          by_cases hji : j = i <;> simp [hji]

/-- What becomes of every node `j` when a tree moves to its place in another one by `moveTo`. -/
theorem extent_moveTo (anchor : NodeId) (place : Int)
    (hnodup : (a.walk (a.root anchor)).Nodup) (hlt : ∀ j ∈ a.walk (a.root anchor), j < a.size)
    (hnodup' : (a.walk i).Nodup) (hlt' : ∀ j ∈ a.walk i, j < a.size)
    (hi : i ∉ a.walk (a.root anchor)) (hdisjoint : ∀ j ∈ a.walk i, j ∉ a.walk (a.root anchor))
    (j : NodeId) :
    (a.moveTo i place anchor).extent j =
      if j ∈ a.walk i then (a.extent j).moved (place - (a.node i).start)
      else if j ∈ a.walk (a.root anchor) then
        (a.extent j).resized ((a.ancestors anchor).contains j) place
          (a.outerEnd i - (a.node i).start)
      else a.extent j := by
  have hopened := extent_shiftFrom hnodup hlt place (a.outerEnd i - (a.node i).start)
    (a.ancestors anchor)
  have halike := shiftFrom_alike a (a.root anchor) place (a.outerEnd i - (a.node i).start)
    (a.ancestors anchor)
  simp only [moveTo]
  generalize a.shiftFrom (a.root anchor) place (a.outerEnd i - (a.node i).start)
    (a.ancestors anchor) = b at hopened halike
  -- the node itself stays where it is until room is made
  have hstart : (b.node i).start = (a.node i).start := by
    have hself := hopened i
    rw [if_neg hi] at hself
    exact congrArg Extent.start hself
  rw [hstart, halike.walk]
  rw [extent_foldl (f := fun _ e => e.moved (place - (a.node i).start)) (fun b i => by simp [shift])
    (fun b i j hi => extent_shift hi _ j) hnodup' (by simpa [halike.size] using hlt')]
  by_cases hj : j ∈ a.walk i
  · rw [if_pos hj, if_pos hj, hopened, if_neg (hdisjoint j hj)]
  · rw [if_neg hj, if_neg hj, hopened]

/-! ### Tiles -/

/-- The nodes `is` stand one behind the other from `s` to `e`. -/
def Tiles (a : Arena) (s : Int) (is : List NodeId) (e : Int) : Prop :=
  Abut (fun i => (a.node i).start) (fun i => (a.node i).stop) s is e

instance (a : Arena) (s : Int) (is : List NodeId) (e : Int) : Decidable (a.Tiles s is e) :=
  inferInstanceAs (Decidable (Abut _ _ s is e))

theorem tiles_cons {s e : Int} {is : List NodeId} :
    a.Tiles s (i :: is) e ↔ (a.node i).start = s ∧ a.Tiles (a.node i).stop is e := Iff.rfl

/-- Nodes that are `Tiles` of a range that is not empty stand nowhere else. -/
theorem Tiles.unique {s e s' e' : Int} {is : List NodeId} (h : a.Tiles s is e) (hlt : s < e)
    (h' : a.Tiles s' is e') : s = s' ∧ e = e' := by
  refine Abut.unique h h' ?_
  rintro rfl
  have hse : s = e := h
  omega

/-- The tokens among the nodes `is`. -/
def tokensIn (a : Arena) (is : List NodeId) : List NodeId := is.filter fun j => (a.node j).isToken

/-- No node among `is` is empty. -/
def Wide (a : Arena) (is : List NodeId) : Prop := ∀ i ∈ is, (a.node i).start < (a.node i).stop

instance (a : Arena) (is : List NodeId) : Decidable (a.Wide is) :=
  inferInstanceAs (Decidable (∀ i ∈ is, _))

@[simp] theorem tokensIn_append (a : Arena) (is js : List NodeId) :
    a.tokensIn (is ++ js) = a.tokensIn is ++ a.tokensIn js := List.filter_append ..

theorem tokensIn_cons_of_token {is : List NodeId} (h : (a.node i).isToken = true) :
    a.tokensIn (i :: is) = i :: a.tokensIn is := List.filter_cons_of_pos h

theorem tokensIn_cons_of_branch {is : List NodeId} (h : (a.node i).kind? = some .branch) :
    a.tokensIn (i :: is) = a.tokensIn is := List.filter_cons_of_neg (by simp [Node.isToken, h])

theorem isToken_of_ne_branch (h : (a.node i).kind? ≠ some .branch) : (a.node i).isToken = true := by
  simpa [Node.isToken] using h

/-- In every branch of a tree the tokens are `Tiles` of the range of the branch. -/
inductive Spans (a : Arena) : Outline → Prop
  /-- The node `i`, with what holds of it when it is a branch. -/
  | node {i : NodeId} {ks : List Outline}
      (hbranch : (a.node i).kind? = some .branch →
        a.Tiles (a.node i).start (a.tokensIn (idsList ks)) (a.node i).stop)
      (hks : ∀ k ∈ ks, Spans a k) : Spans a (.node i ks)

/-- A tree `Spans` when each branch under its root does. -/
theorem spans_iff {t : Outline} (hfits : Fits a t) (hnodup : t.ids.Nodup) :
    Spans a t ↔ ∀ i ∈ t.ids, (a.node i).kind? = some .branch →
      a.Tiles (a.node i).start (a.tokens i) (a.node i).stop := by
  induction hfits with
  | @node i ks hi hch hkind hleaf hks ih =>
      have htokens : (a.node i).kind? = some .branch → a.tokens i = a.tokensIn (idsList ks) := by
        intro hbranch
        have hwalk := (Fits.node hi hch hkind hleaf hks).walk_eq hnodup
        rw [Outline.root, ids] at hwalk
        rw [tokens, hwalk]
        exact tokensIn_cons_of_branch hbranch
      have hnodup' : ∀ k ∈ ks, k.ids.Nodup := by
        intro k hk
        rw [ids] at hnodup
        exact (List.nodup_cons.mp hnodup).2.sublist (ids_sublist hk)
      constructor
      · rintro ⟨hbranch, hspans⟩ j hj hjkind
        rw [ids, List.mem_cons] at hj
        rcases hj with rfl | hj
        · rw [htokens hjkind]
          exact hbranch hjkind
        · obtain ⟨k, hk, hj⟩ := mem_idsList.mp hj
          exact (ih k hk (hnodup' k hk)).mp (hspans k hk) j hj hjkind
      · intro h
        refine .node (fun hbranch => ?_) fun k hk => ?_
        · rw [← htokens hbranch]
          exact h i (by simp [ids]) hbranch
        · exact (ih k hk (hnodup' k hk)).mpr fun j hj => h j (mem_ids_of_kid hk i hj)

/-! ### Where the nodes of a tree stand -/

/-- The row of the trees `ks`, each of which keeps to its part of it. -/
theorem bounds_list {ks : List Outline} (hks : ∀ k ∈ ks, ∀ s e, a.Tiles s (a.tokensIn k.ids) e →
      s < e ∧ ∀ j ∈ k.ids, s ≤ (a.node j).start ∧ (a.node j).start < e) {s e : Int}
    (h : a.Tiles s (a.tokensIn (idsList ks)) e) :
    s ≤ e ∧ ∀ j ∈ idsList ks, s ≤ (a.node j).start ∧ (a.node j).start < e := by
  induction ks generalizing s with
  | nil =>
      have hse : s = e := h
      simp [idsList, hse]
  | cons k ks ih =>
      obtain ⟨hk, hrest⟩ := List.forall_mem_cons.mp hks
      rw [idsList, tokensIn_append] at h
      obtain ⟨m, hfirst, hsecond⟩ := h.split
      obtain ⟨hsm, hin⟩ := hk s m hfirst
      obtain ⟨hme, hin'⟩ := ih hrest hsecond
      refine ⟨by omega, fun j hj => ?_⟩
      rw [idsList, List.mem_append] at hj
      rcases hj with hj | hj
      · have hbounds := hin j hj
        omega
      · have hbounds := hin' j hj
        omega

/-- All nodes of a tree that `Spans` start inside of what its tokens cover, and its root where they
do. -/
theorem Spans.bounds {t : Outline} (h : Spans a t) (hwide : Wide a t.ids) {s e : Int}
    (ht : a.Tiles s (a.tokensIn t.ids) e) :
    (a.node t.root).start = s ∧ s < e ∧
      ∀ j ∈ t.ids, s ≤ (a.node j).start ∧ (a.node j).start < e := by
  induction h generalizing s e with
  | @node i ks hbranch _ ih =>
      have hi : (a.node i).start < (a.node i).stop := hwide i (by simp [ids])
      have hkids : ∀ {s e}, a.Tiles s (a.tokensIn (idsList ks)) e →
          s ≤ e ∧ ∀ j ∈ idsList ks, s ≤ (a.node j).start ∧ (a.node j).start < e := by
        intro s e hrow
        refine bounds_list (fun k hk s e hk' => ?_) hrow
        exact (ih k hk (fun j hj => hwide j (mem_ids_of_kid hk i hj)) hk').2
      rw [ids] at ht
      rw [Outline.root, ids]
      by_cases hkind : (a.node i).kind? = some .branch
      · -- the tokens stand in one place, which is the range of the branch
        rw [tokensIn_cons_of_branch hkind] at ht
        obtain ⟨hs, he⟩ := (hbranch hkind).unique hi ht
        refine ⟨hs, by omega, List.forall_mem_cons.mpr ⟨by omega, (hkids ht).2⟩⟩
      · rw [tokensIn_cons_of_token (isToken_of_ne_branch hkind), tiles_cons] at ht
        obtain ⟨hs, hrow⟩ := ht
        obtain ⟨hle, hin⟩ := hkids hrow
        refine ⟨hs, by omega, List.forall_mem_cons.mpr ⟨by omega, fun j hj => ?_⟩⟩
        have hbounds := hin j hj
        omega

/-- All nodes of a row of trees `ks` that span start inside of what their tokens cover. -/
theorem spans_bounds {ks : List Outline} (hks : ∀ k ∈ ks, Spans a k) (hwide : Wide a (idsList ks))
    {s e : Int} (h : a.Tiles s (a.tokensIn (idsList ks)) e) :
    s ≤ e ∧ ∀ j ∈ idsList ks, s ≤ (a.node j).start ∧ (a.node j).start < e := by
  refine bounds_list (fun k hk s e hk' => ?_) h
  exact ((hks k hk).bounds (fun j hj => hwide j ((ids_sublist hk).subset hj)) hk').2

/-- What a tree that `Spans` covers ends with its last token. -/
theorem Spans.outerEnd_eq {t : Outline} (h : Spans a t) (hfits : Fits a t) (hnodup : t.ids.Nodup)
    (hwide : Wide a t.ids) {s e : Int} (ht : a.Tiles s (a.tokensIn t.ids) e) :
    a.outerEnd t.root = e := by
  have hwithin : ∀ depth, t.ids.length ≤ depth → a.outerEndWithin depth t.root = e := by
    clear hnodup
    induction h generalizing s e with
    | @node i ks hbranch _ ih =>
        cases hfits with
        | node _ hch hsome hleaf hks =>
            intro depth hdepth
            rw [ids, List.length_cons] at hdepth
            rw [ids] at ht
            obtain ⟨depth, rfl⟩ : ∃ n, depth = n + 1 := ⟨depth - 1, by omega⟩
            cases hkind : (a.node i).kind? with
            | none => exact absurd hkind hsome
            | some kind =>
                simp only [Outline.root, outerEndWithin, hch, hkind]
                cases kind with
                | branch =>
                    rw [tokensIn_cons_of_branch hkind] at ht
                    exact ((hbranch hkind).unique (hwide i (by simp [ids])) ht).2
                | leaf =>
                    obtain rfl := hleaf hkind
                    rw [tokensIn_cons_of_token (isToken_of_ne_branch (by simp [hkind]))] at ht
                    exact ht.2
                | contextualizer =>
                    rw [tokensIn_cons_of_token (isToken_of_ne_branch (by simp [hkind]))] at ht
                    rcases List.eq_nil_or_concat' ks with rfl | ⟨ls, k, rfl⟩
                    · exact ht.2
                    · -- the last child ends where the tokens end
                      rw [idsList_append, tokensIn_append] at ht
                      obtain ⟨m, -, hlast⟩ := Abut.split ht.2
                      rw [idsList, idsList, List.append_nil] at hlast
                      have hk : k ∈ ls ++ [k] := by simp
                      have hlength := length_ids_le hk
                      simp only [List.map_append, List.map_cons, List.map_nil, List.getLast?_concat]
                      exact ih k hk (hks k hk) (fun j hj => hwide j (mem_ids_of_kid hk i hj)) hlast
                        depth (by omega)
  exact hwithin _ (hfits.length_le_size hnodup)

end Arena

end RakuTree
