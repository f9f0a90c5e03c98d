import RakuTree.Proofs.Filled.Resume
import RakuTree.Proofs.Arena.Ranges

/-!
# RakuTree.Proofs.Filled.Certified

What a strict filling certifies.

A strict filling looks at one child list at a time: neighbours have to come in order, and a branch
has to begin and end with its outermost children. Ranges may be anything before. If all of this
goes through, the tokens of the tree tile the range of its root, and the tokens of every branch
tile the range of that branch (`strict_fill_tiles`).

Two inductions lead there. From the bottom up, no node ends before it begins (`ordered`), which
is what makes a row of children run forward. Behind the end of the source a gap is filled too
thinly without complaint, so from the top down every node has to end inside the source
(`Hangs.outerEnd_le`); then rows abut, and tokens tile (`Hangs.tiles`).
-/

namespace RakuTree

/-- Rows `ks` and `ls` whose items start and end at the same places abut alike. -/
theorem Abut.of_forall₂ {α β : Type} {startOf endOf : α → Int} {startOf' endOf' : β → Int}
    {x y : Int} {ks : List α} {ls : List β}
    (h : List.Forall₂ (fun k l => startOf k = startOf' l ∧ endOf k = endOf' l) ks ls)
    (hls : Abut startOf' endOf' x ls y) : Abut startOf endOf x ks y := by
  induction h generalizing x with
  | nil => exact hls
  | cons hkl _ ih =>
      obtain ⟨hstart, hend⟩ := hkl
      refine ⟨hstart.trans hls.1, ?_⟩
      rw [hend]
      exact ih hls.2

namespace GapSource

variable {α : Type} {g : GapSource} {I : Items α} {k : α} {ks : List α}

/-- If a strict filling can read all gaps of a row from `x` to `y`, the row runs forward. Within the
source it abuts with its layout, from one side to the other. -/
theorem withLayout_abut (hg : g.strict = true) {x y : Int}
    (hord : ∀ k ∈ ks, I.startOf k ≤ I.endOf k)
    (hread : ∀ p ∈ I.gaps (some x) ks (some y), (g.read p.1 p.2).fault? = none) :
    x ≤ y ∧ (y ≤ g.src.length →
      Abut I.startOf I.endOf x (g.withLayout I (some x) ks (some y)) y) := by
  have hgap : ∀ {u v : Int}, (g.read u v).fault? = none → v ≤ g.src.length →
      Abut I.startOf I.endOf u ((g.layout u v).map I.ofLeaf) v := by
    intro u v hnone hv
    refine Abut.map ?_
    have hstart : I.startOf ∘ I.ofLeaf = (·.span.start) := funext I.startOf_ofLeaf
    have hend : I.endOf ∘ I.ofLeaf = (·.span.stop) := funext I.endOf_ofLeaf
    rw [hstart, hend, ← read_tokens hnone]
    exact (read_abut hg hnone).2 hv
  induction ks generalizing x with
  | nil =>
      have hnone := hread (x, y) List.mem_cons_self
      refine ⟨(read_abut hg hnone).1, fun hy => ?_⟩
      rw [withLayout, layoutBetween_some]
      exact hgap hnone hy
  | cons k ks ih =>
      obtain ⟨hk, hks⟩ := List.forall_mem_cons.mp hord
      rw [Items.gaps, List.forall_mem_append] at hread
      have hnone := hread.1 (x, I.startOf k) List.mem_cons_self
      have hle := (read_abut hg hnone).1
      obtain ⟨hle', hrest⟩ := ih hks hread.2
      refine ⟨by omega, fun hy => ?_⟩
      rw [withLayout, layoutBetween_some]
      exact (hgap hnone (by omega)).append ⟨rfl, hrest hy⟩

/-! A row with nothing on its sides is one between its own ends. -/

theorem withLayout_open (g : GapSource) (I : Items α) (k : α) (ks : List α) :
    g.withLayout I none (k :: ks) none = g.withLayout I (some (I.startOf k)) (k :: ks)
      (some (I.endOf ((k :: ks).getLast (by simp)))) := by
  rw [withLayout_behind, layout_of_le (Int.le_refl _), List.map_nil, List.append_nil]
  simp [withLayout, layout_of_le]

theorem gaps_open (I : Items α) (k : α) (ks : List α) :
    I.gaps (some (I.startOf k)) (k :: ks) (some (I.endOf ((k :: ks).getLast (by simp)))) =
      (I.startOf k, I.startOf k) :: (I.gaps none (k :: ks) none ++
        [(I.endOf ((k :: ks).getLast (by simp)), I.endOf ((k :: ks).getLast (by simp)))]) := by
  rw [gaps_behind]
  simp [Items.gaps, between]

end GapSource

namespace Arena

open Outline
open List (Forall₂)

variable {g : GapSource} {a b : Arena} {i j r : NodeId} {t u : Outline}

/-- The range of node `i` runs forward. A branch that covers text has children, and the children
of a contextualizer start where its sigil ends. -/
structure Snug (a : Arena) (i : NodeId) : Prop where
  /-- The node `i` does not end before it starts. -/
  ordered : (a.node i).start ≤ (a.node i).stop
  /-- If `i` is a branch without children, it covers nothing. -/
  empty : (a.node i).kind? = some .branch → (a.node i).children = [] →
    (a.node i).start = (a.node i).stop
  /-- If `i` is a contextualizer, its body starts behind its sigil. -/
  body : (a.node i).kind? = some .contextualizer → ∀ k ∈ (a.node i).children.head?,
    (a.node k).start = (a.node i).stop

instance (a : Arena) (i : NodeId) : Decidable (a.Snug i) :=
  decidable_of_iff ((a.node i).start ≤ (a.node i).stop ∧
    ((a.node i).kind? = some .branch → (a.node i).children = [] →
      (a.node i).start = (a.node i).stop) ∧
    ((a.node i).kind? = some .contextualizer → ∀ k ∈ (a.node i).children.head?,
      (a.node k).start = (a.node i).stop))
    ⟨fun h => ⟨h.1, h.2.1, h.2.2⟩, fun h => ⟨h.ordered, h.empty, h.body⟩⟩

/-- Where the children of node `i` begin. A branch begins with them, a contextualizer with its
sigil. -/
def bodyStart (a : Arena) (i : NodeId) : Int :=
  if (a.node i).kind? = some .branch then (a.node i).start else (a.node i).stop

theorem Fits.kind?_of_children (h : Fits a t) (hj : j ∈ t.ids) (hne : (a.node j).children ≠ []) :
    (a.node j).kind? = some .branch ∨ (a.node j).kind? = some .contextualizer := by
  induction h with
  | @node i ks _ hch hkind hleaf _ ih =>
      rw [ids, List.mem_cons] at hj
      rcases hj with rfl | hj
      · cases hj : (a.node j).kind? with
        | none => exact absurd hj hkind
        | some kind =>
            cases kind with
            | branch => exact .inl rfl
            | contextualizer => exact .inr rfl
            | leaf =>
                rw [hleaf hj, List.map_nil] at hch
                exact absurd hch hne
      · obtain ⟨k, hk, hj⟩ := mem_idsList.mp hj
        exact ih k hk hj

/-- A node `j` that is no contextualizer with children ends where its range ends. -/
theorem Hangs.outerEnd_eq_stop (h : Hangs a t) (hnodup : t.ids.Nodup) (hj : j ∈ t.ids)
    (hend : (a.node j).kind? ≠ some .contextualizer ∨ (a.node j).children = []) :
    a.outerEnd j = (a.node j).stop :=
  (h.endsAt hnodup hj).unique (.here hend)

/-- A contextualizer `j` ends where its last child ends. -/
theorem Hangs.outerEnd_eq_last (h : Hangs a t) (hnodup : t.ids.Nodup) (hj : j ∈ t.ids)
    (hkind : (a.node j).kind? = some .contextualizer) {k : NodeId}
    (hlast : (a.node j).children.getLast? = some k) : a.outerEnd j = a.outerEnd k :=
  (h.endsAt hnodup hj).unique (.last hkind hlast
    (h.endsAt hnodup (h.child_mem_ids hj (List.mem_of_getLast? hlast))))

/-! ### Rows -/

section Rows

variable (hg : g.strict = true) (hfits : Fits a t) (hnodup : t.ids.Nodup)
  (hsnug : ∀ j ∈ t.ids, a.Snug j) (hcan : a.CanFill g t.ids)

include hg hfits hnodup hsnug hcan

/-- A child list whose nodes run forward runs forward, from `bodyStart` on. Within the source it
abuts with its layout. -/
theorem filledRow_abut (hj : j ∈ t.ids) (hne : (a.node j).children ≠ [])
    (hord : ∀ k ∈ (a.node j).children, (a.node k).start ≤ a.outerEnd k) :
    a.bodyStart j ≤ a.outerEnd j ∧ (a.outerEnd j ≤ g.src.length →
      Abut a.items.startOf a.items.endOf (a.bodyStart j) (a.filledRow g j) (a.outerEnd j)) := by
  have hread := hcan j hj
  have hord' : ∀ s ∈ (a.node j).children.map Slot.old, a.items.startOf s ≤ a.items.endOf s := by
    intro s hs
    obtain ⟨k, hk, rfl⟩ := List.mem_map.mp hs
    exact hord k hk
  rw [gapsAt, if_neg hne] at hread
  rw [filledRow, if_neg hne]
  rcases hfits.kind?_of_children hj hne with hkind | hkind
  · have houter : a.outer j = some ((a.node j).start, (a.node j).stop) := if_pos hkind
    rw [bodyStart, if_pos hkind, hfits.hangs.outerEnd_eq_stop hnodup hj (.inl (by simp [hkind]))]
    rw [houter] at hread ⊢
    exact GapSource.withLayout_abut hg hord' hread
  · have houter : a.outer j = none := if_neg (by simp [hkind])
    have hbody := (hsnug j hj).body hkind
    have hlast := fun k => hfits.hangs.outerEnd_eq_last hnodup hj hkind (k := k)
    rw [bodyStart, if_neg (by simp [hkind])]
    rw [houter] at hread ⊢
    cases hch : (a.node j).children with
    | nil => exact absurd hch hne
    | cons k ks =>
        rw [hch] at hread hord' hbody hlast
        -- where the sigil ends and where the last child ends are the ends of the row
        have hstart : a.items.startOf (.old k) = (a.node j).stop := hbody k rfl
        have hend : a.items.endOf ((Slot.old k :: ks.map Slot.old).getLast (by simp)) =
            a.outerEnd j := by
          rw [hlast _ (List.getLast?_eq_some_getLast (List.cons_ne_nil k ks))]
          simp only [← List.map_cons, List.getLast_map]
          rfl
        have hopen := GapSource.withLayout_abut (I := a.items) (x := (a.node j).stop)
          (y := a.outerEnd j) hg hord'
        rw [List.map_cons, ← hstart, ← hend, GapSource.gaps_open] at hopen
        rw [List.map_cons, ← hstart, ← hend, Option.map_none, Option.map_none,
          GapSource.withLayout_open]
        refine hopen (List.forall_mem_cons.mpr ⟨g.read_self _, ?_⟩)
        exact List.forall_mem_append.mpr ⟨hread, List.forall_mem_singleton.mpr (g.read_self _)⟩

/-- The node `j` does not end before it starts, nor do its children. -/
theorem ordered (hj : j ∈ t.ids) : (a.node j).start ≤ a.outerEnd j := by
  -- by induction on the tree below the node: the row of a contextualizer takes its children
  obtain ⟨u, rfl, hu, hsub⟩ := hfits.hangs.exists_part hj
  have hsubset : u.ids ⊆ t.ids := hsub.subset
  clear hj hsub
  induction hu with
  | @node i ks hi hch _ ih =>
      have hmem : i ∈ t.ids := hsubset (root_mem_ids _)
      have hle := (hsnug i hmem).ordered
      rw [Outline.root]
      by_cases hend : (a.node i).kind? ≠ some .contextualizer ∨ (a.node i).children = []
      · rwa [hfits.hangs.outerEnd_eq_stop hnodup hmem hend]
      · obtain ⟨hkind, hne⟩ := not_or.mp hend
        have hkind := not_not.mp hkind
        have hkids : ∀ k ∈ (a.node i).children, (a.node k).start ≤ a.outerEnd k := by
          intro k hk
          rw [hch] at hk
          obtain ⟨l, hl, rfl⟩ := List.mem_map.mp hk
          exact ih l hl fun m hm => hsubset (mem_ids_of_kid hl i hm)
        have hrow := (filledRow_abut hg hfits hnodup hsnug hcan hmem hne hkids).1
        rw [bodyStart, if_neg (by simp [hkind])] at hrow
        omega

end Rows

/-! ### Trees that are filled -/

/-- What a strict filling leaves of node `i`, with a source of length `n`. -/
structure Sealed (a : Arena) (n : Int) (i : NodeId) : Prop where
  /-- The node `i` does not end before it starts. -/
  ordered : (a.node i).start ≤ a.outerEnd i
  /-- The children of `i` abut, if it ends within the first `n` characters. -/
  row : (a.node i).children ≠ [] → a.outerEnd i ≤ n →
    Abut (fun k => (a.node k).start) a.outerEnd (a.bodyStart i) (a.node i).children (a.outerEnd i)
  /-- If `i` is a branch without children, it covers nothing. -/
  empty : (a.node i).kind? = some .branch → (a.node i).children = [] →
    (a.node i).start = (a.node i).stop

section Sealed

variable {n : Int} (hangs : Hangs a t) (hsealed : ∀ j ∈ t.ids, a.Sealed n j)
  (hroot : a.outerEnd t.root ≤ n)

include hangs hsealed hroot

/-- A tree whose root ends within the first `n` characters does not leave them anywhere. -/
theorem Hangs.outerEnd_le (hj : j ∈ t.ids) : a.outerEnd j ≤ n := by
  induction hangs with
  | @node i ks _ hch _ ih =>
      rw [ids, List.mem_cons] at hj
      rcases hj with rfl | hj
      · exact hroot
      · obtain ⟨k, hk, hj⟩ := mem_idsList.mp hj
        have hchild : k.root ∈ (a.node i).children := by
          rw [hch]
          exact List.mem_map_of_mem hk
        have hi := hsealed i (root_mem_ids _)
        have habut := hi.row (List.ne_nil_of_mem hchild) hroot
        -- children run forward, so none ends behind the last
        have hend : ∀ m ∈ (a.node i).children, a.outerEnd m ≤ a.outerEnd i := by
          refine (habut.le_end fun m hm => ?_).2
          rw [hch] at hm
          obtain ⟨l, hl, rfl⟩ := List.mem_map.mp hm
          exact (hsealed l.root (mem_ids_of_kid hl i (root_mem_ids l))).ordered
        exact ih k hk (fun m hm => hsealed m (mem_ids_of_kid hk i hm))
          (Int.le_trans (hend k.root hchild) hroot) hj

end Sealed

/-- Trees `ks` in a row that tile what they cover tile the row. -/
theorem tiles_idsList {ks : List Outline} {x y : Int}
    (hrow : Abut (fun k => (a.node k).start) a.outerEnd x (ks.map Outline.root) y)
    (hks : ∀ k ∈ ks, a.Tiles (a.node k.root).start (a.tokensIn k.ids) (a.outerEnd k.root)) :
    a.Tiles x (a.tokensIn (idsList ks)) y := by
  induction ks generalizing x with
  | nil => exact hrow
  | cons k ks ih =>
      obtain ⟨hk, hrest⟩ := List.forall_mem_cons.mp hks
      obtain ⟨rfl, hrow⟩ := hrow
      rw [idsList, tokensIn_append]
      exact Abut.append hk (ih hrow hrest)

/-- The tokens of a tree that is `Sealed` and does not leave the source tile what it covers. -/
theorem Hangs.tiles {n : Int} (h : Hangs a t) (hnodup : t.ids.Nodup)
    (hsealed : ∀ j ∈ t.ids, a.Sealed n j) (hle : ∀ j ∈ t.ids, a.outerEnd j ≤ n) :
    a.Tiles (a.node t.root).start (a.tokensIn t.ids) (a.outerEnd t.root) := by
  induction h with
  | @node i ks hi hch hks ih =>
      have hself : i ∈ (Outline.node i ks).ids := root_mem_ids _
      have hend := (Hangs.node hi hch hks).outerEnd_eq_stop hnodup hself
      have hkids : ∀ k ∈ ks, a.Tiles (a.node k.root).start (a.tokensIn k.ids)
          (a.outerEnd k.root) := by
        intro k hk
        rw [ids, List.nodup_cons] at hnodup
        exact ih k hk (hnodup.2.sublist (ids_sublist hk))
          (fun j hj => hsealed j (mem_ids_of_kid hk i hj))
          fun j hj => hle j (mem_ids_of_kid hk i hj)
      -- the children tile what is left of the node when its own token is taken off
      have hbody : a.Tiles (a.bodyStart i) (a.tokensIn (idsList ks)) (a.outerEnd i) := by
        by_cases hnil : (a.node i).children = []
        · obtain rfl := List.map_eq_nil_iff.mp (hch.symm.trans hnil)
          have hempty := (hsealed i hself).empty
          rw [hend (.inr hnil)]
          change a.bodyStart i = (a.node i).stop
          rw [bodyStart]
          split
          · rename_i hkind
            exact hempty hkind hnil
          · rfl
        · refine tiles_idsList ?_ hkids
          rw [← hch]
          exact (hsealed i hself).row hnil (hle i hself)
      rw [Outline.root, ids]
      by_cases hkind : (a.node i).kind? = some .branch
      · rwa [tokensIn_cons_of_branch hkind,
          ← show a.bodyStart i = (a.node i).start from if_pos hkind]
      · rw [tokensIn_cons_of_token (isToken_of_ne_branch hkind)]
        refine ⟨rfl, ?_⟩
        rwa [show a.bodyStart i = (a.node i).stop from if_neg hkind] at hbody

/-- In a tree that is `Sealed` and whose root ends within the source, the tokens of every branch
tile the range of the branch. -/
theorem Hangs.branch_tiles {n : Int} (h : Hangs a t) (hnodup : t.ids.Nodup)
    (hsealed : ∀ j ∈ t.ids, a.Sealed n j) (hroot : a.outerEnd t.root ≤ n) (hj : j ∈ t.ids)
    (hkind : (a.node j).kind? = some .branch) :
    a.Tiles (a.node j).start (a.tokens j) (a.node j).stop := by
  have hend := h.outerEnd_eq_stop hnodup hj (.inl (by simp [hkind]))
  obtain ⟨u, rfl, hu, hsub⟩ := h.exists_part hj
  have htiles := hu.tiles (hnodup.sublist hsub) (fun k hk => hsealed k (hsub.subset hk))
    fun k hk => h.outerEnd_le hsealed hroot (hsub.subset hk)
  rwa [hend, ← hu.walk_eq (hnodup.sublist hsub)] at htiles

namespace Grown

variable {done : Prop} (h : Grown g a done a b [t] [u]) (hfits : Fits a t) (hnodup : t.ids.Nodup)

include h hfits hnodup

theorem nodup_single : u.ids.Nodup := by
  have hus := h.nodup (untouched_self hfits.hangs hnodup)
  rwa [idsList_singleton] at hus

/-- Child lists of `b` abut where the rows of `a` they came from do. -/
theorem children_abut (hdone : done) (hj : j ∈ idsList [t]) {x y : Int}
    (hrow : Abut a.items.startOf a.items.endOf x (a.filledRow g j) y) :
    Abut (fun k => (b.node k).start) b.outerEnd x (b.node j).children y := by
  obtain ⟨slots, hreads, hpartly, hfull⟩ := h.rows j hj
  rw [← hfull hdone] at hrow
  have hanswers := h.row_answers (untouched_self hfits.hangs hnodup) hj hreads hpartly
  exact hrow.of_forall₂ (List.forall₂_map_left_iff.mp (hanswers.imp fun _ _ hxy => hxy.2))

/-- All nodes of a tree are `Sealed` by a strict filling that goes through. -/
theorem all_sealed (hdone : done) (hg : g.strict = true) (hsnug : ∀ j ∈ t.ids, a.Snug j)
    (hcan : a.CanFill g t.ids) (hj : j ∈ u.ids) : b.Sealed g.src.length j := by
  rw [← idsList_singleton, h.mem_ids] at hj
  rcases hj with hold | ⟨hge, hlt⟩
  · have hjt : j ∈ t.ids := by rwa [idsList_singleton] at hold
    have hord := fun k hk => ordered (j := k) hg hfits hnodup hsnug hcan hk
    have hstart := h.start_eq hold
    have hend := h.outerEnd_eq (untouched_self hfits.hangs hnodup) hold
    have hnil := h.children_eq_nil_iff hold
    refine ⟨?_, fun hne hlen => ?_, ?_⟩
    · rw [hstart, hend]
      exact hord j hjt
    · have hkids : ∀ k ∈ (a.node j).children, (a.node k).start ≤ a.outerEnd k :=
        fun k hk => hord k (hfits.child_mem_ids hjt hk)
      have hbody : b.bodyStart j = a.bodyStart j := by
        rw [bodyStart, bodyStart, h.kind?_eq hold, hstart, h.stop_eq hold]
      rw [hend] at hlen ⊢
      rw [hbody]
      exact h.children_abut hfits hnodup hdone hold
        ((filledRow_abut hg hfits hnodup hsnug hcan hjt (mt hnil.mpr hne) hkids).2 hlen)
    · rw [h.kind?_eq hold, hnil, hstart, h.stop_eq hold]
      exact (hsnug j hjt).empty
  · -- new nodes are tokens
    obtain ⟨l, -, hnode⟩ := h.fresh j hge hlt
    have hslot : Reads a.size b j (.new l) := ⟨hge, hlt, hnode⟩
    obtain ⟨hstart, hend⟩ := hslot.measure_new
    refine ⟨?_, fun hne => ?_, fun hkind => ?_⟩
    · rw [hstart, hend]
      exact l.span.ordered
    · exact absurd (h.children_fresh hge hlt) hne
    · rw [hnode] at hkind
      cases hkind

end Grown

/-- **A strict filling certifies its tree.** Take any tree in a table whose root is a branch that
ends within the source. The ranges in it run forward, a branch without children covers nothing
and a contextualizer is followed by its children; apart from that ranges may overlap, come in any
order or stick out of their parent. If a strict filling goes through, the tokens of the filled
tree tile the range of the root without gap or overlap, and the tokens of every branch tile
exactly the range of that branch. -/
theorem strict_fill_tiles {src : Text} {docs : HereDocs} {log : List Event} (htree : a.IsTree r)
    (hroot : (a.node r).kind? = some .branch) (hend : (a.node r).stop ≤ src.length)
    (hsnug : ∀ j ∈ a.walk r, a.Snug j) (hfill : a.fill ⟨src, docs, true⟩ r = ⟨b, log, none⟩) :
    b.Tiles (a.node r).start (b.tokens r) (a.node r).stop ∧
      ∀ j ∈ b.walk r, (b.node j).kind? = some .branch →
        b.Tiles (b.node j).start (b.tokens j) (b.node j).stop := by
  obtain ⟨t, rfl, hfits, hnodup⟩ := htree
  rw [hfits.walk_eq hnodup] at hsnug
  obtain ⟨⟨u, hu, hgrown⟩, hiff⟩ := fill_outcome hfits.hangs hnodup ⟨src, docs, true⟩
  rw [hfill] at hgrown hiff
  have hangs : Hangs b u := hgrown.hangs u List.mem_cons_self
  have hnodup' : u.ids.Nodup := hgrown.nodup_single hfits hnodup
  have hsealed : ∀ j ∈ u.ids, b.Sealed src.length j := fun j hj =>
    hgrown.all_sealed hfits hnodup rfl rfl hsnug (hiff.mp rfl) hj
  -- the root is the branch that it was
  have hmem : t.root ∈ idsList [t] := by
    rw [idsList_singleton]
    exact root_mem_ids t
  have hkind : (b.node u.root).kind? = some .branch := by
    rw [hu]
    exact (hgrown.kind?_eq hmem).trans hroot
  have hstart : (b.node t.root).start = (a.node t.root).start := hgrown.start_eq hmem
  have hstop : (b.node t.root).stop = (a.node t.root).stop := hgrown.stop_eq hmem
  have hlen : b.outerEnd u.root ≤ src.length := by
    rw [hangs.outerEnd_eq_stop hnodup' (root_mem_ids u) (.inl (by simp [hkind])), hu, hstop]
    exact hend
  have htiles := fun j => hangs.branch_tiles hnodup' hsealed hlen (j := j)
  rw [← hstart, ← hstop, ← hu, hangs.walk_eq hnodup']
  exact ⟨htiles u.root (root_mem_ids u) hkind, htiles⟩

/-- A source with layout in a body behind a sigil, and a comment at its end, for `sampleBody`. -/
def sampleBodySource : Text := "a  $( b )#c\n".toList

/-- A tree over `sampleBodySource`, with a branch that covers nothing. -/
def sampleBody : Element :=
  .branch .document (.ofText 0 sampleBodySource) none
    [.leaf (Leaf.found .bareword 0 ['a'] none),
      .contextualizer none (.ofText 3 ['$']) ['$'] none
        [.leaf (Leaf.found .blockEnter 4 ['('] none),
          .branch .statement (.ofText 6 ['b']) none
            [.branch .statement (.ofText 6 []) none [], .leaf (Leaf.found .bareword 6 ['b'] none)],
          .leaf (Leaf.found .blockExit 8 [')'] none)]]

/-- The tree `sampleBody` with its gaps filled. -/
def sampleSealed : Arena := ((ofElement sampleBody).fill ⟨sampleBodySource, {}, true⟩ 0).value

theorem sample_strict_fill_tiles :
    sampleSealed.tokens 0 = [1, 10, 2, 3, 8, 6, 9, 7, 11, 12] ∧
    sampleSealed.Tiles 0 [1, 10, 2, 3, 8, 6, 9, 7, 11, 12] 12 ∧
    sampleSealed.tokens 4 = [6] ∧
    sampleSealed.Tiles (sampleSealed.node 4).start [6] (sampleSealed.node 4).stop := by
  have hfault : ((ofElement sampleBody).fill ⟨sampleBodySource, {}, true⟩ 0).fault? = none := by
    decide +kernel
  have hfill : (ofElement sampleBody).fill ⟨sampleBodySource, {}, true⟩ 0 = ⟨sampleSealed,
      ((ofElement sampleBody).fill ⟨sampleBodySource, {}, true⟩ 0).events, none⟩ := by
    rw [← hfault]
    rfl
  have hsnug : ∀ j ∈ (ofElement sampleBody).walk 0, (ofElement sampleBody).Snug j := by
    decide +kernel
  have htokens : sampleSealed.tokens 0 = [1, 10, 2, 3, 8, 6, 9, 7, 11, 12] := by decide +kernel
  obtain ⟨hwhole, hbranches⟩ := strict_fill_tiles (isTree_ofElement (by decide +kernel))
    (by decide +kernel) (by decide +kernel) hsnug hfill
  have hinner := hbranches 4 (by decide +kernel) (by decide +kernel)
  have htokens' : sampleSealed.tokens 4 = [6] := by decide +kernel
  rw [htokens] at hwhole
  rw [htokens'] at hinner
  exact ⟨htokens, hwhole, htokens', hinner⟩

end Arena

end RakuTree
