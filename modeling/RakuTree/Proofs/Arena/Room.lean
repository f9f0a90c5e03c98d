import RakuTree.Proofs.Arena.Ranges

/-!
# RakuTree.Proofs.Arena.Room

Opening and closing room in a tree.

An edit cuts the source in one place. Everything in front of the cut stays, everything
behind it moves, and what lies around it grows or shrinks. `Opens` says so of a row of
trees. It holds where a tree is put in or taken out (`opens_insert`, `opens_remove`), and
passes from there to the row the place stands in, from a row to the node above it, and so
up to the root (`Route.opens`).

The code does not look at the tree: it tells the three parts apart by where a node starts
and whether it is above the place. No node of the tree may be empty for this to be the same.
-/

namespace RakuTree.Arena

open Outline

variable {a c : Arena} {cut d : Int} {s e : Int}

/-! ### Trees that move as a whole -/

theorem isToken_of_cls {i : NodeId} (h : (c.node i).cls = (a.node i).cls) :
    (c.node i).isToken = (a.node i).isToken := by
  simp [Node.isToken, Node.kind?, h]

theorem tokensIn_congr {is : List NodeId} (h : ∀ j ∈ is, (c.node j).cls = (a.node j).cls) :
    c.tokensIn is = a.tokensIn is :=
  List.filter_congr fun j hj => isToken_of_cls (h j hj)

theorem Tiles.moved {is : List NodeId} (h : a.Tiles s (a.tokensIn is) e)
    (hc : ∀ j ∈ is, c.extent j = (a.extent j).moved d) :
    c.Tiles (s + d) (c.tokensIn is) (e + d) := by
  rw [tokensIn_congr fun j hj => congrArg Extent.cls (hc j hj)]
  refine Abut.shift h (fun j hj => ?_) fun j hj => ?_
  · exact congrArg Extent.start (hc j (List.mem_filter.mp hj).1)
  · exact congrArg Extent.stop (hc j (List.mem_filter.mp hj).1)

theorem Spans.moved {t : Outline} (h : Spans a t)
    (hc : ∀ j ∈ t.ids, c.extent j = (a.extent j).moved d) : Spans c t := by
  induction h with
  | @node i ks hbranch _ ih =>
      have hi := hc i (by simp [ids])
      have hkind : (c.node i).kind? = (a.node i).kind? :=
        congrArg (fun e : Extent => e.cls.kind?) hi
      refine .node (fun hkindc => ?_) fun k hk => ?_
      · have hmoved := (hbranch (hkind ▸ hkindc)).moved fun j hj =>
          hc j (by simp [ids, hj])
        rwa [← show (c.node i).start = (a.node i).start + d from congrArg Extent.start hi,
          ← show (c.node i).stop = (a.node i).stop + d from congrArg Extent.stop hi] at hmoved
      · exact ih k hk fun j hj => hc j (mem_ids_of_kid hk i hj)

/-! ### Opening room -/

/-- Where the trees `ms` stood between `s` and `e`, around the cut, there are now the trees `ns`
between `s` and `e + d`. -/
def Opens (a c : Arena) (cut d : Int) (ms ns : List Outline) : Prop :=
  ∀ s e, a.Tiles s (a.tokensIn (idsList ms)) e →
    s ≤ cut ∧ cut ≤ e ∧ c.Tiles s (c.tokensIn (idsList ns)) (e + d) ∧ ∀ n ∈ ns, Spans c n

/-- Trees in front of the `cut` stay. -/
theorem tiles_before {ks : List Outline} (hks : ∀ k ∈ ks, Spans a k) (hwide : Wide a (idsList ks))
    (hc : ∀ j ∈ idsList ks, c.extent j = (a.extent j).resized false cut d)
    (h : a.Tiles s (a.tokensIn (idsList ks)) e) (he : e ≤ cut) :
    c.Tiles s (c.tokensIn (idsList ks)) e ∧ ∀ k ∈ ks, Spans c k := by
  have hstay : ∀ j ∈ idsList ks, c.extent j = (a.extent j).moved 0 := by
    intro j hj
    have hlt := ((spans_bounds hks hwide h).2 j hj).2
    rw [hc j hj, Extent.moved_zero]
    exact Extent.resized_of_lt (Int.lt_of_lt_of_le hlt he)
  refine ⟨by simpa using h.moved hstay, fun k hk => ?_⟩
  exact (hks k hk).moved fun j hj => hstay j ((ids_sublist hk).subset hj)

/-- Trees behind the `cut` move by `d`. -/
theorem tiles_behind {ks : List Outline} (hks : ∀ k ∈ ks, Spans a k) (hwide : Wide a (idsList ks))
    (hc : ∀ j ∈ idsList ks, c.extent j = (a.extent j).resized false cut d)
    (h : a.Tiles s (a.tokensIn (idsList ks)) e) (hs : cut ≤ s) :
    c.Tiles (s + d) (c.tokensIn (idsList ks)) (e + d) ∧ ∀ k ∈ ks, Spans c k := by
  have hmove : ∀ j ∈ idsList ks, c.extent j = (a.extent j).moved d := by
    intro j hj
    have hle := ((spans_bounds hks hwide h).2 j hj).1
    rw [hc j hj]
    exact Extent.resized_of_le (Int.le_trans hs hle)
  refine ⟨h.moved hmove, fun k hk => ?_⟩
  exact (hks k hk).moved fun j hj => hmove j ((ids_sublist hk).subset hj)

/-- Room that `Opens` at a place opens in the row it stands in. -/
theorem Opens.row {left ms ns right : List Outline} (h : Opens a c cut d ms ns)
    (hspans : ∀ k ∈ left ++ right, Spans a k) (hwide : Wide a (idsList (left ++ right)))
    (hc : ∀ j ∈ idsList (left ++ right), c.extent j = (a.extent j).resized false cut d) :
    Opens a c cut d (left ++ (ms ++ right)) (left ++ (ns ++ right)) := by
  intro s e ht
  simp only [idsList_append, tokensIn_append] at ht ⊢
  rw [idsList_append] at hwide hc
  obtain ⟨m, hleft, hrest⟩ := ht.split
  obtain ⟨n, hmiddle, hright⟩ := Abut.split hrest
  obtain ⟨hm, hn, hnew, hspansNew⟩ := h m n hmiddle
  have hspansLeft : ∀ k ∈ left, Spans a k := fun k hk => hspans k (by simp [hk])
  have hspansRight : ∀ k ∈ right, Spans a k := fun k hk => hspans k (by simp [hk])
  have hwideLeft : Wide a (idsList left) := fun j hj => hwide j (by simp [hj])
  have hwideRight : Wide a (idsList right) := fun j hj => hwide j (by simp [hj])
  have hsm := (spans_bounds hspansLeft hwideLeft hleft).1
  have hne := (spans_bounds hspansRight hwideRight hright).1
  obtain ⟨hleft', hspansLeft'⟩ :=
    tiles_before hspansLeft hwideLeft (fun j hj => hc j (by simp [hj])) hleft hm
  obtain ⟨hright', hspansRight'⟩ :=
    tiles_behind hspansRight hwideRight (fun j hj => hc j (by simp [hj])) hright hn
  refine ⟨by omega, by omega, hleft'.append (hnew.append hright'), ?_⟩
  intro k hk
  simp only [List.mem_append] at hk
  rcases hk with hk | hk | hk
  · exact hspansLeft' k hk
  · exact hspansNew k hk
  · exact hspansRight' k hk

/-- Room that `Opens` in a row of children opens in the node above it. -/
theorem Opens.node {i : NodeId} {ks ls : List Outline} (h : Opens a c cut d ks ls)
    (hleaf : (a.node i).kind? ≠ some .leaf) (hsome : (a.node i).kind? ≠ none)
    (hspans : Spans a (.node i ks)) (hi : (a.node i).start < (a.node i).stop)
    (hc : c.extent i = (a.extent i).grown d) : Opens a c cut d [.node i ks] [.node i ls] := by
  intro s e ht
  simp only [idsList, ids, List.append_nil, List.forall_mem_singleton] at ht ⊢
  have hcls : (c.node i).cls = (a.node i).cls := (congrArg Extent.cls hc).trans Extent.cls_grown
  have hstart : (c.node i).start = (a.node i).start :=
    (congrArg Extent.start hc).trans Extent.start_grown
  have hkindc : (c.node i).kind? = (a.node i).kind? := congrArg Class.kind? hcls
  cases hspans with
  | node hbranch _ =>
      cases hkind : (a.node i).kind? with
      | none => exact absurd hkind hsome
      | some kind =>
          have hkind' : (a.extent i).cls.kind? = some kind := hkind
          rw [hkind] at hkindc
          cases kind with
          | leaf => exact absurd hkind hleaf
          | branch =>
              -- the branch grows with its tokens
              rw [tokensIn_cons_of_branch hkind] at ht
              rw [tokensIn_cons_of_branch hkindc]
              obtain ⟨hs, he, hnew, hspansNew⟩ := h s e ht
              obtain ⟨rfl, rfl⟩ := (hbranch hkind).unique hi ht
              refine ⟨hs, he, hnew, .node (fun _ => ?_) hspansNew⟩
              have hstop : (c.node i).stop = (a.node i).stop + d :=
                (congrArg Extent.stop hc).trans (Extent.stop_grown (by simp [hkind']))
              rwa [hstart, hstop]
          | contextualizer =>
              -- the sigil stays in front of everything
              rw [tokensIn_cons_of_token (isToken_of_ne_branch (by simp [hkind])), tiles_cons] at ht
              rw [tokensIn_cons_of_token (isToken_of_ne_branch (by simp [hkindc])), tiles_cons]
              obtain ⟨hs, hrow⟩ := ht
              obtain ⟨hle, he, hnew, hspansNew⟩ := h _ e hrow
              have hstop : (c.node i).stop = (a.node i).stop :=
                congrArg Extent.stop (hc.trans (Extent.grown_of_contextualizer hkind'))
              refine ⟨by omega, he, ⟨hstart.trans hs, hstop ▸ hnew⟩, .node ?_ hspansNew⟩
              simp [hkindc]

/-- Room that `Opens` in one of the children opens in the node above it. -/
theorem Opens.child {i : NodeId} {left right ns : List Outline} {m : Outline}
    (h : Opens a c cut d [m] ns) (hfits : Fits a (.node i (left ++ m :: right)))
    (hspans : Spans a (.node i (left ++ m :: right)))
    (hwide : Wide a (Outline.node i (left ++ m :: right)).ids)
    (hi : c.extent i = (a.extent i).grown d)
    (hc : ∀ j ∈ idsList (left ++ right), c.extent j = (a.extent j).resized false cut d) :
    Opens a c cut d [.node i (left ++ m :: right)] [.node i (left ++ (ns ++ right))] := by
  have hmem : ∀ k ∈ left ++ right, k ∈ left ++ m :: right := by
    intro k hk
    rcases List.mem_append.mp hk with hk | hk <;> simp [hk]
  have hrow : Opens a c cut d (left ++ ([m] ++ right)) (left ++ (ns ++ right)) := by
    refine h.row ?_ ?_ hc
    · cases hspans with
      | node _ hks => exact fun k hk => hks k (hmem k hk)
    · intro j hj
      obtain ⟨k, hk, hj⟩ := mem_idsList.mp hj
      exact hwide j (mem_ids_of_kid (hmem k hk) i hj)
  cases hfits with
  | node _ _ hsome hleaf _ =>
      refine hrow.node (fun hkind => ?_) hsome hspans (hwide i (by simp [ids])) hi
      simpa using hleaf hkind

theorem Outline.nodup_node {i : NodeId} {left right : List Outline} {m : Outline}
    (h : (Outline.node i (left ++ m :: right)).ids.Nodup) :
    m.ids.Nodup ∧ i ∉ m.ids ∧ ∀ j ∈ idsList (left ++ right), j ≠ i ∧ j ∉ m.ids := by
  rw [ids, List.nodup_cons, idsList_append, idsList, List.nodup_append, List.nodup_append] at h
  obtain ⟨hi, -, ⟨hm, -, hmr⟩, hlm⟩ := h
  refine ⟨hm, fun him => hi (by simp [him]), fun j hj => ⟨?_, fun hjm => ?_⟩⟩
  · rintro rfl
    rw [idsList_append, List.mem_append] at hj
    rcases hj with hj | hj <;> exact hi (by simp [hj])
  · rw [idsList_append, List.mem_append] at hj
    rcases hj with hj | hj
    · exact hlm j hj j (by simp [hjm]) rfl
    · exact hmr j hjm j hj rfl

theorem Outline.mem_ids_of_siblings (i : NodeId) {left right : List Outline} {m : Outline}
    {j : NodeId} (hj : j ∈ idsList (left ++ right)) :
    j ∈ (Outline.node i (left ++ m :: right)).ids := by
  rw [idsList_append, List.mem_append] at hj
  rcases hj with hj | hj <;> simp [ids, idsList, hj]

/-- Room that `Opens` at the place of an edit opens at the root: the induction is on the `Route`. -/
theorem Route.opens {k t : Outline} {path : List NodeId} {f : List Outline → Outline}
    (h : Route k path t f) (hfits : Fits a t) (hnodup : t.ids.Nodup) (hspans : Spans a t)
    (hwide : Wide a t.ids) {ls : List Outline} (hk : Opens a c cut d [k] ls)
    (hc : ∀ j ∈ t.ids, j ∉ k.ids →
      c.extent j = (a.extent j).resized (path.contains j) cut d) :
    Opens a c cut d [t] [f ls] := by
  induction h with
  | @here p left right =>
      obtain ⟨-, hp, hsiblings⟩ := nodup_node hnodup
      refine hk.child hfits hspans hwide ?_ fun j hj => ?_
      · simpa [Extent.resized] using hc p (by simp [ids]) hp
      · obtain ⟨hjp, hjk⟩ := hsiblings j hj
        simpa [hjp] using hc j (mem_ids_of_siblings p hj) hjk
  | @deeper path t f i left right h ih =>
      obtain ⟨ht, hi, hsiblings⟩ := nodup_node hnodup
      have hkid : t ∈ left ++ t :: right := by simp
      have hopens : Opens a c cut d [t] [f ls] := by
        cases hfits with
        | node _ _ _ _ hfitsKids =>
            cases hspans with
            | node _ hspansKids =>
                refine ih (hfitsKids t hkid) ht (hspansKids t hkid)
                  (fun j hj => hwide j (mem_ids_of_kid hkid i hj)) fun j hj hjk => ?_
                have hji : j ≠ i := fun hji => hi (hji ▸ hj)
                simpa [hji] using hc j (mem_ids_of_kid hkid i hj) hjk
      refine hopens.child hfits hspans hwide ?_ fun j hj => ?_
      · have hik : i ∉ k.ids := fun hik => hi (h.ids_subset hik)
        simpa [Extent.resized] using hc i (by simp [ids]) hik
      · obtain ⟨hji, hjt⟩ := hsiblings j hj
        have hjpath : j ∉ path := fun hjpath => hjt (h.path_subset hjpath)
        simpa [hji, hjpath] using
          hc j (mem_ids_of_siblings i hj) fun hjk => hjt (h.ids_subset hjk)

/-- Room `Opens` at the place where the tree `u` is put beside `k`. -/
theorem opens_insert {k u : Outline} (side : Side) (hfits : Fits a k) (hnodup : k.ids.Nodup)
    (hspans : Spans a k) (hwide : Wide a k.ids) (hu : Spans a u) {s₀ e₀ : Int}
    (htiles : a.Tiles s₀ (a.tokensIn u.ids) e₀) (hcut : cut = a.placeBeside k.root side)
    (hck : ∀ j ∈ k.ids, c.extent j = (a.extent j).resized false cut (e₀ - s₀))
    (hcu : ∀ j ∈ u.ids, c.extent j = (a.extent j).moved (cut - s₀)) :
    Opens a c cut (e₀ - s₀) [k] (side.arrange [u] [k]) := by
  intro s e ht
  have hsingle : ∀ l : Outline, idsList [l] = l.ids := by simp [idsList]
  have hspansList : ∀ l ∈ [k], Spans a l := by simpa using hspans
  rw [← hsingle] at hck
  have hwideList : Wide a (idsList [k]) := (hsingle k).symm ▸ hwide
  obtain ⟨hstart, hlt, -⟩ := hspans.bounds hwide (hsingle k ▸ ht)
  have hend := hspans.outerEnd_eq hfits hnodup hwide (hsingle k ▸ ht)
  have hnew := htiles.moved hcu
  have hspansNew : Spans c u := hu.moved hcu
  have hplace : s₀ + (cut - s₀) = cut := by omega
  have hplace' : e₀ + (cut - s₀) = cut + (e₀ - s₀) := by omega
  rw [hplace, hplace'] at hnew
  rw [idsList_arrange]
  cases side with
  | before =>
      -- what was there comes behind the new tree
      obtain rfl : cut = s := hcut.trans hstart
      obtain ⟨hold, hspansOld⟩ := tiles_behind hspansList hwideList hck ht (Int.le_refl _)
      rw [hsingle] at hold
      refine ⟨Int.le_refl _, by omega, ?_, ?_⟩
      · rw [Side.arrange, tokensIn_append]
        exact hnew.append hold
      · simpa [Side.arrange] using ⟨hspansNew, hspansOld k (by simp)⟩
  | after =>
      obtain rfl : cut = e := hcut.trans hend
      obtain ⟨hold, hspansOld⟩ := tiles_before hspansList hwideList hck ht (Int.le_refl _)
      rw [hsingle] at hold
      refine ⟨by omega, Int.le_refl _, ?_, ?_⟩
      · rw [Side.arrange, tokensIn_append]
        exact hold.append hnew
      · simpa [Side.arrange] using ⟨hspansOld k (by simp), hspansNew⟩

/-- Room closes, by a negative width, at the place where the tree `k` is taken out. -/
theorem opens_remove {k : Outline} (hfits : Fits a k) (hnodup : k.ids.Nodup) (hspans : Spans a k)
    (hwide : Wide a k.ids) :
    Opens a c (a.outerEnd k.root) (-(a.outerEnd k.root - (a.node k.root).start)) [k] [] := by
  intro s e ht
  simp only [idsList, List.append_nil] at ht
  obtain ⟨hstart, hlt, -⟩ := hspans.bounds hwide ht
  have hend := hspans.outerEnd_eq hfits hnodup hwide ht
  refine ⟨by omega, by omega, ?_, by simp⟩
  change s = e + -(a.outerEnd k.root - (a.node k.root).start)
  omega

end RakuTree.Arena
