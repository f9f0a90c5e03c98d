import RakuTree.Proofs.Arena.Chain
import RakuTree.Proofs.Arena.Ranges

/-!
# RakuTree.Proofs.Arena.Removal

The tree that a removal takes out of a document.

What is left of the document is threaded again, so none of its links leads out of it. The tree
that was taken out is not: the row of its tokens is cut off at both ends, the links of its root
are set back, and that is all (`Intact.remove_links`). A branch inside of it keeps the links it
had. It has no token of its own to be followed by at the edge of the tree, so there its links
lead to the tokens that stood beside the tree in the document. `remove_leaves_edge_links` says
which links these are.
-/

namespace RakuTree.Arena

open Outline

variable {a b : Arena} {r i j x : NodeId} {t k : Outline}

/-! ### Cutting tokens off -/

theorem setNext_eq_self (h : (a.node i).next = x) : a.setNext i x = a := by
  subst h
  refine eq_of_node_eq (setNext_alike a i _).size fun j hj => ?_
  by_cases hji : j = i
  · subst hji
    rw [setNext, node_update_self hj]
  · rw [setNext, node_update_of_ne hji]

theorem setPrevious_eq_self (h : (a.node i).previous = x) : a.setPrevious i x = a := by
  subst h
  refine eq_of_node_eq (setPrevious_alike a i _).size fun j hj => ?_
  by_cases hji : j = i
  · subst hji
    rw [setPrevious, node_update_self hj]
  · rw [setPrevious, node_update_of_ne hji]

/-- Linking a row by `linkRow` changes nothing if its neighbours lead to each other. -/
theorem linkRow_eq_self {ts : List NodeId} (h : ∀ front s t back, ts = front ++ s :: t :: back →
    (a.node s).next = t ∧ (a.node t).previous = s) : a.linkRow ts = a := by
  induction ts with
  | nil => rfl
  | cons i ts ih =>
      cases ts with
      | nil => rfl
      | cons j ts =>
          obtain ⟨hnext, hprevious⟩ := h [] i j ts rfl
          rw [linkRow, setNext_eq_self hnext, setPrevious_eq_self hprevious]
          refine ih fun front s u back hsplit => h (i :: front) s u back ?_
          rw [hsplit, List.cons_append]

/-- What stands beside the token `i` of a chain. -/
theorem Chained.around {ts us : List NodeId} (h : Chained a (ts ++ i :: us))
    (hnodup : (ts ++ i :: us).Nodup) : a.before? i = ts.getLast? ∧ a.after? i = us.head? := by
  obtain ⟨-, hus, hdisjoint⟩ := List.nodup_append.mp hnodup
  refine ⟨?_, ?_⟩
  · rw [before?, isStart]
    rcases List.eq_nil_or_concat' ts with rfl | ⟨front, p, rfl⟩
    · simp [h.first i rfl]
    · have hprevious := (h.neighbours front p i us (by simp)).2
      have hne : p ≠ i := hdisjoint p (by simp) i (by simp)
      simp [hprevious, hne]
  · rw [after?, isEnd]
    cases us with
    | nil => simp [h.last i (by simp)]
    | cons n back =>
        have hnext := (h.neighbours ts i n back rfl).1
        have hne : n ≠ i := fun hni => (List.nodup_cons.mp hus).1 (hni ▸ List.mem_cons_self)
        simp [hnext, hne]

/-- Cutting a row out of a chain by `cutOut` sets back the links at its ends. Apart from them only
the tokens beside the row change. -/
theorem cutOut_links {first last : NodeId} (hfirst : first < a.size) (hlast : last < a.size)
    (hbefore : a.before? first ≠ some j) (hafter : a.after? last ≠ some j) :
    ((a.cutOut first last).node j).next = (if last = j then j else (a.node j).next) ∧
      ((a.cutOut first last).node j).previous =
        if first = j then j else (a.node j).previous := by
  -- joining what stands beside the row leaves node `j` alone
  have hjoined : ∀ b : Arena, b.size = a.size → b.node j = a.node j →
      (((b.setPrevious first first).setNext last last).node j).next =
          (if last = j then j else (a.node j).next) ∧
        (((b.setPrevious first first).setNext last last).node j).previous =
          if first = j then j else (a.node j).previous := by
    intro b hsize hnode
    have hlast' : last < (b.setPrevious first first).size := by
      rwa [(setPrevious_alike b first first).size, hsize]
    rw [next_setNext _ _ hlast', previous_setNext, next_setPrevious,
      previous_setPrevious _ _ (hsize ▸ hfirst), hnode]
    refine ⟨?_, ?_⟩
    · by_cases hj : j = last <;> simp [hj, eq_comm]
    · by_cases hj : j = first <;> simp [hj, eq_comm]
  rw [cutOut]
  cases hb : a.before? first with
  | none =>
      cases hc : a.after? last with
      | none => exact hjoined a rfl rfl
      | some c =>
          have hcj : j ≠ c := fun hcj => hafter (hcj ▸ hc)
          exact hjoined _ (setPrevious_alike a c c).size (node_update_of_ne hcj _)
  | some b =>
      have hbj : j ≠ b := fun hbj => hbefore (hbj ▸ hb)
      cases hc : a.after? last with
      | none => exact hjoined _ (setNext_alike a b b).size (node_update_of_ne hbj _)
      | some c =>
          have hcj : j ≠ c := fun hcj => hafter (hcj ▸ hc)
          exact hjoined _ (join_alike a b c).size
            ((node_update_of_ne hcj _).trans (node_update_of_ne hbj _))

/-- Changes of ranges by `shiftFrom` leave every other field `g` alone. -/
theorem field_shiftFrom {β : Type} (g : Node → β)
    (hg : ∀ (n : Node) (s e : Int), g { n with start := s, stop := e } = g n) (a : Arena)
    (root : NodeId) (place d : Int) (enclosing : List NodeId) (j : NodeId) :
    g ((a.shiftFrom root place d enclosing).node j) = g (a.node j) := by
  rw [shiftFrom]
  split
  · rfl
  · generalize a.walk root = is
    induction is generalizing a with
    | nil => rfl
    | cons i is ih =>
        rw [List.foldl_cons, ih]
        simp only
        split
        · split
          · rfl
          · exact field_update g (fun n => hg n n.start (n.stop + d)) a i j
        · split
          · exact field_update g (fun n => hg n (n.start + d) (n.stop + d)) a i j
          · rfl

/-- Taking a node out of the children of its parent by `detach` leaves the chain alone. -/
theorem field_detach {β : Type} (g : Node → β)
    (hg : ∀ (n : Node) (p : NodeId) (ks : List NodeId),
      g { n with parent := p } = g n ∧ g { n with children := ks } = g n) (a : Arena)
    (i j : NodeId) : g ((a.detach i).node j) = g (a.node j) := by
  rw [detach]
  split
  · rfl
  · rw [setParent, field_update g fun n => (hg n i []).1, setChildren,
      field_update g fun n => (hg n i _).2]

@[simp] theorem size_detach (a : Arena) (i : NodeId) : (a.detach i).size = a.size := by
  rw [detach]
  split
  · rfl
  · rw [setParent, size_update, setChildren, size_update]

/-! ### Links of the tree that is taken out -/

section Removed

variable {front back : List NodeId}

/-- The tokens of a part `k` of a document are cut off at both ends by `cutTokens`. -/
theorem Intact.cutTokens_links (h : Intact a r t) (hk : Fits a k)
    (hids : t.ids = front ++ (k.ids ++ back)) (hj : j ∈ k.ids) :
    ((a.cutTokens k.root).node j).next =
        (if (a.tokensIn k.ids).getLast? = some j then j else (a.node j).next) ∧
      ((a.cutTokens k.root).node j).previous =
        if (a.tokensIn k.ids).head? = some j then j else (a.node j).previous := by
  have hnodup := h.nodup
  rw [hids, List.nodup_append, List.nodup_append] at hnodup
  obtain ⟨-, ⟨hknodup, -, hkback⟩, hfrontk⟩ := hnodup
  have htokens : a.tokens k.root = a.tokensIn k.ids := by
    rw [tokens, hk.walk_eq hknodup, tokensIn]
  -- the tokens of the part stand in one piece in the chain of the document
  have hchained : Chained a (a.tokensIn front ++ (a.tokensIn k.ids ++ a.tokensIn back)) := by
    rw [← tokensIn_append, ← tokensIn_append, ← hids]
    exact h.threaded.linked.chained
  have hchainNodup : (a.tokensIn front ++ (a.tokensIn k.ids ++ a.tokensIn back)).Nodup := by
    rw [← tokensIn_append, ← tokensIn_append, ← hids]
    exact h.nodup.filter _
  have hrow : a.linkRow (a.tokensIn k.ids) = a := by
    refine linkRow_eq_self fun ts s u us hsplit => ?_
    exact hchained.neighbours (a.tokensIn front ++ ts) s u (us ++ a.tokensIn back)
      (by simp [hsplit])
  have hmem : ∀ s ∈ a.tokensIn k.ids, s < a.size := fun s hs =>
    hk.lt_size s (List.mem_of_mem_filter hs)
  rw [cutTokens, htokens, hrow]
  cases hcons : a.tokensIn k.ids with
  | nil => simp [ends]
  | cons first rest =>
      obtain ⟨init, last, hinit⟩ := List.eq_nil_or_concat' (first :: rest) |>.resolve_left (by simp)
      have hends : ends (first :: rest) = some (first, last) := by
        simp only [ends, hinit, List.getLast_append_singleton]
      have hbefore : a.before? first = (a.tokensIn front).getLast? := by
        rw [hcons] at hchained hchainNodup
        exact (hchained.around hchainNodup).1
      have hafter : a.after? last = (a.tokensIn back).head? := by
        have hassoc : a.tokensIn front ++ (a.tokensIn k.ids ++ a.tokensIn back) =
            (a.tokensIn front ++ init) ++ last :: a.tokensIn back := by
          simp [hcons, hinit]
        rw [hassoc] at hchained hchainNodup
        exact (hchained.around hchainNodup).2
      have hfirst : first < a.size := hmem first (by simp [hcons])
      have hlast : last < a.size := hmem last (by simp [hcons, hinit])
      have hlast? : (first :: rest).getLast? = some last := by rw [hinit, List.getLast?_concat]
      simp only [hends, hlast?, List.head?_cons, Option.some.injEq]
      -- what stands beside the row stands outside of the part
      refine cutOut_links hfirst hlast ?_ ?_
      · rw [hbefore]
        intro hlast
        exact hfrontk j (List.mem_of_mem_filter (List.mem_of_getLast? hlast)) j
          (List.mem_append_left _ hj) rfl
      · rw [hafter]
        intro hhead
        exact hkback j hj j (List.mem_of_mem_filter (List.mem_of_head? hhead)) rfl

/-- The links of the tree `k` once it is taken off its document by `unhook`: its tokens are cut off
at both ends, and its root is on its own. All other links stay. -/
theorem Intact.unhook_links (h : Intact a r t) {p : NodeId} {left right : List Outline}
    (hfocus : Focus p t (left ++ k :: right) front back) (hj : j ∈ k.ids) :
    ((a.unhook k.root).node j).next =
        (if j = k.root ∨ (a.tokensIn k.ids).getLast? = some j then j else (a.node j).next) ∧
      ((a.unhook k.root).node j).previous =
        if j = k.root ∨ (a.tokensIn k.ids).head? = some j then j else (a.node j).previous := by
  obtain ⟨-, hi, -, -, -, hk, -, -⟩ := h.focus_child hfocus
  obtain ⟨hnext, hprevious⟩ := h.cutTokens_links hk hfocus.ids_child hj
  have hlt : k.root < ((a.cutTokens k.root).detach k.root).size := by
    rw [size_detach, (cutTokens_alike a k.root).size]
    exact h.fits.lt_size _ hi
  have hlt' : k.root < (((a.cutTokens k.root).detach k.root).setNext k.root k.root).size := by
    rwa [(setNext_alike _ _ _).size]
  refine ⟨?_, ?_⟩
  · rw [unhook, next_setPrevious, next_setNext _ _ hlt,
      field_detach Node.next (fun _ _ _ => ⟨rfl, rfl⟩), hnext]
    by_cases hroot : j = k.root <;> simp [hroot]
  · rw [unhook, previous_setPrevious _ _ hlt', previous_setNext,
      field_detach Node.previous (fun _ _ _ => ⟨rfl, rfl⟩), hprevious]
    by_cases hroot : j = k.root <;> simp [hroot]

/-- No node of the part `k` of the document is left when the part is taken out. -/
theorem Intact.notMem_replace (h : Intact a r t) {p : NodeId} {left right : List Outline}
    (hfocus : Focus p t (left ++ k :: right) front back) (hj : j ∈ k.ids) :
    j ∉ (t.replace p (left ++ right)).ids := by
  have hnodup := h.nodup
  have hids : (t.replace p (left ++ right)).ids =
      (front ++ p :: idsList left) ++ (idsList right ++ back) :=
    hfocus.ids_replace_child left [] right
  rw [hfocus.ids_child] at hnodup
  obtain ⟨-, htail, hleft⟩ := List.nodup_append.mp hnodup
  obtain ⟨-, -, hright⟩ := List.nodup_append.mp htail
  rw [hids, List.mem_append]
  rintro (hmem | hmem)
  · exact hleft j hmem j (List.mem_append_left _ hj) rfl
  · exact hright j hj j hmem rfl

/-- A removal takes the tree `k` off, without any more ado to its links, and relinks what is left.
-/
theorem Intact.remove_eq_relink (h : Intact a r t) {p : NodeId} {left right : List Outline}
    (hfocus : Focus p t (left ++ k :: right) front back) (ranges : Bool) :
    ∃ b, a.remove k.root ranges = b.relink r ∧
      Rehung a b p ((left ++ right).map Outline.root) k.root k.root ∧
      (∀ j, (b.node j).next = ((a.unhook k.root).node j).next ∧
        (b.node j).previous = ((a.unhook k.root).node j).previous) ∧
      Relinked (t.replace p (left ++ right)).ids b (b.relink r) := by
  obtain ⟨-, hi, hne, -⟩ := h.focus_child hfocus
  obtain ⟨hfits, hnodup⟩ := h.without_child hfocus
  have hrehung := h.unhook_rehung hfocus
  have hrelink : ∀ b, Rehung a b p ((left ++ right).map Outline.root) k.root k.root →
      Relinked (t.replace p (left ++ right)).ids b (b.relink r) := by
    intro b hb
    have hrelinked := relink_relinked (hb.fits_replace h.fits hfocus (by simp) hfits hnodup) hnodup
    rwa [root_replace, h.root] at hrelinked
  rw [h.remove_eq hi hne]
  generalize a.unhook k.root = c at hrehung
  cases ranges with
  | false =>
      rw [if_neg Bool.false_ne_true]
      exact ⟨c, rfl, hrehung, fun j => ⟨rfl, rfl⟩, hrelink c hrehung⟩
  | true =>
      rw [if_pos rfl]
      generalize c.outerEnd k.root = place
      generalize -(place - (c.node k.root).start) = d
      generalize (a.cutTokens k.root).ancestors k.root = path
      have hshifted := hrehung.before_alike (shiftFrom_alike c r place d path)
      refine ⟨c.shiftFrom r place d path, rfl, hshifted, fun j => ⟨?_, ?_⟩, hrelink _ hshifted⟩
      · exact field_shiftFrom Node.next (fun _ _ _ => rfl) c r place d path j
      · exact field_shiftFrom Node.previous (fun _ _ _ => rfl) c r place d path j

/-- The tree `k` stays a tree when it is removed. -/
theorem Intact.remove_fits (h : Intact a r t) {p : NodeId} {left right : List Outline}
    (hfocus : Focus p t (left ++ k :: right) front back) (ranges : Bool) :
    Fits (a.remove k.root ranges) k := by
  obtain ⟨-, -, -, -, -, hk, -, -⟩ := h.focus_child hfocus
  obtain ⟨b, hremove, hb, -, hrelinked⟩ := h.remove_eq_relink hfocus ranges
  rw [hremove]
  refine (hb.fits hk fun hp => h.notMem_below hfocus ?_).sameShape hrelinked.sameShape
  exact (ids_sublist (by simp)).subset hp

/-- What becomes of the links of the tree `k` when it is removed. -/
theorem Intact.remove_links (h : Intact a r t) {p : NodeId} {left right : List Outline}
    (hfocus : Focus p t (left ++ k :: right) front back) (ranges : Bool) (hj : j ∈ k.ids) :
    ((a.remove k.root ranges).node j).next =
        (if j = k.root ∨ (a.tokensIn k.ids).getLast? = some j then j else (a.node j).next) ∧
      ((a.remove k.root ranges).node j).previous =
        (if j = k.root ∨ (a.tokensIn k.ids).head? = some j then j else (a.node j).previous) ∧
      ((a.remove k.root ranges).node j).parent = if j = k.root then j else (a.node j).parent := by
  obtain ⟨hnext, hprevious⟩ := h.unhook_links hfocus hj
  obtain ⟨b, hremove, hb, hlinks, hrelinked⟩ := h.remove_eq_relink hfocus ranges
  rw [hremove, hrelinked.others j (h.notMem_replace hfocus hj), (hlinks j).1, (hlinks j).2,
    hnext, hprevious, hb.parent]
  refine ⟨rfl, rfl, ?_⟩
  by_cases hroot : j = k.root <;> simp [hroot]

end Removed

/-! ### Where links lead -/

theorem getD_mem {near : Option NodeId} {is : List NodeId} (hnear : ∀ q ∈ near, q ∈ is)
    (hj : j ∈ is) : near.getD j ∈ is := by
  cases near with
  | none => exact hj
  | some q => exact hnear q rfl

/-- Below the root of the part `k` of a document, parents are in that part. -/
theorem Intact.parent_mem (h : Intact a r t) (hk : Fits a k) (hsub : k.ids ⊆ t.ids)
    (hj : j ∈ k.ids) (hne : j ≠ k.root) : (a.node j).parent ∈ k.ids := by
  obtain ⟨q, hq, hjq⟩ := hk.exists_parent hj hne
  rw [h.threaded.parents q (hsub hq) j hjq]
  exact hq

/-- The links of a document that is `Intact` stay in it. -/
theorem Intact.links_mem (h : Intact a r t) (hj : j ∈ t.ids) :
    (a.node j).next ∈ t.ids ∧ (a.node j).previous ∈ t.ids ∧ (a.node j).parent ∈ t.ids := by
  obtain ⟨front, back, hsplit⟩ := List.append_of_mem hj
  have hlinked := h.threaded.linked
  rw [hsplit] at hlinked
  obtain ⟨hprevious, hnext⟩ := hlinked.links_at
  refine ⟨?_, ?_, ?_⟩
  · rw [hnext]
    refine getD_mem (fun q hq => ?_) hj
    have hq : q ∈ back := List.mem_of_mem_filter (List.mem_of_head? hq)
    simp [hsplit, hq]
  · rw [hprevious]
    refine getD_mem (fun q hq => ?_) hj
    have hq : q ∈ front := List.mem_of_mem_filter (List.mem_of_getLast? hq)
    simp [hsplit, hq]
  · by_cases hroot : j = t.root
    · rw [hroot, h.threaded.root]
      exact t.root_mem_ids
    · exact h.parent_mem h.fits (List.Subset.refl _) hj hroot

/-- Node `j` is a branch below `x` at the edge of the tree: there is no token towards that edge
inside of the tree, but there is one beyond it. -/
def AtEdge (a : Arena) (x j : NodeId) (inside outside : List NodeId) : Prop :=
  j ≠ x ∧ (a.node j).kind? = some .branch ∧ a.tokensIn inside = [] ∧ a.tokensIn outside ≠ []

instance (a : Arena) (x j : NodeId) (inside outside : List NodeId) :
    Decidable (a.AtEdge x j inside outside) :=
  inferInstanceAs (Decidable (_ ∧ _ ∧ _ ∧ _))

/-- A link that was not `cut` leads to the nearest token inside, or else to the one beyond, or else
back to the node. -/
theorem mem_of_nearest {near far : Option NodeId} {inside outside : List NodeId} {cut : Prop}
    [Decidable cut] (hnear : ∀ q ∈ near, q ∈ inside) (hfar : ∀ q ∈ far, q ∈ outside)
    (hj : j ∈ inside) :
    (¬cut ∧ near = none ∧ far ≠ none → (if cut then j else (near.or far).getD j) ∈ outside) ∧
      (¬(¬cut ∧ near = none ∧ far ≠ none) →
        (if cut then j else (near.or far).getD j) ∈ inside) := by
  by_cases hcut : cut
  · simp [hcut, hj]
  · cases near with
    | some q => simp [hcut, hnear q rfl]
    | none =>
        cases far with
        | some q => simp [hcut, hfar q rfl]
        | none => simp [hcut, hj]

/-- A branch `j` at the edge is one whose link was not cut, with a token beyond the edge and none
before. The last token towards the edge is the node itself or not, as it is a token or not. -/
theorem atEdge_iff {last near far : Option NodeId} {inside outside : List NodeId}
    (hnear : near = none ↔ a.tokensIn inside = []) (hfar : far = none ↔ a.tokensIn outside = [])
    (hlast : a.tokensIn inside = [] → (last = some j ↔ (a.node j).isToken = true)) :
    a.AtEdge x j inside outside ↔ ¬(j = x ∨ last = some j) ∧ near = none ∧ far ≠ none := by
  rw [AtEdge, hnear, ne_eq far, hfar, not_or]
  by_cases hinside : a.tokensIn inside = []
  · rw [hlast hinside]
    simp [Node.isToken, hinside, and_assoc]
  · simp [hinside]

section Edge

variable {front back l m : List NodeId} {p : NodeId} {left right : List Outline}

/-- Behind nodes `l` that are no tokens, the first token is the next node `j` if that is one. -/
theorem head?_tokensIn (hl : a.tokensIn l = []) (hj : j ∉ m) :
    (a.tokensIn (l ++ j :: m)).head? = some j ↔ (a.node j).isToken = true := by
  rw [tokensIn_append, hl, List.nil_append]
  by_cases htoken : (a.node j).isToken = true
  · simp [tokensIn_cons_of_token htoken, htoken]
  · rw [tokensIn, List.filter_cons_of_neg (by exact htoken)]
    refine iff_of_false (fun hhead => hj ?_) htoken
    exact List.mem_of_mem_filter (List.mem_of_head? hhead)

theorem getLast?_tokensIn (hm : a.tokensIn m = []) (hj : j ∉ l) :
    (a.tokensIn (l ++ j :: m)).getLast? = some j ↔ (a.node j).isToken = true := by
  rw [tokensIn_append]
  by_cases htoken : (a.node j).isToken = true
  · simp [tokensIn_cons_of_token htoken, hm, htoken]
  · have hnil : a.tokensIn (j :: m) = [] := (List.filter_cons_of_neg (by exact htoken)).trans hm
    rw [hnil, List.append_nil]
    refine iff_of_false (fun hlast => hj ?_) htoken
    exact List.mem_of_mem_filter (List.mem_of_getLast? hlast)

/-- Where the links of the tree `k` lead when it is removed. -/
theorem Intact.removed_links_mem (h : Intact a r t)
    (hfocus : Focus p t (left ++ k :: right) front back) (ranges : Bool)
    (hsplit : k.ids = l ++ j :: m) :
    ((a.AtEdge k.root j l (front ++ p :: idsList left) →
        ((a.remove k.root ranges).node j).previous ∈ front ++ p :: idsList left) ∧
      (¬a.AtEdge k.root j l (front ++ p :: idsList left) →
        ((a.remove k.root ranges).node j).previous ∈ k.ids)) ∧
    ((a.AtEdge k.root j m (idsList right ++ back) →
        ((a.remove k.root ranges).node j).next ∈ idsList right ++ back) ∧
      (¬a.AtEdge k.root j m (idsList right ++ back) →
        ((a.remove k.root ranges).node j).next ∈ k.ids)) ∧
    ((a.remove k.root ranges).node j).parent ∈ k.ids := by
  obtain ⟨-, -, -, -, -, hk, hknodup, -⟩ := h.focus_child hfocus
  have hj : j ∈ k.ids := by simp [hsplit]
  have hl : ∀ q ∈ a.tokensIn l, q ∈ k.ids := by
    intro q hq
    rw [hsplit]
    exact List.mem_append_left _ (List.mem_of_mem_filter hq)
  have hm : ∀ q ∈ a.tokensIn m, q ∈ k.ids := by
    intro q hq
    rw [hsplit]
    exact List.mem_append_right _ (List.mem_cons_of_mem _ (List.mem_of_mem_filter hq))
  have hids : t.ids =
      ((front ++ p :: idsList left) ++ l) ++ j :: (m ++ (idsList right ++ back)) := by
    rw [hfocus.ids_child, hsplit]
    simp only [List.append_assoc, List.cons_append]
  obtain ⟨hnext, hprevious, hparent⟩ := h.remove_links hfocus ranges hj
  -- before the removal, the node was linked to the tokens beside it
  have hlinked := h.threaded.linked
  rw [hids] at hlinked
  obtain ⟨hbefore, hbehind⟩ := hlinked.links_at
  rw [List.filter_append, List.getLast?_append] at hbefore
  rw [List.filter_append, List.head?_append] at hbehind
  rw [hsplit, List.nodup_append, List.nodup_cons] at hknodup
  obtain ⟨-, ⟨hjm, -⟩, hlj⟩ := hknodup
  have hjl : j ∉ l := fun hjl => hlj j hjl j List.mem_cons_self rfl
  refine ⟨?_, ?_, ?_⟩
  · have hhead : a.tokensIn l = [] →
        ((a.tokensIn k.ids).head? = some j ↔ (a.node j).isToken = true) := by
      intro hnil
      rw [hsplit]
      exact head?_tokensIn hnil hjm
    rw [hprevious, hbefore, atEdge_iff List.getLast?_eq_none_iff List.getLast?_eq_none_iff hhead]
    refine mem_of_nearest (fun q hq => hl q (List.mem_of_getLast? hq)) (fun q hq => ?_) hj
    exact List.mem_of_mem_filter (List.mem_of_getLast? hq)
  · have hlast : a.tokensIn m = [] →
        ((a.tokensIn k.ids).getLast? = some j ↔ (a.node j).isToken = true) := by
      intro hnil
      rw [hsplit]
      exact getLast?_tokensIn hnil hjl
    rw [hnext, hbehind, atEdge_iff List.head?_eq_none_iff List.head?_eq_none_iff hlast]
    refine mem_of_nearest (fun q hq => hm q (List.mem_of_head? hq)) (fun q hq => ?_) hj
    exact List.mem_of_mem_filter (List.mem_of_head? hq)
  · rw [hparent]
    split
    · exact hj
    · rename_i hroot
      refine h.parent_mem hk (fun q hq => ?_) hj hroot
      rw [hfocus.ids_child]
      exact List.mem_append_right _ (List.mem_append_left _ hq)

end Edge

/-- **What a removal leaves linked.** Take any threaded document and any node `x` of it but its
root, and remove `x`, with ranges or without. What is left of the document is the document without
the nodes under `x`, and no link of it leads to them. Of the nodes under `x`, parents are under
`x`, and so are the tokens beside each node, except for branches below `x` at the edge: where such
a branch has no token between it and the edge, it still leads to the token that stood beyond the
edge in the document, if there was one. -/
theorem remove_leaves_edge_links {a : Arena} {r x : NodeId} (htree : IsTree a r)
    (hthreaded : a.thread r = (a, none)) (hx : x ∈ a.walk r) (hne : x ≠ r) (ranges : Bool) :
    ∃ front back, a.walk r = front ++ (a.walk x ++ back) ∧
      (a.remove x ranges).walk r = front ++ back ∧ (a.remove x ranges).walk x = a.walk x ∧
      (∀ j ∈ front ++ back, ((a.remove x ranges).node j).next ∈ front ++ back ∧
        ((a.remove x ranges).node j).previous ∈ front ++ back ∧
        ((a.remove x ranges).node j).parent ∈ front ++ back) ∧
      ∀ l j m, a.walk x = l ++ j :: m →
        (((a.remove x ranges).node j).previous ∈ front ++ back ↔ a.AtEdge x j l front) ∧
        (((a.remove x ranges).node j).previous ∈ a.walk x ↔ ¬a.AtEdge x j l front) ∧
        (((a.remove x ranges).node j).next ∈ front ++ back ↔ a.AtEdge x j m back) ∧
        (((a.remove x ranges).node j).next ∈ a.walk x ↔ ¬a.AtEdge x j m back) ∧
        ((a.remove x ranges).node j).parent ∈ a.walk x := by
  obtain ⟨t, h⟩ := htree.exists_intact hthreaded
  rw [h.walk_eq] at hx
  obtain ⟨p, left, k, right, front, back, rfl, hfocus⟩ := h.exists_siblings hx hne
  obtain ⟨-, -, -, -, -, hk, hknodup, -⟩ := h.focus_child hfocus
  have hrest := h.remove_focus hfocus ranges
  have hids : (t.replace p (left ++ right)).ids =
      (front ++ p :: idsList left) ++ (idsList right ++ back) :=
    hfocus.ids_replace_child left [] right
  have hwalk : (a.remove k.root ranges).walk k.root = k.ids :=
    (h.remove_fits hfocus ranges).walk_eq hknodup
  refine ⟨front ++ p :: idsList left, idsList right ++ back, ?_, hrest.walk_eq.trans hids, ?_,
    ?_, ?_⟩
  · rw [h.walk_eq, hk.walk_eq hknodup, hfocus.ids_child]
  · rw [hwalk, hk.walk_eq hknodup]
  · intro j hj
    rw [← hids] at hj ⊢
    exact hrest.links_mem hj
  · intro l j m hsplit
    rw [hk.walk_eq hknodup] at hsplit ⊢
    obtain ⟨⟨hprevious, hprevious'⟩, ⟨hnext, hnext'⟩, hparent⟩ :=
      h.removed_links_mem hfocus ranges hsplit
    -- a node that stayed is not under the node that went
    have hdisjoint : ∀ i ∈ k.ids, i ∉ (front ++ p :: idsList left) ++ (idsList right ++ back) := by
      rw [← hids]
      exact fun i hi => h.notMem_replace hfocus hi
    refine ⟨⟨fun hmem => ?_, fun hedge => List.mem_append_left _ (hprevious hedge)⟩,
      ⟨fun hmem hedge => ?_, hprevious'⟩,
      ⟨fun hmem => ?_, fun hedge => List.mem_append_right _ (hnext hedge)⟩,
      ⟨fun hmem hedge => ?_, hnext'⟩, hparent⟩
    · by_contra hedge
      exact hdisjoint _ (hprevious' hedge) hmem
    · exact hdisjoint _ hmem (List.mem_append_left _ (hprevious hedge))
    · by_contra hedge
      exact hdisjoint _ (hnext' hedge) hmem
    · exact hdisjoint _ hmem (List.mem_append_right _ (hnext hedge))

/-- The words `a`, `b` and `c`. The second one stands in a statement of its own, with an empty
statement behind it, both inside of another statement. -/
def sampleEdged : Element :=
  .branch .document (.ofText 0 ['a', 'b', 'c']) none
    [.leaf (Leaf.found .bareword 0 ['a'] none),
      .branch .statement (.ofText 1 ['b']) none
        [.branch .statement (.ofText 1 ['b']) none [.leaf (Leaf.found .bareword 1 ['b'] none)],
          .branch .statement (.ofText 2 []) none []],
      .leaf (Leaf.found .bareword 2 ['c'] none)]

/-- The document `sampleEdged`, threaded. -/
def sampleEdges : Arena := ((ofElement sampleEdged).thread 0).1

theorem sample_leaves_edge_links :
    sampleEdges.walk 2 = [2, 3, 4, 5] ∧ (sampleEdges.remove 2 false).walk 0 = [0, 1, 6] ∧
      ((sampleEdges.remove 2 false).node 3).previous ∈ [0, 1, 6] ∧
      ((sampleEdges.remove 2 false).node 3).next ∈ [2, 3, 4, 5] ∧
      ((sampleEdges.remove 2 false).node 5).previous ∈ [2, 3, 4, 5] ∧
      ((sampleEdges.remove 2 false).node 5).next ∈ [0, 1, 6] := by
  obtain ⟨htree, hthreaded⟩ : IsTree sampleEdges 0 ∧ sampleEdges.thread 0 = (sampleEdges, none) :=
    (isTree_ofElement (by decide)).thread
  have hinner : sampleEdges.walk 2 = [2, 3, 4, 5] := by decide +kernel
  have houter : sampleEdges.walk 0 = [0, 1, 2, 3, 4, 5, 6] := by decide +kernel
  have hrest : (sampleEdges.remove 2 false).walk 0 = [0, 1, 6] := by decide +kernel
  obtain ⟨front, back, hwalk, hwalk', -, -, hlinks⟩ :=
    remove_leaves_edge_links htree hthreaded (x := 2) (by decide +kernel) (by decide) false
  obtain ⟨rfl, rfl⟩ : front = [0, 1] ∧ back = [6] := by
    rw [houter, hinner] at hwalk
    rw [hrest] at hwalk'
    rcases front with _ | ⟨i, _ | ⟨j, _ | ⟨k, front⟩⟩⟩
    · simp at hwalk
    · simp at hwalk
    · simp_all
    · simp_all
  rw [hinner] at hlinks
  obtain ⟨hprevious, -, -, hnext, -⟩ := hlinks [2] 3 [4, 5] rfl
  obtain ⟨-, hprevious', hnext', -, -⟩ := hlinks [2, 3, 4] 5 [] rfl
  exact ⟨hinner, hrest, hprevious.mpr (by decide +kernel), hnext.mpr (by decide +kernel),
    hprevious'.mpr (by decide +kernel), hnext'.mpr (by decide +kernel)⟩

end RakuTree.Arena
