import RakuTree.Proofs.Layout

/-!
# RakuTree.Proofs.Tiling

A strict filling leaves no gap.

A tree whose ranges are arbitrary can be filled strictly only if its ranges fit: every
gap that is read runs forward, so neighbours come in order and children stay within
their branch. Behind the end of the source a slice is silently cut short, so a gap
there is filled too thinly without any complaint. That the tree ends within the source
is therefore a hypothesis of everything about tokens (`Fitted.exact`), and it reaches
the children from their parent, not the other way round.

The tree itself has to bring two things along (`Snug`): a branch that covers text has
children, and a sigil is followed by its body.
-/

namespace RakuTree

/-! ### Fillings -/

namespace Filling

variable {α : Type} {x : Filling α} {f : α → Filling α}

/-- A filling in two parts goes through when both parts do, and then has the value of the second one
(`andThen`). -/
theorem andThen_none (h : (x.andThen f).fault? = none) :
    x.fault? = none ∧ (f x.value).fault? = none ∧ (x.andThen f).value = (f x.value).value := by
  cases hx : x.fault? with
  | some e =>
      rw [andThen, hx, if_pos (by rfl), hx] at h
      exact nomatch h
  | none =>
      rw [andThen, hx, if_neg (by simp)] at h ⊢
      exact ⟨rfl, h, rfl⟩

/-- What `x` brings about and `f` keeps, both bring about by `andThen`, however far they get. -/
theorem andThen_value {P : α → Prop} (hx : P x.value) (hf : ∀ a, P a → P (f a).value) :
    P (x.andThen f).value := by
  rw [andThen]
  split
  · exact hx
  · exact hf _ hx

end Filling

/-! ### Filling a child list -/

namespace GapSource

section Forall

variable {α : Type} {g : GapSource} {ofLeaf : Leaf → α} {startOf endOf : α → Int} {P : α → Prop}
  (hleaf : ∀ a b, ∀ l ∈ (g.read a b).tokens, P (ofLeaf l))

include hleaf

/-- What holds of `ks` and of all layout holds of `ks` with the layout of a gap in front. -/
theorem fillBefore_forall (a b : Int) {ks : List α} (hks : ∀ k ∈ ks, P k) :
    ∀ k ∈ (g.fillBefore ofLeaf a b ks).value, P k := by
  intro k hk
  rcases List.mem_append.mp hk with hk | hk
  · obtain ⟨l, hl, rfl⟩ := List.mem_map.mp hk
    exact hleaf a b l hl
  · exact hks k hk

/-- What holds of `ks` and of all layout holds of `ks` with the gaps between them filled. -/
theorem fillBetween_forall {ks : List α} (hks : ∀ k ∈ ks, P k) :
    ∀ k ∈ (g.fillBetween ofLeaf startOf endOf ks).value, P k := by
  induction ks with
  | nil => exact hks
  | cons k ks ih =>
      obtain ⟨hk, hrest⟩ := List.forall_mem_cons.mp hks
      cases ks with
      | nil => exact hks
      | cons l ks =>
          refine List.forall_mem_cons.mpr ⟨hk, ?_⟩
          exact Filling.andThen_value (P := fun ls => ∀ k ∈ ls, P k) (ih hrest) fun ls hls =>
            fillBefore_forall hleaf _ _ hls

/-- What holds of `k :: ks` and of all layout holds of these nodes with all gaps of their parent
filled. -/
theorem fillList_forall (outer : Option (Int × Int)) {k : α} {ks : List α}
    (hks : ∀ l ∈ k :: ks, P l) :
    ∀ l ∈ (g.fillList ofLeaf startOf endOf outer k ks).value, P l := by
  have hinner : ∀ l ∈ (g.fillBetween ofLeaf startOf endOf (k :: ks)).value, P l :=
    fillBetween_forall hleaf hks
  cases outer with
  | none => exact hinner
  | some range =>
      have hbehind : ∀ all : List α, (∀ l ∈ all, P l) → ∀ l ∈ ((g.fillBefore ofLeaf
          (endOf ((k :: ks).getLast (by simp))) range.2 []).map (all ++ ·)).value, P l := by
        intro all hall l hl
        rcases List.mem_append.mp hl with hl | hl
        · exact hall l hl
        · exact fillBefore_forall hleaf _ _ (List.forall_mem_nil P) l hl
      refine Filling.andThen_value (P := fun ls => ∀ l ∈ ls, P l) ?_ fun ls hls =>
        fillBefore_forall hleaf _ _ hls
      exact Filling.andThen_value (P := fun ls => ∀ l ∈ ls, P l) hinner hbehind

end Forall

section Abut

variable {α : Type} {g : GapSource} {ofLeaf : Leaf → α} {startOf endOf : α → Int}

/-- Filling between neighbours, by `fillBetween`, keeps the last of them last. -/
theorem fillBetween_getLast? (ks : List α) :
    (g.fillBetween ofLeaf startOf endOf ks).value.getLast? = ks.getLast? := by
  induction ks with
  | nil => rfl
  | cons k ks ih =>
      cases ks with
      | nil => rfl
      | cons l ks =>
          have hlast : ((g.fillBetween ofLeaf startOf endOf (l :: ks)).andThen
              (g.fillBefore ofLeaf (endOf k) (startOf l))).value.getLast? = (l :: ks).getLast? := by
            refine Filling.andThen_value (P := fun ls : List α => ls.getLast? = (l :: ks).getLast?) ih ?_
            intro ls hls
            simp only [fillBefore, List.getLast?_append, hls, List.getLast?_cons, Option.some_or]
          rw [fillBetween, Filling.map, List.getLast?_cons, hlast]
          simp [List.getLast?_cons]

variable (hg : g.strict = true) (hstart : ∀ l, startOf (ofLeaf l) = l.span.start)
  (hend : ∀ l, endOf (ofLeaf l) = l.span.stop)

include hg hstart hend

theorem fillBefore_abut {a b : Int} {ks : List α}
    (h : (g.fillBefore ofLeaf a b ks).fault? = none) :
    a ≤ b ∧ ∀ c, b ≤ g.src.length → Abut startOf endOf b ks c →
      Abut startOf endOf a (g.fillBefore ofLeaf a b ks).value c := by
  obtain ⟨hab, htokens⟩ := read_abut hg (a := a) (b := b) h
  refine ⟨hab, fun c hb hks => ?_⟩
  have hlayout : Abut startOf endOf a ((g.read a b).tokens.map ofLeaf) b := by
    refine Abut.map ?_
    have hs : startOf ∘ ofLeaf = (·.span.start) := funext hstart
    have he : endOf ∘ ofLeaf = (·.span.stop) := funext hend
    rw [hs, he]
    exact htokens hb
  exact hlayout.append hks

/-- Neighbours that a strict `fillBetween` goes through come in order, and abut with their layout if
they end within the source. -/
theorem fillBetween_abut {k : α} {ks : List α} (hord : ∀ l ∈ k :: ks, startOf l ≤ endOf l)
    (h : (g.fillBetween ofLeaf startOf endOf (k :: ks)).fault? = none) :
    startOf k ≤ endOf ((k :: ks).getLast (by simp)) ∧
      (endOf ((k :: ks).getLast (by simp)) ≤ g.src.length →
        Abut startOf endOf (startOf k) (g.fillBetween ofLeaf startOf endOf (k :: ks)).value
          (endOf ((k :: ks).getLast (by simp)))) := by
  induction ks generalizing k with
  | nil => exact ⟨hord k List.mem_cons_self, fun _ => ⟨rfl, rfl⟩⟩
  | cons l ks ih =>
      -- gaps are filled from the last to the first: the one between `k` and `l` comes behind
      -- those of the rest
      obtain ⟨hk, hrest⟩ := List.forall_mem_cons.mp hord
      obtain ⟨hinner, hgap, hvalue⟩ := Filling.andThen_none h
      obtain ⟨hle, habut⟩ := ih hrest hinner
      obtain ⟨hkl, hfront⟩ := fillBefore_abut hg hstart hend hgap
      rw [List.getLast_cons (List.cons_ne_nil l ks)]
      refine ⟨by omega, fun hlen => ⟨rfl, ?_⟩⟩
      rw [hvalue]
      exact hfront _ (by omega) (habut hlen)

/-- The children of a branch from `a` to `b` that a strict `fillList` goes through stay within its
range, and abut with their layout from one end of it to the other if it ends within the source. -/
theorem fillList_abut {k : α} {ks : List α} {a b : Int} (hord : ∀ l ∈ k :: ks, startOf l ≤ endOf l)
    (h : (g.fillList ofLeaf startOf endOf (some (a, b)) k ks).fault? = none) :
    b ≤ g.src.length →
      Abut startOf endOf a (g.fillList ofLeaf startOf endOf (some (a, b)) k ks).value b := by
  intro hlen
  -- first the gaps between the children, then the one behind them, then the one in front
  obtain ⟨hboth, hfront, hvalue⟩ := Filling.andThen_none h
  obtain ⟨hinner, hbehind, hvalue'⟩ := Filling.andThen_none hboth
  obtain ⟨hle, habut⟩ := fillBetween_abut hg hstart hend hord hinner
  have hbehind : (g.fillBefore ofLeaf (endOf ((k :: ks).getLast (by simp))) b []).fault? = none :=
    hbehind
  obtain ⟨hback, hlast⟩ := fillBefore_abut hg hstart hend hbehind
  obtain ⟨_, hfirst⟩ := fillBefore_abut hg hstart hend hfront
  change Abut startOf endOf a (Filling.andThen _ _).value b
  rw [hvalue]
  refine hfirst b (by omega) ?_
  rw [hvalue']
  exact (habut (by omega)).append (hlast b hlen rfl)

end Abut

end GapSource

namespace Element

/-! ### Trees whose tokens tile -/

/-- The tokens start at `a`, follow each other without gap or overlap and end at `b`. -/
def Tiles (a : Int) (ts : List Element) (b : Int) : Prop := Abut start stop a ts b

/-- For every node of the tree `e`, its `tokens` tile exactly what it covers. -/
def Exact (e : Element) : Prop := ∀ b ∈ e.walk, Tiles b.start b.tokens b.outerEnd

theorem mem_walkList {b : Element} {ks : List Element} :
    b ∈ walkList ks ↔ ∃ k ∈ ks, b ∈ k.walk := by
  induction ks with
  | nil => simp [walkList]
  | cons k ks ih => simp [walkList, ih]

theorem mem_tokensList {t : Element} {ks : List Element} :
    t ∈ tokensList ks ↔ ∃ k ∈ ks, t ∈ k.tokens := by
  induction ks with
  | nil => simp [tokensList]
  | cons k ks ih => simp [tokensList, ih]

theorem self_mem_walk (e : Element) : e ∈ e.walk := by
  cases e <;> simp [walk]

/-- Tokens of children that abut and are `Exact` tile what the children cover. -/
theorem tiles_tokensList {a b : Int} {ks : List Element} (h : Abut start outerEnd a ks b)
    (hks : ∀ k ∈ ks, k.Exact) : Tiles a (tokensList ks) b := by
  induction ks generalizing a with
  | nil =>
      rw [tokensList]
      exact h
  | cons k ks ih =>
      obtain ⟨hk, hrest⟩ := List.forall_mem_cons.mp hks
      obtain ⟨rfl, habut⟩ := h
      rw [tokensList]
      exact Abut.append (hk k k.self_mem_walk) (ih habut hrest)

theorem leaf_start (l : Leaf) : (leaf l).start = l.span.start := rfl

theorem leaf_outerEnd (l : Leaf) : (leaf l).outerEnd = l.span.stop := by rw [outerEnd]

theorem leaf_exact (l : Leaf) : (leaf l).Exact := by
  intro b hb
  rw [walk, List.mem_singleton] at hb
  subst hb
  rw [tokens, outerEnd]
  exact ⟨rfl, rfl⟩

theorem bare_exact (s : Span) (o : Option String) : (bare s o).Exact := by
  intro b hb
  rw [walk, List.mem_singleton] at hb
  subst hb
  rw [tokens, outerEnd]
  exact ⟨rfl, rfl⟩

theorem branch_exact {c : BranchClass} {s : Span} {o : Option String} {ks : List Element}
    (h : Tiles s.start (tokensList ks) s.stop) (hks : ∀ k ∈ ks, k.Exact) :
    (branch c s o ks).Exact := by
  intro b hb
  rw [walk, List.mem_cons] at hb
  rcases hb with rfl | hb
  · rw [tokens, outerEnd]
    exact h
  · obtain ⟨k, hk, hb⟩ := mem_walkList.mp hb
    exact hks k hk b hb

theorem contextualizer_exact {i : Option Sigil} {s : Span} {t : Text} {o : Option String}
    {ks : List Element} (h : Tiles s.stop (tokensList ks) (lastEnd s.stop ks))
    (hks : ∀ k ∈ ks, k.Exact) : (contextualizer i s t o ks).Exact := by
  intro b hb
  rw [walk, List.mem_cons] at hb
  rcases hb with rfl | hb
  · rw [tokens, outerEnd]
    exact ⟨rfl, h⟩
  · obtain ⟨k, hk, hb⟩ := mem_walkList.mp hb
    exact hks k hk b hb

/-- In an `Exact` tree, a branch spans exactly its tokens. -/
theorem Exact.spans {e b : Element} (he : e.Exact) {c : BranchClass} {s : Span}
    {o : Option String} {ks : List Element} (hb : b ∈ e.walk) (heq : b = branch c s o ks) :
    (∀ t ∈ b.tokens.head?, t.start = b.start) ∧ ∀ t ∈ b.tokens.getLast?, t.stop = b.stop := by
  have htiles := he b hb
  have hend : b.outerEnd = b.stop := by
    rw [heq, outerEnd]
    rfl
  rw [hend] at htiles
  exact ⟨fun t ht => htiles.head ht, fun t ht => htiles.last ht⟩

/-! ### Strict fillings -/

/-- Every branch that covers text has children, and the body of a sigil starts where the sigil ends.
This is what `fill_fitted` needs of a tree. -/
inductive Snug : Element → Prop
  /-- A token is `Snug`. -/
  | leaf {l : Leaf} : Snug (.leaf l)
  /-- A node of no kind is `Snug`. -/
  | bare {s : Span} {o : Option String} : Snug (.bare s o)
  /-- A branch is `Snug` if it has children or covers nothing, and its children are `Snug`. -/
  | branch {c : BranchClass} {s : Span} {o : Option String} {ks : List Element}
      (h : ks = [] → s.start = s.stop) (hks : ∀ k ∈ ks, Snug k) : Snug (.branch c s o ks)
  /-- A contextualizer is `Snug` if its body starts behind its sigil, and its children are `Snug`.
  -/
  | contextualizer {i : Option Sigil} {s : Span} {t : Text} {o : Option String}
      {ks : List Element} (h : firstStart s.stop ks = s.stop) (hks : ∀ k ∈ ks, Snug k) :
      Snug (.contextualizer i s t o ks)

/-- A filled node that runs forward and, if it ends within a source of length `n`, is
exact. -/
structure Fitted (n : Int) (e : Element) : Prop where
  /-- The node `e` does not end before it starts. -/
  ordered : e.start ≤ e.outerEnd
  /-- If `e` ends within the first `n` characters, its tokens tile it. -/
  exact : e.outerEnd ≤ n → e.Exact

theorem leaf_fitted (n : Int) (l : Leaf) : (leaf l).Fitted n := by
  refine ⟨?_, fun _ => leaf_exact l⟩
  rw [outerEnd]
  exact l.span.ordered

/-- Filling by `fill` keeps the range of a node. -/
theorem fill_span (g : GapSource) (e : Element) : (e.fill g).value.span = e.span := by
  cases e <;> simp [fill, Filling.done, Filling.map, span]

/-- Filling by `fillEach` keeps the ranges of a row of nodes. -/
theorem fillEach_spans (g : GapSource) (ks : List Element) :
    (fillEach g ks).value.map span = ks.map span := by
  induction ks with
  | nil => rw [fillEach, Filling.done]
  | cons k ks ih =>
      rw [fillEach]
      split
      · simp [Filling.map, fill_span]
      · simp [fill_span, ih]

theorem firstStart_eq_of_spans {d : Int} {ks ls : List Element} (h : ks.map span = ls.map span) :
    firstStart d ks = firstStart d ls := by
  cases ks with
  | nil =>
      rw [List.map_nil, eq_comm, List.map_eq_nil_iff] at h
      rw [h]
  | cons k ks =>
      cases ls with
      | nil => exact nomatch h
      | cons l ls =>
          have hspan : k.span = l.span := (List.cons.inj h).1
          simp only [firstStart, start, hspan]

theorem lastEnd_eq_getLast (d : Int) (k : Element) (ks : List Element) :
    lastEnd d (k :: ks) = ((k :: ks).getLast (by simp)).outerEnd := by
  induction ks generalizing d k with
  | nil => simp
  | cons l ks ih => rw [lastEnd_cons, ih, List.getLast_cons (List.cons_ne_nil l ks)]

theorem lastEnd_eq_of_getLast? {d : Int} {ks ls : List Element} (h : ks.getLast? = ls.getLast?) :
    lastEnd d ks = lastEnd d ls := by
  cases ks with
  | nil =>
      rw [List.getLast?_nil, eq_comm, List.getLast?_eq_none_iff] at h
      rw [h]
  | cons k ks =>
      cases ls with
      | nil => simp at h
      | cons l ls =>
          rw [lastEnd_eq_getLast, lastEnd_eq_getLast]
          rw [List.getLast?_eq_some_getLast (by simp), List.getLast?_eq_some_getLast (by simp)] at h
          rw [Option.some.inj h]

section Strict

variable {g : GapSource} (hg : g.strict = true)

include hg

/-- A branch around `Fitted` children is `Fitted` when its gaps are filled. -/
theorem fillSiblings_branch_fitted {c : BranchClass} {s : Span} {o : Option String}
    {ks : List Element} (hempty : ks = [] → s.start = s.stop)
    (hks : ∀ k ∈ ks, k.Fitted g.src.length)
    (h : (fillSiblings g (some (s.start, s.stop)) ks).fault? = none) :
    (branch c s o (fillSiblings g (some (s.start, s.stop)) ks).value).Fitted g.src.length := by
  refine ⟨?_, ?_⟩
  · rw [outerEnd]
    exact s.ordered
  · rw [outerEnd]
    intro hlen
    cases ks with
    | nil =>
        refine branch_exact ?_ fun k hk => nomatch hk
        simpa [fillSiblings, Filling.done, Tiles, Abut] using hempty rfl
    | cons k ks =>
        rw [fillSiblings] at h ⊢
        have habut := GapSource.fillList_abut hg leaf_start leaf_outerEnd
          (fun l hl => (hks l hl).ordered) h hlen
        have hall : ∀ l ∈ (g.fillList leaf start outerEnd (some (s.start, s.stop)) k ks).value,
            l.Fitted g.src.length :=
          GapSource.fillList_forall (fun _ _ l _ => leaf_fitted _ l) _ hks
        -- the children end within the branch, so within the source
        have hends := (habut.le_end fun l hl => (hall l hl).ordered).2
        have hexact : ∀ l ∈ (g.fillList leaf start outerEnd (some (s.start, s.stop)) k ks).value,
            l.Exact := fun l hl => (hall l hl).exact (Int.le_trans (hends l hl) hlen)
        exact branch_exact (tiles_tokensList habut hexact) hexact

/-- A sigil in front of a `Fitted` body is `Fitted` when the gaps of its body are filled. -/
theorem fillSiblings_contextualizer_fitted {i : Option Sigil} {s : Span} {t : Text}
    {o : Option String} {ks : List Element} (hfirst : firstStart s.stop ks = s.stop)
    (hks : ∀ k ∈ ks, k.Fitted g.src.length) (h : (fillSiblings g none ks).fault? = none) :
    (contextualizer i s t o (fillSiblings g none ks).value).Fitted g.src.length := by
  cases ks with
  | nil =>
      have hvalue : (fillSiblings g none []).value = [] := rfl
      rw [hvalue]
      refine ⟨?_, fun _ => contextualizer_exact ?_ fun k hk => nomatch hk⟩
      · rw [outerEnd, lastEnd_nil]
        exact s.ordered
      · rw [tokensList_nil, lastEnd_nil]
        exact rfl
  | cons k ks =>
      rw [fillSiblings] at h ⊢
      change (contextualizer i s t o (g.fillBetween leaf start outerEnd (k :: ks)).value).Fitted _
      obtain ⟨hle, habut⟩ := GapSource.fillBetween_abut hg leaf_start
        leaf_outerEnd (fun l hl => (hks l hl).ordered) h
      have hall : ∀ l ∈ (g.fillBetween leaf start outerEnd (k :: ks)).value,
          l.Fitted g.src.length :=
        GapSource.fillBetween_forall (fun _ _ l _ => leaf_fitted _ l) hks
      have hlast : lastEnd s.stop (g.fillBetween leaf start outerEnd (k :: ks)).value =
          ((k :: ks).getLast (by simp)).outerEnd := by
        rw [← lastEnd_eq_getLast s.stop]
        exact lastEnd_eq_of_getLast? (GapSource.fillBetween_getLast? _)
      -- nothing is read between a sigil and its body, so the body has to start in place
      have hk : k.start = s.stop := hfirst
      refine ⟨?_, ?_⟩
      · rw [outerEnd, hlast]
        have hs : s.start ≤ s.stop := s.ordered
        change s.start ≤ _
        omega
      · rw [outerEnd, hlast]
        intro hlen
        have habut := habut hlen
        have hends := (habut.le_end fun l hl => (hall l hl).ordered).2
        have hexact : ∀ l ∈ (g.fillBetween leaf start outerEnd (k :: ks)).value, l.Exact :=
          fun l hl => (hall l hl).exact (Int.le_trans (hends l hl) hlen)
        refine contextualizer_exact ?_ hexact
        rw [hlast, ← hk]
        exact tiles_tokensList habut hexact

end Strict

mutual

/-- A `Snug` tree that a strict filling goes through is `Fitted`. -/
theorem fill_fitted {g : GapSource} (hg : g.strict = true) {e : Element} (he : e.Snug)
    (h : (e.fill g).fault? = none) : (e.fill g).value.Fitted g.src.length := by
  cases e with
  | leaf l =>
      rw [fill]
      exact leaf_fitted _ l
  | bare s o =>
      rw [fill]
      exact ⟨by rw [Filling.done, outerEnd]; exact s.ordered, fun _ => bare_exact s o⟩
  | branch c s o ks =>
      rw [fill] at h ⊢
      replace h : ((fillEach g ks).andThen (fillSiblings g (some (s.start, s.stop)))).fault? = none := h
      obtain ⟨heach, hgaps, hvalue⟩ := Filling.andThen_none h
      cases he with
      | branch hempty hks =>
          have hfitted := fillEach_fitted hg hks heach
          have hnil : (fillEach g ks).value = [] → s.start = s.stop := by
            intro hnil
            have hspans := fillEach_spans g ks
            rw [hnil, List.map_nil, eq_comm, List.map_eq_nil_iff] at hspans
            exact hempty hspans
          have hfit := fillSiblings_branch_fitted hg (c := c) (o := o) hnil hfitted hgaps
          rw [← hvalue] at hfit
          exact hfit
  | contextualizer i s t o ks =>
      rw [fill] at h ⊢
      replace h : ((fillEach g ks).andThen (fillSiblings g none)).fault? = none := h
      obtain ⟨heach, hgaps, hvalue⟩ := Filling.andThen_none h
      cases he with
      | contextualizer hfirst hks =>
          have hfitted := fillEach_fitted hg hks heach
          have hstart : firstStart s.stop (fillEach g ks).value = s.stop :=
            (firstStart_eq_of_spans (fillEach_spans g ks)).trans hfirst
          have hfit := fillSiblings_contextualizer_fitted hg (i := i) (t := t) (o := o) hstart
            hfitted hgaps
          rw [← hvalue] at hfit
          exact hfit

theorem fillEach_fitted {g : GapSource} (hg : g.strict = true) {ks : List Element}
    (hks : ∀ k ∈ ks, k.Snug) (h : (fillEach g ks).fault? = none) :
    ∀ k ∈ (fillEach g ks).value, k.Fitted g.src.length := by
  cases ks with
  | nil =>
      rw [fillEach]
      exact fun k hk => nomatch hk
  | cons k ks =>
      obtain ⟨hk, hrest⟩ := List.forall_mem_cons.mp hks
      rw [fillEach] at h ⊢
      cases hx : (k.fill g).fault? with
      | some e =>
          simp only [hx, Option.isSome_some, if_true, Filling.map] at h
          exact nomatch h
      | none =>
          simp only [hx, Option.isSome_none, Bool.false_eq_true, if_false] at h ⊢
          exact List.forall_mem_cons.mpr ⟨fill_fitted hg hk hx, fillEach_fitted hg hrest h⟩

end

end Element

end RakuTree
