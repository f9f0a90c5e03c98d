import RakuTree.Proofs.Document

/-!
# RakuTree.Proofs.RoundTrip

A document has the text of its source.

Most leaves are cut out of the source where they stand, whatever the match. The others
rest on what a grammar promises about its matches (`Trusted`): ranges lie within the
source, the parts of a variable stand one behind the other, a capture starts with its
backslash. Given that, every token of the document carries the source text of its range
(`Faithful`), and since the tokens of a strict build tile the source, their texts in a
row are the source.
-/

namespace RakuTree

open Element

/-! ### Trees that carry the source -/

namespace Element

/-- Every token of the tree carries the text that `src` has in its range. -/
inductive Faithful (src : Text) : Element → Prop
  /-- A leaf is `Faithful` if it stands in the source. -/
  | leaf {l : Leaf} (h : l.StandsIn src) : Faithful src (.leaf l)
  /-- A branch carries no text of its own: it is `Faithful` if its children are. -/
  | branch {c : BranchClass} {s : Span} {o : Option String} {ks : List Element}
      (hks : ∀ k ∈ ks, Faithful src k) : Faithful src (.branch c s o ks)
  /-- A contextualizer is `Faithful` if its sigil stands in the source, and its children are
  `Faithful`. -/
  | contextualizer {i : Option Sigil} {s : Span} {t : Text} {o : Option String}
      {ks : List Element} (ht : t = Text.slice src s.start s.stop)
      (hks : ∀ k ∈ ks, Faithful src k) : Faithful src (.contextualizer i s t o ks)

variable {src : Text}

/-- The gaps around `Faithful` nodes are filled with `Faithful` layout. -/
theorem fillSiblings_faithful {g : GapSource} (outer : Option (Int × Int)) {ks : List Element}
    (hks : ∀ k ∈ ks, k.Faithful g.src) : ∀ k ∈ (fillSiblings g outer ks).value, k.Faithful g.src := by
  cases ks with
  | nil => exact hks
  | cons k ks =>
      rw [fillSiblings]
      exact GapSource.fillList_forall (fun a b l hl => .leaf (g.read_standsIn a b l hl)) outer hks

mutual

/-- Filling by `fill` keeps a tree `Faithful`, however far it gets. -/
theorem fill_faithful {g : GapSource} {e : Element} (he : e.Faithful g.src) :
    (e.fill g).value.Faithful g.src := by
  cases e with
  | leaf l =>
      rw [fill]
      exact he
  | bare s o => cases he
  | branch c s o ks =>
      cases he with
      | branch hks =>
          rw [fill]
          refine .branch (Filling.andThen_value (P := fun ls => ∀ k ∈ ls, Faithful g.src k) ?_ ?_)
          · exact fillEach_faithful hks
          · exact fun ls hls => fillSiblings_faithful _ hls
  | contextualizer i s t o ks =>
      cases he with
      | contextualizer ht hks =>
          rw [fill]
          refine .contextualizer ht
            (Filling.andThen_value (P := fun ls => ∀ k ∈ ls, Faithful g.src k) ?_ ?_)
          · exact fillEach_faithful hks
          · exact fun ls hls => fillSiblings_faithful _ hls

theorem fillEach_faithful {g : GapSource} {ks : List Element} (hks : ∀ k ∈ ks, k.Faithful g.src) :
    ∀ k ∈ (fillEach g ks).value, k.Faithful g.src := by
  cases ks with
  | nil =>
      rw [fillEach]
      exact hks
  | cons k ks =>
      obtain ⟨hk, hrest⟩ := List.forall_mem_cons.mp hks
      rw [fillEach]
      split
      · exact List.forall_mem_cons.mpr ⟨fill_faithful hk, hrest⟩
      · exact List.forall_mem_cons.mpr ⟨fill_faithful hk, fillEach_faithful hrest⟩

end

/-- The tokens of a `Faithful` tree carry the source text of their ranges. -/
theorem Faithful.content {e : Element} (he : e.Faithful src) :
    ∀ t ∈ e.tokens, t.content? = some (Text.slice src t.start t.stop) := by
  induction he with
  | leaf h =>
      intro t ht
      rw [tokens, List.mem_singleton] at ht
      subst ht
      exact congrArg some h.content_eq
  | branch _ ih =>
      intro t ht
      rw [tokens] at ht
      obtain ⟨k, hk, ht⟩ := mem_tokensList.mp ht
      exact ih k hk t ht
  | contextualizer hs _ ih =>
      intro t ht
      rw [tokens, List.mem_cons] at ht
      rcases ht with rfl | ht
      · exact congrArg some hs
      · obtain ⟨k, hk, ht⟩ := mem_tokensList.mp ht
        exact ih k hk t ht

/-- The texts of children in a row, when each has the text that `f` gives its tokens. -/
theorem textList?_of_forall {f : Element → Text} {ks : List Element}
    (h : ∀ k ∈ ks, k.text? = some (k.tokens.flatMap f)) :
    textList? ks = some ((tokensList ks).flatMap f) := by
  induction ks with
  | nil =>
      rw [textList?, tokensList]
      rfl
  | cons k ks ih =>
      obtain ⟨hk, hrest⟩ := List.forall_mem_cons.mp h
      rw [textList?, tokensList, hk, ih hrest, List.flatMap_append]
      rfl

/-- The text of a `Faithful` tree is what its tokens cover of the source, in a row. -/
theorem Faithful.text {e : Element} (he : e.Faithful src) :
    e.text? = some (e.tokens.flatMap fun t => Text.slice src t.start t.stop) := by
  induction he with
  | leaf h =>
      rw [text?, tokens, List.flatMap_singleton, h.content_eq]
      rfl
  | branch _ ih => rw [text?, tokens, textList?_of_forall ih]
  | contextualizer hs _ ih =>
      rw [text?, tokens, textList?_of_forall ih, Option.map_some, List.flatMap_cons, hs]
      rfl

/-- Tokens that tile a stretch of the source, from `a` to `b`, cover its text. -/
theorem Tiles.flatMap_slice {a b : Int} {ts : List Element} (h : Tiles a ts b) (ha : 0 ≤ a) :
    a ≤ b ∧ ts.flatMap (fun t => Text.slice src t.start t.stop) = Text.slice src a b := by
  induction ts generalizing a with
  | nil =>
      cases h
      exact ⟨Int.le_refl _, (Text.slice_self src ha).symm⟩
  | cons t ts ih =>
      obtain ⟨rfl, htiles⟩ := h
      have hordered : t.start ≤ t.stop := t.span.ordered
      obtain ⟨hle, hrest⟩ := ih htiles (Int.le_trans ha hordered)
      refine ⟨Int.le_trans hordered hle, ?_⟩
      rw [List.flatMap_cons, hrest, Text.slice_append ha hordered hle]

mutual

/-- Nothing ends below zero, not even by `outerEnd`. -/
theorem outerEnd_nonneg (e : Element) : 0 ≤ e.outerEnd := by
  cases e with
  | leaf l =>
      rw [outerEnd]
      exact Int.le_trans l.span.nonneg l.span.ordered
  | branch c s o ks =>
      rw [outerEnd]
      exact Int.le_trans s.nonneg s.ordered
  | contextualizer i s t o ks =>
      rw [outerEnd]
      exact lastEnd_nonneg (Int.le_trans s.nonneg s.ordered) ks
  | bare s o =>
      rw [outerEnd]
      exact Int.le_trans s.nonneg s.ordered

theorem lastEnd_nonneg {d : Int} (hd : 0 ≤ d) (ks : List Element) : 0 ≤ lastEnd d ks := by
  cases ks with
  | nil =>
      rw [lastEnd_nil]
      exact hd
  | cons k ks =>
      rw [lastEnd_cons]
      exact lastEnd_nonneg (outerEnd_nonneg k) ks

end

end Element

/-! ### Matches that can be trusted -/

namespace Match

/-- The matches that `m` holds directly: under the names of its captures, and as operands. -/
def parts (m : Match) : List m.Inner :=
  (m.named.flatMap fun entry => m.inners entry.1) ++ m.innerOperands

/-- The match `m` and all matches inside it. -/
def tree (m : Match) : List Match := m :: m.parts.flatMap fun c => tree c.val
termination_by sizeOf m
decreasing_by exact c.inside.sizeOf_lt

theorem mem_tree_of_part {m d : Match} {c : m.Inner} (hc : c ∈ m.parts) (hd : d ∈ c.val.tree) :
    d ∈ m.tree := by
  rw [tree]
  exact List.mem_cons_of_mem _ (List.mem_flatMap.mpr ⟨c, hc, hd⟩)

theorem self_mem_tree (m : Match) : m ∈ m.tree := by
  rw [tree]
  exact List.mem_cons_self

/-- The tree of a match holds the trees of all matches in it: `tree` is transitive. -/
theorem tree_subset {m c : Match} (hc : c ∈ m.tree) : c.tree ⊆ m.tree := by
  induction m using Match.inner_induction with
  | step m ih =>
      rw [tree, List.mem_cons] at hc
      rcases hc with rfl | hc
      · exact List.Subset.refl _
      · obtain ⟨b, hb, hc⟩ := List.mem_flatMap.mp hc
        intro d hd
        exact mem_tree_of_part hb (ih b hc hd)

/-- Everything `Inside` a match is in its `tree`. -/
theorem Inside.mem_tree {d m : Match} (h : d.Inside m) : d ∈ m.tree := by
  induction h with
  | @capture m c key h =>
      -- captures are looked up by key, and the parts are those of all keys
      have hkey : ∃ v, (key, v) ∈ m.named := by
        cases hk : m.named.lookup key with
        | none =>
            rw [captures, hk] at h
            exact absurd h List.not_mem_nil
        | some v =>
            obtain ⟨front, back, hnamed, -⟩ := List.lookup_eq_some_iff.mp hk
            exact ⟨v, by simp [hnamed]⟩
      obtain ⟨v, hv⟩ := hkey
      have hpart : (⟨c, .capture h⟩ : m.Inner) ∈ m.parts := by
        refine List.mem_append_left _ (List.mem_flatMap.mpr ⟨(key, v), hv, ?_⟩)
        exact List.mem_map.mpr ⟨⟨c, h⟩, List.mem_attach _ _, rfl⟩
      exact mem_tree_of_part hpart (self_mem_tree c)
  | @operand m c h =>
      have hpart : (⟨c, .operand h⟩ : m.Inner) ∈ m.parts :=
        List.mem_append_right _ (List.mem_map.mpr ⟨⟨c, h⟩, List.mem_attach _ _, rfl⟩)
      exact mem_tree_of_part hpart (self_mem_tree c)
  | trans _ _ ihd ihc => exact tree_subset ihc ihd

end Match

/-- What a grammar promises about the match `m` of a source when the productions in `ran`
run on matches of its tree. -/
structure Trusted (src : Text) (ran : List (Production × Match)) (m : Match) : Prop where
  /-- All matches in the tree of `m` lie within the source. -/
  range : ∀ d ∈ m.tree, 0 ≤ d.start ∧ d.start ≤ d.stop ∧ d.stop ≤ src.length
  /-- The parts of a variable that a production in `ran` puts together stand one behind the other,
  from the first character of its match on that is no whitespace. -/
  rebuilt : ∀ r ∈ ran, ∀ s ∈ rebuiltVariable? src r.1 r.2,
    Text.StandsAt src (r.2.start + Text.leadingSpace (r.2.text src)).toNat s
  /-- A `capterm` starts with its backslash. -/
  backslash : ∀ r ∈ ran, r.1 = .capterm → ['\\'] <+: r.2.text src

section Trusted

variable {src : Text} {ran : List (Production × Match)} {m : Match}

/-- A leaf with the text and the range of a match `d` within the source stands there. -/
theorem covering_standsIn {l : Leaf} {d : Match}
    (hrange : 0 ≤ d.start ∧ d.start ≤ d.stop ∧ d.stop ≤ src.length)
    (hstart : l.span.start = d.start) (hstop : l.span.stop = d.stop)
    (hcontent : l.content = d.text src) : l.StandsIn src := by
  obtain ⟨h0, hle, hlen⟩ := hrange
  refine ⟨?_, ?_⟩
  · rw [hstart, hcontent]
    exact Text.standsAt_slice h0 _
  · rw [hstart, hstop, hcontent, Match.text, Text.length_slice h0 hle hlen]
    omega

/-- Counting back from the end of a match `d` within the source comes to where its trimmed text
starts. -/
theorem sign_standsIn {l : Leaf} {d : Match} {c : Char} {rest : Text}
    (hrange : 0 ≤ d.start ∧ d.start ≤ d.stop ∧ d.stop ≤ src.length)
    (htext : Text.trimLeft (d.text src) = c :: rest)
    (hl : l.PlacedAt (d.stop - (c :: rest).length) [c]) : l.StandsIn src := by
  obtain ⟨h0, hle, hlen⟩ := hrange
  have hdrop : (d.text src).drop (Text.leadingSpace (d.text src)) = c :: rest := by
    rw [← Text.trimLeft_eq_drop, htext]
  have hwidth : ((d.text src).length : Int) = d.stop - d.start :=
    Text.length_slice h0 hle hlen
  have hlength : (d.text src).length - Text.leadingSpace (d.text src) = (c :: rest).length := by
    rw [← List.length_drop, hdrop]
  have hplace : (d.stop - (c :: rest).length).toNat =
      d.start.toNat + Text.leadingSpace (d.text src) := by
    have hpos : 0 < (c :: rest).length := Nat.succ_pos _
    omega
  refine hl.standsIn ?_
  rw [hplace]
  refine (Text.standsAt_slice h0 d.stop).drop ?_
  change [c] <+: (d.text src).drop _
  rw [hdrop]
  exact ⟨rest, rfl⟩

/-- What rules make of a `Trusted` match is `Faithful`. -/
theorem Made.faithful (htrust : Trusted src ran m)
    (hran : ∀ p d, (p, d) ∈ ran → d ∈ m.tree) {e : Element}
    (h : Made src (fun p d => (p, d) ∈ ran) e) : e.Faithful src := by
  induction h with
  | leaf hl => exact .leaf hl
  | quote hm hstart hstop hcontent =>
      exact .leaf (covering_standsIn (htrust.range _ (hran _ _ hm)) hstart hstop hcontent)
  | sign hm htext hl => exact .leaf (sign_standsIn (htrust.range _ (hran _ _ hm)) htext hl)
  | rebuilt hm hs hl => exact .leaf (hl.standsIn (htrust.rebuilt _ hm _ hs))
  | @backslash d l hm hl =>
      obtain ⟨h0, -, -⟩ := htrust.range _ (hran _ _ hm)
      have hfront : ['\\'] <+: d.text src := htrust.backslash _ hm rfl
      exact .leaf (hl.standsIn ((Text.standsAt_slice h0 d.stop).shorten hfront))
  | @imaginary n p l _ _ hi hnp hl hn hp =>
      cases hn with
      | leaf hn =>
          cases hp with
          | leaf hp =>
              -- the postfix starts where the number ends, so the two stand in a row
              refine .leaf (hl.standsIn (hn.stands.append ?_))
              have hnext : n.span.start.toNat + n.content.length = p.span.start.toNat := by
                have hwidth := hn.width
                have h0 := n.span.nonneg
                omega
              rw [hnext, ← hi]
              exact hp.stands
  | branch _ _ ih => exact .branch ih
  | contextualizer _ _ hstart hstop _ _ ih =>
      refine .contextualizer ?_ ih
      rw [hstart, hstop]
      rfl

end Trusted

namespace Document

variable {src : Text} {options : Options} {m : Match}

/-- A document that is built of a `Trusted` match is `Faithful`. -/
theorem build_faithful {s t : BuildState} {doc : Element}
    (htrust : Trusted src (runs src options .top m s) m)
    (h : (build src options m).run s = .ok doc t) : doc.Faithful src := by
  obtain ⟨statements, docs, leading, atLine, trailing, hmade, hleading, -, htrailing, -, root, hroot,
    -, rfl⟩ := build_ok h
  have hstop : 0 ≤ lastEnd src.length statements := lastEnd_nonneg (Int.natCast_nonneg _) statements
  have hlead : ∀ l ∈ leading.tokens, l.StandsIn src := by
    rw [hleading]
    exact Layout.scan_standsIn (Int.le_refl 0) (Text.standsAt_slice (Int.le_refl 0) _)
  have htrail : ∀ l ∈ trailing.tokens, l.StandsIn src := by
    rw [htrailing]
    exact Layout.scan_standsIn hstop (Text.standsAt_sliceFrom hstop)
  refine fill_faithful (g := ⟨src, docs, options.strictGaps⟩) ?_
  rw [hroot]
  refine .branch fun e he => ?_
  simp only [List.mem_append, List.mem_map] at he
  rcases he with (⟨l, hl, rfl⟩ | he) | ⟨l, hl, rfl⟩
  · exact .leaf (hlead l hl)
  · refine (hmade e he).faithful htrust fun p d hd => ?_
    rcases runs_within hd with rfl | hd
    · exact Match.self_mem_tree _
    · exact hd.mem_tree
  · exact .leaf (htrail l hl)

/-- **Round trip.** If a strict build returns a document for a `Trusted` match, every token carries
the source text of its range, and the text of the document is the source. -/
theorem strict_build_text_eq_source {s t : BuildState} {doc : Element}
    (htrust : Trusted src (runs src options .top m s) m) (hstrict : options.strictGaps = true)
    (h : (build src options m).run s = .ok doc t) :
    (∀ tk ∈ doc.tokens, tk.content? = some (Text.slice src tk.start tk.stop)) ∧
      doc.text? = some src := by
  have htiles := (build_exact hstrict h).2
  have hfaithful := build_faithful htrust h
  refine ⟨hfaithful.content, ?_⟩
  rw [hfaithful.text, (htiles.flatMap_slice (Int.le_refl 0)).2, Text.slice_all]

theorem sample_text_eq_source :
    Trusted sampleSource (runs sampleSource { strictGaps := true } .top sampleMatch {}) sampleMatch ∧
      ∃ doc t, (build sampleSource { strictGaps := true } sampleMatch).run {} = .ok doc t ∧
        (∀ tk ∈ doc.tokens, tk.content? = some (Text.slice sampleSource tk.start tk.stop)) ∧
        doc.text? = some sampleSource := by
  have htrust : Trusted sampleSource
      (runs sampleSource { strictGaps := true } .top sampleMatch {}) sampleMatch := by
    constructor
    · decide +kernel
    · decide +kernel
    · decide +kernel
  have hreturned : returned
      ((build sampleSource { strictGaps := true } sampleMatch).run {}) = true := by
    decide +kernel
  obtain ⟨doc, t, h⟩ := exists_of_returned hreturned
  exact ⟨htrust, doc, t, h, strict_build_text_eq_source htrust rfl h⟩

end Document

end RakuTree
