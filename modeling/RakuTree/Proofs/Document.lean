import RakuTree.Proofs.Made.Build
import RakuTree.Proofs.Tiling
import RakuTree.Document
import RakuTree.Match.Sketch

/-!
# RakuTree.Proofs.Document

Documents of strict builds have no gaps.

A build that returns made statements by rules, read the layout in front of them and
behind them, and filled the tree of both (`build_ok`). Rules make snug elements only,
so the filling vouches for the tiling: whatever the offsets of the match, a document
that a strict build returns is covered by its tokens from the first to the last
character.
-/

namespace RakuTree

open Element

/-- What rules make is `Snug`: they only make branches with children, and bodies that start behind
their sigil. -/
theorem Made.snug {src : Text} {ran : Production → Match → Prop} {e : Element}
    (h : Made src ran e) : e.Snug := by
  induction h with
  | leaf _ => exact .leaf
  | quote _ _ _ _ => exact .leaf
  | sign _ _ _ => exact .leaf
  | rebuilt _ _ _ => exact .leaf
  | backslash _ _ => exact .leaf
  | imaginary _ _ _ _ _ => exact .leaf
  | branch _ hne ih => exact .branch (fun h => absurd h hne) ih
  | contextualizer _ _ _ _ hk _ ih => exact .contextualizer hk ih

namespace Document

variable {src : Text} {options : Options} {m : Match}

theorem tokensOf_ok {r : Layout.Reading} {s t : BuildState} {ts : List Element}
    (h : (tokensOf r).run s = .ok ts t) : r.fault? = none ∧ ts = r.tokens.map leaf := by
  obtain ⟨_, u, _, h⟩ := Build.bind_ok h
  cases hr : r.fault? with
  | some e =>
      rw [hr] at h
      exact nomatch h
  | none =>
      rw [hr] at h
      cases h
      exact ⟨rfl, rfl⟩

theorem valueOf_ok {α : Type} {x : Filling α} {s t : BuildState} {a : α}
    (h : (valueOf x).run s = .ok a t) : x.fault? = none ∧ a = x.value := by
  obtain ⟨_, u, _, h⟩ := Build.bind_ok h
  cases hx : x.fault? with
  | some e =>
      rw [hx] at h
      exact nomatch h
  | none =>
      rw [hx] at h
      cases h
      exact ⟨rfl, rfl⟩

/-- What a build that returns came to: statements that are `MadeAll`, layout around them, and a
filling of the whole that went through. -/
theorem build_ok {s t : BuildState} {doc : Element} (h : (build src options m).run s = .ok doc t) :
    ∃ statements docs leading atLine trailing,
      MadeAll src (fun p d => (p, d) ∈ runs src options .top m s) statements ∧
      leading = Layout.scan docs options.strictGaps 0 true
        (Text.slice src 0 (firstStart src.length statements)) ∧ leading.fault? = none ∧
      trailing = Layout.scan docs options.strictGaps (lastEnd src.length statements) atLine
        (Text.sliceFrom src (lastEnd src.length statements)) ∧ trailing.fault? = none ∧
      ∃ root, root = branch .document (Span.ofText 0 src) (some Production.top.key)
          (leading.tokens.map leaf ++ statements ++ trailing.tokens.map leaf) ∧
        (root.fill ⟨src, docs, options.strictGaps⟩).fault? = none ∧
        doc = (root.fill ⟨src, docs, options.strictGaps⟩).value := by
  rw [build] at h
  obtain ⟨statements, _, hstatements, h⟩ := Build.bind_ok h
  obtain ⟨st, _, _, h⟩ := Build.bind_ok h
  obtain ⟨leading, _, hleading, h⟩ := Build.bind_ok h
  obtain ⟨atLine, _, _, h⟩ := Build.bind_ok h
  obtain ⟨trailing, _, htrailing, h⟩ := Build.bind_ok h
  obtain ⟨document, _, hdocument, h⟩ := Build.bind_ok h
  obtain ⟨_, _, _, h⟩ := Build.bind_ok h
  obtain ⟨hlead, rfl⟩ := tokensOf_ok hleading
  obtain ⟨htrail, rfl⟩ := tokensOf_ok htrailing
  obtain ⟨hfill, rfl⟩ := valueOf_ok hdocument
  cases h
  exact ⟨statements, st.ledger.hereDocs, _, atLine, _, (produce_made options .top m s).of_ok hstatements,
    rfl, hlead, rfl, htrail, _, rfl, hfill, rfl⟩

/-- The tree of a document before it is filled is `Snug`: there is no text without statements and
layout. -/
theorem root_snug {leading : List Leaf} (trailing : List Leaf) {statements : List Element}
    (hstatements : ∀ e ∈ statements, e.Snug)
    (hleading : Abut (·.span.start) (·.span.stop) 0 leading
      (0 + (Text.slice src 0 (firstStart src.length statements)).length)) :
    (branch .document (Span.ofText 0 src) (some Production.top.key)
      (leading.map leaf ++ statements ++ trailing.map leaf)).Snug := by
  refine .branch (fun hempty => ?_) fun e he => ?_
  · -- without statements the layout in front is all of the source
    obtain ⟨hfront, -⟩ := List.append_eq_nil_iff.mp hempty
    obtain ⟨htokens, rfl⟩ := List.append_eq_nil_iff.mp hfront
    rw [List.map_eq_nil_iff.mp htokens] at hleading
    have hlen : (0 : Int) = 0 + (Text.slice src 0 src.length).length := hleading
    rw [Text.length_slice (Int.le_refl 0) (by omega) (Int.le_refl _)] at hlen
    simpa [Span.ofText] using hlen
  · simp only [List.mem_append, List.mem_map] at he
    rcases he with (⟨l, -, rfl⟩ | he) | ⟨l, -, rfl⟩
    · exact .leaf
    · exact hstatements e he
    · exact .leaf

/-- A document that a strict build returns is `Exact`, and its tokens tile the source. -/
theorem build_exact (hstrict : options.strictGaps = true) {s t : BuildState} {doc : Element}
    (h : (build src options m).run s = .ok doc t) :
    doc.Exact ∧ Tiles 0 doc.tokens src.length := by
  obtain ⟨statements, docs, leading, atLine, trailing, hmade, rfl, hleading, -, -, root, rfl, hfill,
    rfl⟩ := build_ok h
  rw [hstrict] at hleading hfill ⊢
  have hsnug := root_snug trailing.tokens (fun e he => (hmade e he).snug)
    (Layout.scan_abut hleading)
  have hfitted := fill_fitted rfl hsnug hfill
  rw [fill] at hfitted ⊢
  -- the root spans the source, so it ends within it
  have hexact := hfitted.exact (by simp [Filling.map, outerEnd, Span.ofText])
  refine ⟨hexact, ?_⟩
  have htiles := hexact _ (self_mem_walk _)
  simpa [Filling.map, outerEnd, Span.ofText, start, span] using htiles

/-- **Strict documents tile the source.** Whatever the match, if a strict build returns
a document, its tokens follow each other without gap or overlap from the first to the
last character of the source, and every branch with tokens spans exactly them. -/
theorem strict_build_tiles_source (hstrict : options.strictGaps = true) {s t : BuildState}
    {doc : Element} (h : (build src options m).run s = .ok doc t) :
    Tiles 0 doc.tokens src.length ∧ (doc.tokens = [] → src = []) ∧
      ∀ c span o ks, branch c span o ks ∈ doc.walk →
        (∀ first ∈ (tokensList ks).head?, first.start = span.start) ∧
        (∀ last ∈ (tokensList ks).getLast?, last.stop = span.stop) := by
  obtain ⟨hexact, htiles⟩ := build_exact hstrict h
  refine ⟨htiles, fun hnone => ?_, fun c span o ks hb => ?_⟩
  · rw [hnone] at htiles
    have hlen : (0 : Int) = src.length := htiles
    exact List.eq_nil_of_length_eq_zero (by omega)
  · have hspans := hexact.spans hb rfl
    rw [tokens] at hspans
    exact hspans

/-! ### A sample -/

/-- A comment and a statement with layout all around, for `sampleMatch`. -/
def sampleSource : Text := "#`(a) $x  + 12 ;\n".toList

/-- The match of `sampleSource`. -/
def sampleMatch : Match :=
  let sum := do
    let left ← Sketch.scalar sampleSource "$x".toList 0
    let right ← Sketch.number sampleSource "12".toList 0 "integer" []
    Sketch.binary sampleSource "+".toList left right
  Sketch.document sampleSource (sum.toOption.toList.map fun e => Sketch.statement e [])

/-- Did a build return, that is, is its outcome `ok`? -/
def returned {α : Type} : EStateM.Result Fault BuildState α → Bool
  | .ok _ _ => true
  | .error _ _ => false

theorem exists_of_returned {α : Type} {x : Build α} {s : BuildState}
    (h : returned (x.run s) = true) : ∃ a t, x.run s = .ok a t := by
  cases hx : x.run s with
  | ok a t => exact ⟨a, t, rfl⟩
  | error e t =>
      rw [hx] at h
      exact nomatch h

theorem sample_tiles_source :
    ∃ doc t, (build sampleSource { strictGaps := true } sampleMatch).run {} = .ok doc t ∧
      Tiles 0 doc.tokens sampleSource.length ∧ (doc.tokens = [] → sampleSource = []) ∧
      ∀ c span o ks, branch c span o ks ∈ doc.walk →
        (∀ first ∈ (tokensList ks).head?, first.start = span.start) ∧
        (∀ last ∈ (tokensList ks).getLast?, last.stop = span.stop) := by
  have hreturned : returned
      ((build sampleSource { strictGaps := true } sampleMatch).run {}) = true := by
    decide +kernel
  obtain ⟨doc, t, h⟩ := exists_of_returned hreturned
  exact ⟨doc, t, h, strict_build_tiles_source rfl h⟩

end Document

end RakuTree
