import RakuTree.Proofs.Arena.Tiled

/-!
# RakuTree.Proofs.Arena.Checked

What a document is like that passes its checks.

`validate` goes along the chain and compares each token with the source. A slice that reaches
behind the source is cut off there, so a token may pass although its range is longer than its
text. It takes the whole row to see that none does: each token starts where the one before it
ended, and the last one ends with the source (`checkRow_ok_iff`). So the tokens tile the source,
and what they make up is the source.

`checkInvariants` looks at links, too. In a tree that was threaded they are as they should be, and
it has nothing to find that `validate` would miss.
-/

namespace RakuTree.Arena

open Outline

variable {a b : Arena} {r : NodeId} {t : Outline} {src : Text} {s : Int}

/-! ### The row of tokens -/

/-- A row of tokens passes the check exactly if it covers the source from offset `s` on. -/
theorem checkRow_ok_iff {ts : List NodeId} :
    a.checkRow src s ts = .ok () ↔
      a.Tiles s ts src.length ∧ (∀ j ∈ ts, (a.node j).kind? ≠ none) ∧
        ∀ j ∈ ts, (a.node j).content = Text.slice src (a.node j).start (a.node j).stop := by
  refine ⟨fun h => ?_, fun ⟨htiles, hkind, hcontent⟩ => checkRow_ok htiles hkind hcontent⟩
  induction ts generalizing s with
  | nil =>
      rw [checkRow] at h
      split at h
      · rename_i hs
        exact ⟨hs, by simp, by simp⟩
      · cases h
  | cons i ts ih =>
      simp only [checkRow] at h
      split at h
      · cases h
      · rename_i hstart
        split at h
        · cases h
        · rename_i hkind
          split at h
          · cases h
          · rename_i hcontent
            obtain ⟨htiles, hkinds, hcontents⟩ := ih h
            refine ⟨tiles_cons.mpr ⟨not_not.mp hstart, htiles⟩, ?_, ?_⟩
            · exact List.forall_mem_cons.mpr ⟨fun hnone => hkind (by simp [hnone]), hkinds⟩
            · exact List.forall_mem_cons.mpr ⟨not_not.mp hcontent, hcontents⟩

/-- Neighbours of a chain are linked both ways, so it passes `linkedRow`. -/
theorem linkedRow_of_neighbours {ts : List NodeId} (h : ∀ front i j back,
    ts = front ++ i :: j :: back → (a.node i).next = j ∧ (a.node j).previous = i) :
    a.linkedRow ts = true := by
  induction ts with
  | nil => rfl
  | cons i ts ih =>
      cases ts with
      | nil => rfl
      | cons j ts =>
          obtain ⟨hnext, hprevious⟩ := h [] i j ts rfl
          have hrest := ih fun front k l back hsplit =>
            h (i :: front) k l back (by rw [hsplit, List.cons_append])
          simp [linkedRow, hnext, hprevious, hrest]

/-! ### Threaded documents -/

namespace Intact

theorem chained (h : Intact a r t) : Chained a (a.tokens r) := by
  rw [h.tokens_eq]
  exact h.threaded.linked.chained

/-- A document that is `Intact` validates exactly if its tokens tile the source, each with the text
that stands there. -/
theorem validate_iff (h : Intact a r t) :
    a.validate r src = .ok () ↔
      a.Tiles 0 (a.tokens r) src.length ∧
        ∀ j ∈ a.tokens r, (a.node j).content = Text.slice src (a.node j).start (a.node j).stop := by
  have hkind : ∀ j ∈ a.tokens r, (a.node j).kind? ≠ none := by
    intro j hj
    rw [h.tokens_eq] at hj
    exact h.fits.kind?_ne_none j (List.mem_filter.mp hj).1
  rw [validate, h.stream_eq, checkRow_ok_iff]
  exact and_congr_right fun _ => and_iff_right hkind

/-- The texts of the tokens of a document that passes `validate` make up the source. -/
theorem flatMap_content (h : Intact a r t)
    (hordered : ∀ j ∈ a.tokens r, (a.node j).start ≤ (a.node j).stop)
    (hvalid : a.validate r src = .ok ()) :
    ((a.tokens r).flatMap fun j => (a.node j).content) = src := by
  obtain ⟨htiles, hcontents⟩ := h.validate_iff.mp hvalid
  rw [htiles.flatMap_slice (Int.le_refl 0) hordered hcontents, Text.slice_all]

/-- The links of a document that is `Intact` pass their part of `checkInvariants`. -/
theorem links_ok (h : Intact a r t) :
    a.linkedRow (a.tokens r) = true ∧ (a.tokens r).head?.all a.isStart = true ∧
      (a.tokens r).getLast?.all a.isEnd = true ∧
      ((a.walk r).all fun j => (a.node j).children.all fun k => (a.node k).parent == j) = true := by
  have hchained := h.chained
  refine ⟨linkedRow_of_neighbours hchained.neighbours, ?_, ?_, ?_⟩
  · cases hhead : (a.tokens r).head? with
    | none => rfl
    | some i => simpa [isStart] using hchained.first i hhead
  · cases hlast : (a.tokens r).getLast? with
    | none => rfl
    | some i => simpa [isEnd] using hchained.last i hlast
  · rw [h.walk_eq]
    simp only [List.all_eq_true, beq_iff_eq]
    exact h.threaded.parents

/-- The full check, `checkInvariants`, finds nothing that `validate` would miss. -/
theorem checkInvariants_iff (h : Intact a r t)
    (hordered : ∀ j ∈ a.tokens r, (a.node j).start ≤ (a.node j).stop) :
    a.checkInvariants r src = .ok () ↔ a.validate r src = .ok () := by
  have hthread : a.thread r = (a, none) := by
    rw [← h.root]
    exact thread_eq_self h.fits h.nodup h.threaded
  obtain ⟨hlinked, hstart, hend, hparents⟩ := h.links_ok
  rw [checkInvariants]
  cases hvalid : a.validate r src with
  | error e =>
      refine ⟨fun hchecked => ?_, fun hok => ?_⟩
      · cases hchecked
      · cases hok
  | ok =>
      have htext := h.flatMap_content hordered hvalid
      simp [Except.mapError, h.stream_eq, htext, hlinked, hstart, hend, hparents, hthread]

end Intact

/-! ### Both checks -/

/-- **Validation is sound.** Let a tree be threaded whose tokens do not end before they start, and
whose branches have no text of their own. It validates against a source exactly if its tokens tile
the source, each with the text that stands there. Then the text of the tree is the source, and
no other source validates. The full check passes for the same sources. -/
theorem validate_sound (htree : IsTree a r) (hthread : a.thread r = (b, none))
    (hblank : ∀ j ∈ b.walk r, (b.node j).kind? = some .branch → (b.node j).content = [])
    (hordered : ∀ j ∈ b.tokens r, (b.node j).start ≤ (b.node j).stop) (src : Text) :
    (b.validate r src = .ok () ↔
        b.Tiles 0 (b.tokens r) src.length ∧
          ∀ j ∈ b.tokens r, (b.node j).content = Text.slice src (b.node j).start (b.node j).stop) ∧
      (b.validate r src = .ok () →
        b.text? r = some src ∧ ∀ other, b.validate r other = .ok () → other = src) ∧
      (b.checkInvariants r src = .ok () ↔ b.validate r src = .ok ()) := by
  obtain ⟨htree', hthread'⟩ := htree.thread
  rw [hthread] at htree' hthread'
  obtain ⟨t, h⟩ := htree'.exists_intact hthread'
  refine ⟨h.validate_iff, fun hvalid => ⟨?_, fun other hother => ?_⟩, h.checkInvariants_iff hordered⟩
  · have htext := h.fits.text?_eq h.nodup (h.walk_eq ▸ hblank)
    rw [h.root, textIn, ← h.tokens_eq, h.flatMap_content hordered hvalid] at htext
    exact htext
  · rw [← h.flatMap_content hordered hvalid, h.flatMap_content hordered hother]

/-- `$()` with an empty statement in front, threaded. -/
def sampleThreaded : Arena := ((ofElement sampleContext).thread 0).1

/-- The tree `sampleContext`, threaded, validates against its text, and not against the text without
its end. -/
theorem sampleThreaded_valid :
    IsTree (ofElement sampleContext) 0 ∧ (ofElement sampleContext).thread 0 = (sampleThreaded, none) ∧
      sampleThreaded.validate 0 ['$', '(', ')'] = .ok () ∧
      sampleThreaded.text? 0 = some ['$', '(', ')'] ∧
      sampleThreaded.checkInvariants 0 ['$', '(', ')'] = .ok () ∧
      sampleThreaded.validate 0 ['$', '('] ≠ .ok () := by
  have htree : IsTree (ofElement sampleContext) 0 := isTree_ofElement (by decide)
  have hthread : (ofElement sampleContext).thread 0 = (sampleThreaded, none) :=
    Prod.ext rfl (by decide +kernel)
  obtain ⟨hiff, hsound, hcheck⟩ := validate_sound htree hthread (by decide +kernel)
    (by decide +kernel) ['$', '(', ')']
  have hvalid := hiff.mpr ⟨by decide +kernel, by decide +kernel⟩
  obtain ⟨htext, hother⟩ := hsound hvalid
  refine ⟨htree, hthread, hvalid, htext, hcheck.mpr hvalid, fun hshort => ?_⟩
  exact absurd (hother _ hshort) (by decide)

end RakuTree.Arena
