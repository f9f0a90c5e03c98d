import RakuTree.Proofs.PlanLogic
import RakuTree.Proofs.RoundTrip
import RakuTree.Proofs.Complete.Spacing

/-!
# RakuTree.Proofs.Complete.Plans

Plans that come to a result.

`Plan.Reaches B x a` says that plan `x` comes to `a` when inner matches come to what `B`
says. It refuses nothing and claims no here-docs on the way. Following such a plan returns
and leaves the here-docs as they are (`builds_of_reaches`), so that a match is built when
its rule reaches something, given that the inner matches it asks for are built.

What is built is a `Row`: elements from one offset to another that carry the source and
whose gaps can be filled.
-/

namespace RakuTree

open Element

/-! ### Plans -/

/-- Production `p` makes `es` of match `m`, whatever the state, and claims no here-docs. -/
def Builds (src : Text) (options : Options) (p : Production) (m : Match) (es : List Element) :
    Prop :=
  ∀ s, ∃ t, (produce src options p m).run s = .ok es t ∧ t.ledger = s.ledger

namespace Plan

variable {f : Frame} {α β : Type} {B : Production → Match → List Element → Prop}

/-- The plan comes to `a` when inner matches come to what `B` says. -/
def Reaches (B : Production → Match → List Element → Prop) : Plan f α → α → Prop
  | done b, a => b = a
  | fail _, _ => False
  | refuse _, _ => False
  | hereDoc _ _, _ => False
  | build _ none _, _ => False
  | build p (some c) next, a => ∃ es, B p c.val es ∧ (next es).Reaches B a

theorem Reaches.bind {x : Plan f α} {k : α → Plan f β} {a : α} {b : β} (hx : x.Reaches B a)
    (hk : (k a).Reaches B b) : (x >>= k).Reaches B b := by
  rw [bind_eq_bind]
  induction x with
  | done c =>
      obtain rfl : c = a := hx
      exact hk
  | fail e => exact hx.elim
  | refuse r => exact hx.elim
  | hereDoc t next _ => exact hx.elim
  | build p c? next ih =>
      cases c? with
      | none => exact hx.elim
      | some c =>
          obtain ⟨es, hes, hnext⟩ := hx
          exact ⟨es, hes, ih es hnext⟩

/-- Following a plan comes to what the plan `Reaches`. -/
theorem Reaches.run {src : Text} {options : Options} {x : Plan f α} {a : α}
    (h : x.Reaches (Builds src options) a) (s : BuildState) :
    ∃ t, (x.run (produceInner src options)).run s = .ok a t ∧ t.ledger = s.ledger := by
  induction x generalizing s with
  | done b =>
      obtain rfl : b = a := h
      exact ⟨s, rfl, rfl⟩
  | fail e => exact h.elim
  | refuse r => exact h.elim
  | hereDoc t next _ => exact h.elim
  | build p c? next ih =>
      cases c? with
      | none => exact h.elim
      | some c =>
          obtain ⟨es, hes, hnext⟩ := h
          obtain ⟨t, ht, hledger⟩ := hes s
          obtain ⟨u, hu, hledger'⟩ := ih es hnext t
          refine ⟨u, ?_, hledger'.trans hledger⟩
          have hbuilt : (produceInner src options p (some c)).run s = .ok es t := ht
          rw [Plan.run, Build.run_bind_of_ok hbuilt, hu]

end Plan

/-- A match is built when its rule `Reaches` something. -/
theorem builds_of_reaches {src : Text} {options : Options} {p : Production} {m : Match}
    {es : List Element} (h : (p.rule ⟨src, p, m⟩).Reaches (Builds src options) es) :
    Builds src options p m es := by
  intro s
  obtain ⟨t, ht, hledger⟩ := h.run (s.entered options p m)
  refine ⟨t.leave, ?_, ?_⟩
  · rw [produce_run, ht]
    rfl
  · have hentered : (s.entered options p m).ledger = s.ledger := by
      rw [BuildState.entered]
      split <;> rfl
    exact hledger.trans hentered

/-! ### Makers -/

theorem Element.makeBranch_natCast (c : BranchClass) (i : Nat) (s : Text) (ks : List Element)
    (o : Option String) :
    makeBranch c i (i + s.length) ks o = .ok (.branch c (Span.ofText i s) o ks) := by
  rw [makeBranch, Span.make, Span.of?, dif_pos ⟨by omega, by omega⟩]
  rfl

/-! ### Captures -/

namespace Frame

variable {f : Frame} {B : Production → Match → List Element → Prop}

/-- The matches captured under `key` are built in the order they were captured. -/
theorem exists_each {key : String} {m : Match} {ms : List Match}
    (h : f.self.captures key = m :: ms) :
    ∃ c cs, f.each key = c :: cs ∧ c.val = m ∧ cs.map Match.Inner.val = ms := by
  have hmap : (f.each key).map Match.Inner.val = m :: ms := (Match.map_val_inners _ _).trans h
  obtain ⟨c, cs, hcs, hc, hrest⟩ := List.map_eq_cons_iff.mp hmap
  exact ⟨c, cs, hcs, hc, hrest⟩

theorem exists_get? {key : String} {m : Match} {ms : List Match}
    (h : f.self.captures key = m :: ms) : ∃ c, f.get? key = some c ∧ c.val = m := by
  obtain ⟨c, cs, hcs, hc, -⟩ := exists_each h
  refine ⟨c, ?_, hc⟩
  change (f.each key).head? = some c
  rw [hcs, List.head?_cons]

theorem buildKey_reaches {p : Production} {m : Match} {es : List Element}
    (h : f.self.captures p.key = [m]) (hes : B p m es) : (f.buildKey p).Reaches B es := by
  obtain ⟨c, hget, rfl⟩ := exists_get? h
  rw [buildKey, hget]
  exact ⟨es, hes, rfl⟩

/-- The text of a capture that is `Firm` is what `textOf` gives. -/
theorem textOf_eq {key : String} {m : Match} {i : Nat} {s : Text}
    (h : f.self.captures key = [m]) (hs : Text.StandsAt f.src i s) (hfirm : s.Firm)
    (hstart : m.start = i) (hstop : m.stop = i + s.length) : f.textOf key = s := by
  simp only [textOf, Match.textOf, Match.capture?, h, List.head?_cons, Option.map_some,
    Option.getD_some, Match.text, hstart, hstop, hs.slice_eq, hfirm.trim_eq]

theorem leafAt_reaches (f : Frame) (cls : LeafClass) (i : Nat) (s : Text) :
    (f.leafAt cls i s).Reaches B (Leaf.found cls i s f.origin) := by
  rw [leafAt, Leaf.placed_natCast]
  exact rfl

/-- A leaf over text that is `Firm` takes all of it. -/
theorem trimmed_reaches {cls : LeafClass} {m : Match} {i : Nat} {s : Text}
    (hs : Text.StandsAt f.src i s) (hfirm : s.Firm) (hstart : m.start = i)
    (hstop : m.stop = i + s.length) :
    (f.trimmed cls m).Reaches B [.leaf (Leaf.found cls i s f.origin)] := by
  have hleaf : f.trimmedLeaf cls m {} = .done (Leaf.found cls i s f.origin) := by
    rw [trimmedLeaf, Leaf.trimmed, hstart, hstop, hs.slice_eq, hfirm.trim_eq, hfirm.leadingSpace_eq,
      Int.natCast_zero, Int.add_zero, Leaf.placed_natCast]
    rfl
  rw [trimmed, hleaf]
  exact rfl

end Frame

/-! ### Rows -/

namespace Element

variable {src s t : Text} {i : Nat} {es ls : List Element}

/-- Elements that make up the text `s`, which stands at offset `i` of the source. They
carry the source, and what is missing between them is layout. -/
structure Row (src : Text) (i : Nat) (s : Text) (es : List Element) : Prop where
  /-- The text `s` stands in the source. -/
  stands : Text.StandsAt src i s
  /-- The text `s` has no whitespace at its ends. -/
  firm : s.Firm
  /-- The text `s` is not empty. -/
  wide : s ≠ []
  /-- The first of `es` starts where the text starts. -/
  first : ∀ d, firstStart d es = i
  /-- The last of `es` ends where the text ends. -/
  last : ∀ d, lastEnd d es = i + s.length
  /-- The gaps in front of `es` can be read. -/
  spaced : Spaced (.plain src) i es
  /-- Each of `es` can be filled. -/
  fills : ∀ e ∈ es, e.Fills (.plain src)
  /-- Each of `es` carries the source. -/
  faithful : ∀ e ∈ es, e.Faithful src

namespace Row

theorem ne_nil (h : Row src i s es) : es ≠ [] := by
  rintro rfl
  have hfirst : ((i : Int) + 1) = i := h.first _
  omega

/-- Two rows with layout `w` between them make one `Row`. -/
theorem append {w : Text} (hes : Row src i s es) (hw : Layout.Accepts false w)
    (hstands : Text.StandsAt src (i + s.length) w)
    (hls : Row src (i + s.length + w.length) t ls) : Row src i (s ++ w ++ t) (es ++ ls) := by
  have hgap := GapSource.read_layout (hes.firm.midLine hes.wide hes.stands) hstands hw
  refine ⟨?_, hes.firm.join hls.firm hes.wide hls.wide, by simp [hes.wide], ?_, ?_, ?_, ?_, ?_⟩
  · exact (hes.stands.append hstands).append (by simpa [Nat.add_assoc] using hls.stands)
  · intro d
    cases es with
    | nil => exact absurd rfl hes.ne_nil
    | cons e es => exact hes.first d
  · intro d
    rw [lastEnd_append, hls.last]
    simp only [List.length_append]
    omega
  · refine spaced_append.mpr ⟨hes.spaced, ?_⟩
    cases ls with
    | nil => trivial
    | cons l ls =>
        have hl : l.start = (i + s.length + w.length : Nat) := hls.first 0
        refine ⟨?_, hls.spaced.2⟩
        rw [hes.last, hl]
        simpa using hgap
  · exact List.forall_mem_append.mpr ⟨hes.fills, hls.fills⟩
  · exact List.forall_mem_append.mpr ⟨hes.faithful, hls.faithful⟩

/-- A leaf over the text `s` is a `Row`. -/
theorem leaf (cls : LeafClass) (o : Option String) (hs : Text.StandsAt src i s) (hfirm : s.Firm)
    (hne : s ≠ []) : Row src i s [.leaf (Leaf.found cls i s o)] := by
  refine ⟨hs, hfirm, hne, fun d => rfl, fun d => ?_, ⟨GapSource.read_self _ _, trivial⟩, ?_, ?_⟩
  · rw [lastEnd_cons, lastEnd_nil, leaf_outerEnd]
    rfl
  · simpa using leaf_fills (.plain src) _
  · simpa using Faithful.leaf (Leaf.found_standsIn hs)

/-- A branch over a `Row` is one. -/
theorem branch (c : BranchClass) (o : Option String) (h : Row src i s es) :
    Row src i s [.branch c (Span.ofText i s) o es] := by
  have hend : (GapSource.read (.plain src) (lastEnd i es) (i + s.length)).fault? = none := by
    rw [h.last]
    exact GapSource.read_self _ _
  refine ⟨h.stands, h.firm, h.wide, fun d => rfl, fun d => ?_,
    ⟨GapSource.read_self _ _, trivial⟩, ?_, ?_⟩
  · rw [lastEnd_cons, lastEnd_nil, outerEnd]
    rfl
  · simpa using branch_fills (s := Span.ofText i s) h.fills h.spaced hend
  · simpa using Faithful.branch h.faithful

/-- A `Row` is spanned by a branch over its text. -/
theorem spanning (c : BranchClass) (o : Option String) (h : Row src i s es) :
    Element.spanning c es none o = .ok (.branch c (Span.ofText i s) o es) := by
  cases es with
  | nil => exact absurd rfl h.ne_nil
  | cons e es =>
      have hstart : e.start = i := h.first 0
      have hstop : lastEnd e.outerEnd es = i + s.length := h.last 0
      rw [Element.spanning, hstart, hstop, makeBranch_natCast]

end Row

end Element

end RakuTree
