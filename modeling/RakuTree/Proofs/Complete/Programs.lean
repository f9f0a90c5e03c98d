import RakuTree.Proofs.Arena.Numbered
import RakuTree.Proofs.Arena.Threaded
import RakuTree.Proofs.Complete.Expressions

/-!
# RakuTree.Proofs.Complete.Programs

Strict builds return a document for every captured program.

The statements of a program come to branches that stand in the source one behind the
other (`Listing`), with layout between them. Together with the layout in front and behind
they can be filled, so the build returns. What it returns has the text of the program and
one statement for each of its statements.
-/

namespace RakuTree

open Element Surface Text

variable {src : Text} {options : Options}

/-! ### Statements in a row -/

/-- Branches for statements that stand in a row from an offset on, each a `Row` over its text. -/
inductive Listing (src : Text) : Nat → List Surface.Statement → List Element → Prop
  /-- There are no statements, and no branches. -/
  | nil {i : Nat} : Listing src i [] []
  /-- A branch for the statement `st`, and those behind it. -/
  | cons {st : Surface.Statement} {rest : List Surface.Statement} {i : Nat}
      {ks bs : List Element} (o : Option String) (hks : Row src i st.core ks)
      (hrest : Listing src (i + st.render.length) rest bs) :
      Listing src i (st :: rest) (.branch .statement (Span.ofText i st.core) o ks :: bs)

/-- A statement ends where the next one starts, and the last one at `stop`, where all end. -/
theorem Surface.CapturedAll.limit {f : Frame} {sts : List Surface.Statement} {i : Nat}
    {ms : List Match} (h : CapturedAll sts i ms) {cs : List f.self.Inner}
    (hcs : cs.map Match.Inner.val = ms) {stop : Int}
    (hstop : i + (sts.flatMap Statement.render).length = stop) :
    ((cs.head?).map (·.val.start)).getD stop = i := by
  cases h with
  | nil =>
      obtain rfl := List.map_eq_nil_iff.mp hcs
      simpa using hstop.symm
  | cons hm hrest =>
      obtain ⟨c, cs', rfl, hc, -⟩ := List.map_eq_cons_iff.mp hcs
      have hstart : c.val.start = i := by
        rw [hc]
        exact hm.range.1
      simpa using hstart

/-- Captured statements are built one by one, by `Rule.statements`. -/
theorem Surface.CapturedAll.reaches (o : Options) {f : Frame} {sts : List Surface.Statement}
    {i : Nat} {ms : List Match} (h : CapturedAll sts i ms) {cs : List f.self.Inner}
    (hcs : cs.map Match.Inner.val = ms)
    (hs : StandsAt f.src i (sts.flatMap Statement.render)) {stop : Int}
    (hstop : i + (sts.flatMap Statement.render).length = stop) :
    ∃ bs, (Rule.statements f stop cs).Reaches (Builds f.src o) bs ∧ Listing f.src i sts bs := by
  induction h generalizing cs with
  | nil =>
      obtain rfl := List.map_eq_nil_iff.mp hcs
      exact ⟨[], rfl, .nil⟩
  | @cons st rest i m ms hm hrest ih =>
      obtain ⟨c, cs, rfl, hc, hcs⟩ := List.map_eq_cons_iff.mp hcs
      rw [List.flatMap_cons] at hs hstop
      obtain ⟨hst, hrests⟩ := standsAt_append.mp hs
      rw [List.length_append] at hstop
      have hstop' : ((i + st.render.length : Nat) : Int) +
          (rest.flatMap Statement.render).length = stop := by omega
      obtain ⟨bs, hbs, hlisting⟩ := ih hcs hrests hstop'
      obtain ⟨es, hes, hrow⟩ :
          ∃ es, Builds f.src o .expr m es ∧ Row f.src i st.expr.render es :=
        hm.builds (standsAt_append.mp (standsAt_append.mp hst).1).1
      have hbuilds : Builds f.src o .statement c.val es := by
        rw [hc]
        exact statement_builds hm.isWide hes
      have hlimit := hrest.limit hcs hstop'
      obtain ⟨ks, hks, hrow'⟩ := statements_reaches hst hrow hbuilds hbs hlimit
        (by simp only [Statement.render, List.length_append]; omega) (by omega)
      exact ⟨_, hks, .cons _ hrow' hlisting⟩

/-- The `statementlist` of a document comes to a `Listing` of its statements. -/
theorem Surface.CapturedAll.statementlist_reaches (o : Options) {f : Frame}
    {sts : List Surface.Statement} {i : Nat} {m : Match} {ms : List Match} {start stop : Int}
    (h : CapturedAll sts i (m :: ms))
    (hself : f.self = Sketch.span start stop [("statement", .many (m :: ms))] [])
    (hs : StandsAt f.src i (sts.flatMap Statement.render))
    (hlength : i + (sts.flatMap Statement.render).length = f.src.length) :
    ∃ bs, (Production.statementlist.rule f).Reaches (Builds f.src o) bs ∧
      Listing f.src i sts bs := by
  have hcs : (f.each "statement").map Match.Inner.val = m :: ms :=
    (Match.map_val_inners _ _).trans (Frame.captures_first hself)
  have hshape := Frame.shape_one hself (by decide) rfl
  rw [statements_rule (.inr ⟨rfl, rfl⟩) hshape]
  exact h.reaches o hcs hs (by omega)

/-- A document of captured statements comes to a `Listing` of them, by `top`. -/
theorem Surface.CapturedAll.builds (o : Options) {sts : List Surface.Statement} {i : Nat}
    {ms : List Match} (h : CapturedAll sts i ms)
    (hs : StandsAt src i (sts.flatMap Statement.render))
    (hlength : i + (sts.flatMap Statement.render).length = src.length) :
    ∃ bs, Builds src o .top (Sketch.document src ms) bs ∧ Listing src i sts bs := by
  cases h with
  | nil =>
      refine ⟨[], builds_of_reaches ?_, .nil⟩
      exact rfl
  | @cons st rest _ m ms hm hrest =>
      have hlt : (0 : Int) < src.length := by
        have hpos : 0 < st.core.length := List.length_pos_iff.mpr st.core_ne_nil
        simp only [List.flatMap_cons, Statement.render, List.length_append] at hlength
        omega
      obtain ⟨bs, hbs, hlisting⟩ := (CapturedAll.cons hm hrest).statementlist_reaches o
        (f := ⟨src, .statementlist, _⟩) rfl hs hlength
      exact ⟨bs, passing_builds (by decide) (isWide_of_lt hlt _ _) (builds_of_reaches hbs) _ _,
        hlisting⟩

namespace Listing

variable {i : Nat} {sts : List Surface.Statement} {bs : List Element}

/-- Every branch of a `Listing` is a `Row`. -/
theorem exists_row (h : Listing src i sts bs) : ∀ b ∈ bs, ∃ k s, Row src k s [b] := by
  induction h with
  | nil => simp
  | cons o hks _ ih => exact List.forall_mem_cons.mpr ⟨⟨_, _, hks.branch .statement o⟩, ih⟩

/-- The gaps in front of the branches of a `Listing` can be read. -/
theorem spaced (h : Listing src i sts bs) (hs : StandsAt src i (sts.flatMap Statement.render))
    {a : Int} (ha : ((GapSource.plain src).read a i).fault? = none) :
    Spaced (.plain src) a bs := by
  induction h generalizing a with
  | nil => trivial
  | @cons st rest i ks bs o hks _ ih =>
      rw [List.flatMap_cons] at hs
      obtain ⟨hst, hrest⟩ := standsAt_append.mp hs
      have hgap := GapSource.read_layout (hks.firm.midLine hks.wide hks.stands)
        (standsAt_append.mp hst).2 st.behind.accepted
      refine ⟨ha, ih hrest ?_⟩
      rw [outerEnd]
      simpa [Span.ofText, Statement.render, Int.add_assoc] using hgap

/-- Behind the last statement of a `Listing` stands its layout, in the middle of a line. -/
theorem ending (h : Listing src i sts bs) (hne : sts ≠ [])
    (hs : StandsAt src i (sts.flatMap Statement.render)) :
    ∃ k w, (∀ d, lastEnd d bs = (k : Nat)) ∧ GapSource.MidLine src k ∧ StandsAt src k w ∧
      Layout.Accepts false w ∧ k + w.length = i + (sts.flatMap Statement.render).length := by
  induction h with
  | nil => exact absurd rfl hne
  | @cons st rest i ks bs o hks hrest ih =>
      rw [List.flatMap_cons] at hs ⊢
      obtain ⟨hst, hrests⟩ := standsAt_append.mp hs
      cases hrest with
      | nil =>
          refine ⟨i + st.core.length, st.behind.text, ?_, hks.firm.midLine hks.wide hks.stands,
            (standsAt_append.mp hst).2, st.behind.accepted, ?_⟩
          · intro d
            rw [lastEnd_cons, lastEnd_nil, outerEnd]
            simp [Span.ofText]
          · simp [Statement.render]
            omega
      | cons o' hks' hrest' =>
          obtain ⟨k, w, hlast, hline, hw, haccepts, hlength⟩ := ih (by simp) hrests
          refine ⟨k, w, ?_, hline, hw, haccepts, ?_⟩
          · intro d
            rw [lastEnd_cons]
            exact hlast _
          · rw [List.length_append]
            omega

end Listing

/-! ### Documents -/

namespace Document

theorem tokensOf_run {r : Layout.Reading} (h : r.fault? = none) (s : BuildState) :
    ∃ t, (tokensOf r).run s = .ok (r.tokens.map Element.leaf) t := by
  refine ⟨{ s with log := s.log ++ r.events }, ?_⟩
  rw [tokensOf, h]
  rfl

theorem valueOf_run {α : Type} {x : Filling α} (h : x.fault? = none) (s : BuildState) :
    ∃ t, (valueOf x).run s = .ok x.value t := by
  refine ⟨{ s with log := s.log ++ x.events }, ?_⟩
  rw [valueOf, h]
  rfl

/-- A strict `build` returns if the match is built without here-docs, the layout around the
statements is accepted and the gaps can be filled. -/
theorem build_returns {m : Match} {statements : List Element} {atLine : Bool} {a b : Int}
    (hstrict : options.strictGaps = true) (hm : Builds src options .top m statements)
    (ha : firstStart src.length statements = a) (hb : lastEnd src.length statements = b)
    (hline : ∀ s, (beginsLine src b).run s = .ok atLine s)
    {lead trail : Layout.Reading} (hlead : Layout.scan {} true 0 true (slice src 0 a) = lead)
    (htrail : Layout.scan {} true b atLine (sliceFrom src b) = trail)
    (hlead' : lead.fault? = none) (htrail' : trail.fault? = none) {root : Element}
    (hroot : root = .branch .document (Span.ofText 0 src) (some Production.top.key)
      (lead.tokens.map Element.leaf ++ statements ++ trail.tokens.map Element.leaf))
    (hfill : (root.fill (.plain src)).fault? = none) :
    ∃ t, (build src options m).run {} = .ok (root.fill (.plain src)).value t := by
  obtain ⟨s₁, h₁, hledger⟩ := hm {}
  obtain ⟨s₂, h₂⟩ := tokensOf_run hlead' s₁
  obtain ⟨s₃, h₃⟩ := tokensOf_run htrail' s₂
  obtain ⟨s₄, h₄⟩ := valueOf_run hfill s₃
  have hdocs : s₁.ledger.hereDocs = {} := by rw [hledger]
  refine ⟨{ s₄ with log := s₄.log ++
    [.built src.length (root.fill (.plain src)).value.children.length] }, ?_⟩
  have hget : (get : Build BuildState).run s₁ = .ok s₁ s₁ := rfl
  rw [build, Build.run_bind_of_ok h₁, Build.run_bind_of_ok hget]
  simp only [hdocs, hstrict, ha, hb, hlead]
  rw [Build.run_bind_of_ok h₂, Build.run_bind_of_ok (hline s₂), htrail, Build.run_bind_of_ok h₃,
    ← hroot]
  exact Build.run_bind_of_ok h₄ _

/-- In the middle of a line, by `MidLine`, no line begins. -/
theorem beginsLine_run {i : Nat} (h : GapSource.MidLine src i) (s : BuildState) :
    (beginsLine src i).run s = .ok false s := by
  obtain ⟨hi, c, hbefore, hc⟩ := h.charAt?_before
  rw [beginsLine, if_neg (by omega), hbefore]
  simp only [hc]
  rfl

/-- Whether a line begins at the end of the source can be told: `beginsLine` does not stop there. -/
theorem beginsLine_run_end (src : Text) :
    ∃ atLine, ∀ s, (beginsLine src src.length).run s = .ok atLine s := by
  rcases List.eq_nil_or_concat src with rfl | ⟨front, c, rfl⟩
  · exact ⟨true, fun s => rfl⟩
  · refine ⟨c == '\n', fun s => ?_⟩
    have hbefore : charAt? (front.concat c) ((front.concat c).length - 1) = some c := by
      have hcast : ((front.concat c).length : Int) - 1 = (front.length : Int) := by
        simp
      rw [hcast, charAt?_natCast]
      simp
    rw [beginsLine, if_neg (by rw [List.length_concat]; omega), hbefore]
    rfl

end Document

/-- Where the statements of a document end, and what stands behind them, whether or not the
`Listing` is empty. -/
theorem Listing.document_ending {i : Nat} {sts : List Surface.Statement} {bs : List Element}
    (h : Listing src i sts bs) (hs : StandsAt src i (sts.flatMap Statement.render))
    (hlength : i + (sts.flatMap Statement.render).length = src.length) :
    ∃ (k : Nat) (atLine : Bool), k ≤ src.length ∧ lastEnd i bs = k ∧ lastEnd src.length bs = k ∧
      (∀ s, (Document.beginsLine src k).run s = .ok atLine s) ∧
      Layout.Accepts atLine (sliceFrom src k) := by
  cases h with
  | nil =>
      obtain ⟨atLine, hline⟩ := Document.beginsLine_run_end src
      obtain rfl : i = src.length := hlength
      refine ⟨src.length, atLine, Nat.le_refl _, rfl, rfl, hline, ?_⟩
      simp [sliceFrom, Layout.accepts_nil]
  | cons o hks hrest =>
      obtain ⟨k, w, hlast, hline, hw, haccepts, hk⟩ :=
        (Listing.cons o hks hrest).ending (by simp) hs
      have hdrop : sliceFrom src k = w := by
        rw [sliceFrom, place_natCast]
        have hlen : w.length = (src.drop k).length := by
          rw [List.length_drop]
          omega
        exact (hw.eq_of_length hlen).symm
      exact ⟨k, false, by omega, hlast _, hlast _, Document.beginsLine_run hline, hdrop ▸ haccepts⟩

theorem Listing.firstStart_eq {i : Nat} {sts : List Surface.Statement} {bs : List Element}
    (h : Listing src i sts bs)
    (hlength : i + (sts.flatMap Statement.render).length = src.length) :
    firstStart src.length bs = i := by
  cases h with
  | nil =>
      obtain rfl : i = src.length := hlength
      rfl
  | cons o hks hrest => rfl

/-! ### What a build returns -/

namespace Element

/-- The statements among the children of the node `e`. -/
def statements (e : Element) : List Element :=
  e.children.filter fun k => decide (k.cls = .branch .statement)

theorem fill_cls (g : GapSource) (e : Element) : (e.fill g).value.cls = e.cls := by
  cases e <;> simp [fill, Filling.done, Filling.map, cls]

/-- A node that is `Faithful` and covers exactly its tokens has the text of its range. -/
theorem Faithful.text_eq_slice {e : Element} (he : e.Faithful src)
    (h : Tiles e.start e.tokens e.outerEnd) : e.text? = some (slice src e.start e.outerEnd) := by
  rw [he.text, (h.flatMap_slice e.span.nonneg).2]

theorem mem_walk_of_mem_children {k e : Element} (h : k ∈ e.children) : k ∈ e.walk := by
  cases e with
  | leaf l => exact nomatch h
  | bare s o => exact nomatch h
  | branch c s o ks =>
      rw [walk]
      exact List.mem_cons_of_mem _ (mem_walkList.mpr ⟨k, h, self_mem_walk k⟩)
  | contextualizer i s t o ks =>
      rw [walk]
      exact List.mem_cons_of_mem _ (mem_walkList.mpr ⟨k, h, self_mem_walk k⟩)

/-- Trees that are `Faithful` have no nodes of no kind. -/
theorem Faithful.isKinded {e : Element} (he : e.Faithful src) : e.isKinded = true := by
  have hlist : ∀ ks : List Element, (∀ k ∈ ks, k.isKinded = true) → isKindedList ks = true := by
    intro ks hks
    induction ks with
    | nil => rfl
    | cons k ks ih =>
        obtain ⟨hk, hrest⟩ := List.forall_mem_cons.mp hks
        rw [isKindedList, hk, ih hrest]
        rfl
  induction he with
  | leaf _ => rfl
  | branch _ ih => exact hlist _ ih
  | contextualizer _ _ ih => exact hlist _ ih

/-- The `statements` of a branch are found again when it is filled, if its other children are
tokens. -/
theorem statements_fill {g : GapSource} {c : BranchClass} {s : Span} {o : Option String}
    {ks bs : List Element} {outer : Option (Int × Int)}
    (hks : ks.filter (fun k => decide (k.cls = .branch .statement)) = bs) :
    (Element.branch c s o
        (fillSiblings g outer (ks.map fun k => (k.fill g).value)).value).statements =
      bs.map fun b => (b.fill g).value := by
  rw [statements, children, fillSiblings_filter (fun l => by simp [cls]), List.filter_map, ← hks]
  simp only [Function.comp_def, fill_cls]

end Element

/-- The branches of a `Listing` are the statements among them and any tokens around them. -/
theorem Listing.filter_statements {i : Nat} {sts : List Surface.Statement} {bs : List Element}
    (h : Listing src i sts bs) (leads trails : List Leaf) :
    (leads.map leaf ++ bs ++ trails.map leaf).filter
      (fun k => decide (k.cls = .branch .statement)) = bs := by
  have htokens : ∀ ls : List Leaf,
      (ls.map leaf).filter (fun k => decide (k.cls = .branch .statement)) = [] := by
    intro ls
    simp [cls]
  have hbs : bs.filter (fun k => decide (k.cls = .branch .statement)) = bs := by
    induction h with
    | nil => rfl
    | cons o _ _ ih => rw [List.filter_cons_of_pos rfl, ih]
  rw [List.filter_append, List.filter_append, htokens, hbs, htokens, List.nil_append,
    List.append_nil]

/-- The tokens of accepted layout lie one behind the other and are `Faithful`. -/
theorem Layout.Accepts.leaves {atLine : Bool} {a b : Nat} (h : Accepts atLine (slice src a b))
    (hab : a ≤ b) (hb : b ≤ src.length) {r : Reading}
    (hr : scan {} true a atLine (slice src a b) = r) :
    r.fault? = none ∧ Abut start outerEnd a (r.tokens.map leaf) b ∧
      ∀ e ∈ r.tokens.map leaf, e.Fills (.plain src) ∧ e.Faithful src := by
  subst hr
  have hfault := (accepts_iff (Int.natCast_nonneg a)).mpr h
  refine ⟨hfault, Abut.map ?_, List.forall_mem_map.mpr fun l hl => ⟨leaf_fills _ l, .leaf ?_⟩⟩
  · have habut := scan_abut hfault
    have hend : (a : Int) + (b - a) = b := by omega
    have hstop : outerEnd ∘ Element.leaf = (·.span.stop) := funext leaf_outerEnd
    rw [length_slice (by omega) (by omega) (by omega), hend] at habut
    rw [hstop]
    exact habut
  · exact scan_standsIn (Int.natCast_nonneg a) (standsAt_slice (Int.natCast_nonneg a) _) l hl

/-- Every branch of a `Listing` that is filled in the document `doc` has the text of its statement.
-/
theorem Listing.texts {i : Nat} {sts : List Surface.Statement} {bs : List Element}
    (h : Listing src i sts bs) {doc : Element} (hdoc : doc.Exact)
    (hbs : ∀ b ∈ bs, (b.fill (.plain src)).value ∈ doc.walk) :
    bs.map (fun b => (b.fill (.plain src)).value.text?) = sts.map fun st => some st.core := by
  induction h with
  | nil => rfl
  | @cons st rest i ks bs o hks _ ih =>
      obtain ⟨hb, hrest⟩ := List.forall_mem_cons.mp hbs
      have hrow := hks.branch .statement o
      have hfills := hrow.fills _ List.mem_cons_self
      have hfaithful := fill_faithful (g := .plain src) (hrow.faithful _ List.mem_cons_self)
      have htext := hfaithful.text_eq_slice (hdoc _ hb)
      rw [start, fill_span, hfills.outerEnd, outerEnd] at htext
      rw [List.map_cons, List.map_cons, ih hrest, htext]
      exact congrArg (some · :: rest.map fun st => some st.core) hks.stands.slice_eq

/-- The branches of a `Listing`, with the tokens of layout in front of them and behind them, leave
no gap that cannot be read. -/
theorem Listing.root_spaced {i k : Nat} {sts : List Surface.Statement}
    {bs leads trails : List Element} (h : Listing src i sts bs)
    (hs : StandsAt src i (sts.flatMap Statement.render)) (hlast : lastEnd i bs = k)
    (hleads : Abut start outerEnd 0 leads i) (htrails : Abut start outerEnd k trails src.length) :
    Spaced (.plain src) 0 (leads ++ bs ++ trails) ∧
      lastEnd 0 (leads ++ bs ++ trails) = src.length := by
  obtain ⟨hfront, hfront'⟩ := spaced_of_abut (g := .plain src) hleads
  obtain ⟨hback, hback'⟩ := spaced_of_abut (g := .plain src) htrails
  have hmiddle := h.spaced hs (GapSource.read_self _ _)
  have hend : lastEnd 0 (leads ++ bs) = k := by rw [lastEnd_append, hfront', hlast]
  refine ⟨spaced_append.mpr ⟨spaced_append.mpr ⟨hfront, ?_⟩, ?_⟩, ?_⟩
  · rw [hfront']
    exact hmiddle
  · rw [hend]
    exact hback
  · rw [lastEnd_append, hend, hback']

namespace Document

/-- A strict `build` returns a document that carries the source and holds the filled statements of a
`Listing`. -/
theorem build_listing {i : Nat} {sts : List Surface.Statement} {bs : List Element} {m : Match}
    (h : Listing src i sts bs) (hs : StandsAt src i (sts.flatMap Statement.render))
    (hlength : i + (sts.flatMap Statement.render).length = src.length)
    (hlead : Layout.Accepts true (slice src (0 : Nat) i)) (hm : Builds src options .top m bs)
    (hstrict : options.strictGaps = true) :
    ∃ doc t, (build src options m).run {} = .ok doc t ∧ doc.cls = .branch .document ∧
      doc.Faithful src ∧ doc.statements = bs.map fun b => (b.fill (.plain src)).value := by
  obtain ⟨k, atLine, hk, hlast, hlast', hline, htrail⟩ := h.document_ending hs hlength
  rw [sliceFrom_eq_slice] at htrail
  generalize hl : Layout.scan {} true (0 : Nat) true (slice src (0 : Nat) i) = lead
  generalize ht : Layout.scan {} true k atLine (slice src k src.length) = trail
  obtain ⟨hlfault, hlabut, hleads⟩ := hlead.leaves (by omega) (by omega) hl
  obtain ⟨htfault, htabut, htrails⟩ := htrail.leaves hk (Nat.le_refl _) ht
  obtain ⟨hspaced, hend⟩ := h.root_spaced hs hlast hlabut htabut
  have hkids : ∀ e ∈ lead.tokens.map Element.leaf ++ bs ++ trail.tokens.map Element.leaf,
      e.Fills (.plain src) ∧ e.Faithful src := by
    refine List.forall_mem_append.mpr ⟨List.forall_mem_append.mpr ⟨hleads, fun b hb => ?_⟩, htrails⟩
    obtain ⟨_, _, hrow⟩ := h.exists_row b hb
    exact ⟨hrow.fills b List.mem_cons_self, hrow.faithful b List.mem_cons_self⟩
  generalize hroot : Element.branch .document (Span.ofText 0 src) (some Production.top.key)
    (lead.tokens.map Element.leaf ++ bs ++ trail.tokens.map Element.leaf) = root
  have hgap : ((GapSource.plain src).read (lastEnd (Span.ofText 0 src).start
      (lead.tokens.map Element.leaf ++ bs ++ trail.tokens.map Element.leaf))
        (Span.ofText 0 src).stop).fault? = none := by
    have hstop : (Span.ofText 0 src).stop = src.length := Int.zero_add _
    have hstart : (Span.ofText 0 src).start = 0 := rfl
    rw [hstop, hstart, hend]
    exact GapSource.read_self _ _
  obtain ⟨hfill, hvalue⟩ := fill_branch (c := .document) (o := some Production.top.key)
    (fun e he => (hkids e he).1) hspaced hgap
  rw [hroot] at hfill hvalue
  obtain ⟨t, hrun⟩ := build_returns hstrict hm (h.firstStart_eq hlength) hlast' hline hl
    (by rw [sliceFrom_eq_slice]; exact ht) hlfault htfault hroot.symm hfill
  refine ⟨_, t, hrun, ?_, ?_, ?_⟩
  · rw [fill_cls, ← hroot, cls]
  · rw [← hroot]
    exact fill_faithful (g := .plain src) (.branch fun e he => (hkids e he).2)
  · rw [hvalue]
    exact statements_fill (h.filter_statements lead.tokens trail.tokens)

/-- **Completeness on expressions.** Let a grammar capture a program: statements that are
expressions of numbers, scalar variables, parentheses and infix operators, with any layout
around their parts. Then a strict build returns a document. It has the text of the program,
its statements have the texts of the statements of the program, and it can be threaded. -/
theorem strict_build_returns_program {p : Program} {m : Match} (hm : p.Captured m)
    (hstrict : options.strictGaps = true) :
    ∃ doc t, (build p.source options m).run {} = .ok doc t ∧ doc.cls = .branch .document ∧
      doc.text? = some p.source ∧
      doc.statements.map text? = p.statements.map (fun st => some st.core) ∧
      ((Arena.ofElement doc).thread 0).2 = none := by
  obtain ⟨ms, hms, rfl⟩ := hm
  have hs : StandsAt p.source p.lead.text.length (p.statements.flatMap Statement.render) := by
    simp [StandsAt, Program.source]
  have hlength : p.lead.text.length + (p.statements.flatMap Statement.render).length =
      p.source.length := by rw [Program.source, List.length_append]
  have hlead : Layout.Accepts true (slice p.source (0 : Nat) p.lead.text.length) := by
    have hfront : StandsAt p.source 0 p.lead.text := List.prefix_append _ _
    have hslice := hfront.slice_eq
    rw [Int.natCast_zero, Int.zero_add] at hslice
    rw [Int.natCast_zero, hslice]
    exact p.lead.accepted
  obtain ⟨bs, hbs, hlisting⟩ := hms.builds options hs hlength
  obtain ⟨doc, t, hrun, hcls, hfaithful, hstatements⟩ := build_listing hlisting hs hlength
    hlead hbs hstrict
  obtain ⟨hexact, htiles⟩ := build_exact hstrict hrun
  refine ⟨doc, t, hrun, hcls, ?_, ?_, ?_⟩
  · rw [hfaithful.text, (htiles.flatMap_slice (Int.le_refl 0)).2, slice_all]
  · rw [hstatements, List.map_map]
    refine hlisting.texts hexact fun b hb => mem_walk_of_mem_children ?_
    have hmem : (b.fill (.plain p.source)).value ∈ doc.statements := by
      rw [hstatements]
      exact List.mem_map_of_mem hb
    exact List.mem_of_mem_filter hmem
  · have hthread := Arena.thread_threaded (Arena.ofElement_fits hfaithful.isKinded)
      (Arena.nodup_outline doc 0)
    rw [root_outline] at hthread
    exact hthread.1

/-! ### A sample -/

/-- Two statements. A comment in front of the operator holds the text of the operator, and the last
statement has no semicolon. `sampleProgramMatch` captures it. -/
def sampleProgram : Program where
  lead := ⟨"#`(+) ".toList, by decide +kernel⟩
  statements :=
    [⟨.paren ⟨[' '], by decide +kernel⟩
        (.binary (.scalar ⟨['x'], rfl⟩) ⟨" #`(+)".toList, by decide +kernel⟩
          ⟨['+'], List.cons_ne_nil _ _, rfl⟩ ⟨[' '], by decide +kernel⟩
          (.number ⟨['1', '2'], List.cons_ne_nil _ _, rfl⟩))
        ⟨[], by decide +kernel⟩,
      some ⟨['\t'], rfl⟩, ⟨['\n'], by decide +kernel⟩⟩,
     ⟨.scalar ⟨['y'], rfl⟩, none, ⟨[], by decide +kernel⟩⟩]

/-- The match of `sampleProgram`. -/
def sampleProgramMatch : Match :=
  let src := sampleProgram.source
  let statements := do
    let x ← Sketch.scalar src "$x".toList 0
    let twelve ← Sketch.number src "12".toList 0 "integer" []
    let y ← Sketch.scalar src "$y".toList 0
    -- a search for the operator would find the one in the comment
    let plus := Sketch.span 16 17 [] []
    let sum := Sketch.span x.start twelve.stop
      [("infix", .one plus), ("OPER", .one plus)] [x, twelve]
    let list := Sketch.span sum.start sum.stop [("statement", .many [Sketch.statement sum []])] []
    let circumfix := Sketch.span 6 21 [("semilist", .one list)] []
    let term := Sketch.span 6 21 [("circumfix", .one circumfix)] []
    return [Sketch.statement term [], Sketch.statement y []]
  Sketch.document src (statements.toOption.getD [])

theorem sample_returns_program :
    sampleProgram.source = "#`(+) ( $x #`(+)+ 12)\t;\n$y".toList ∧
    sampleProgram.Captured sampleProgramMatch ∧
    ∃ doc t, (build sampleProgram.source { strictGaps := true } sampleProgramMatch).run {} =
        .ok doc t ∧
      doc.cls = .branch .document ∧ doc.text? = some sampleProgram.source ∧
      doc.statements.map text? = sampleProgram.statements.map (fun st => some st.core) ∧
      ((Arena.ofElement doc).thread 0).2 = none := by
  have hcaptured : sampleProgram.Captured sampleProgramMatch :=
    ⟨_, .cons (.paren 8 20 (.binary (.scalar _ _) rfl rfl (.number _ _)) (by decide) (by decide))
      (.cons (.scalar _ _) .nil), by rfl⟩
  exact ⟨by decide, hcaptured, strict_build_returns_program hcaptured rfl⟩

end Document

end RakuTree
