import RakuTree.Proofs.Complete.Expressions
import RakuTree.Proofs.HereDocs

/-!
# RakuTree.Proofs.HereDocs.Semicolons

Semicolons and the bodies of here-docs.

The semicolon of a statement is looked for behind the elements of the statement, across all
whitespace and so across the end of the line, where the body of a here-doc may begin. What the
search finds is said once, by the text it reads (`Rule.semicolonAt?_eq_some_iff`). From that
follows when the semicolon belongs to a body: the statement has nothing behind it on its line,
and the body begins with a semicolon.
-/

namespace RakuTree

open Element

/-! ### The search -/

/-- A semicolon is found by `semicolonAt?` exactly where nothing but whitespace stands between
`cursor` and it, and it stands before `limit`. -/
theorem Rule.semicolonAt?_eq_some_iff {src : Text} {cursor limit : Int} {i : Nat} :
    semicolonAt? src cursor limit = some i ↔
      ∃ w : Text, w.all Text.isSpace = true ∧ Text.StandsAt src cursor.toNat (w ++ [';']) ∧
        i = cursor.toNat + w.length ∧ (i : Int) < limit := by
  constructor
  · intro h
    simp only [semicolonAt?] at h
    split at h
    · rename_i rest hrest
      cases h
      have hwindow : Text.window src cursor (max limit cursor) =
          (Text.window src cursor (max limit cursor)).takeWhile Text.isSpace ++ ';' :: rest := by
        rw [← hrest, Text.takeWhile_append_trimLeft]
      have hspace : ((Text.window src cursor (max limit cursor)).takeWhile
          Text.isSpace).all Text.isSpace = true := List.all_takeWhile
      rw [Text.leadingSpace]
      generalize (Text.window src cursor (max limit cursor)).takeWhile Text.isSpace = w
        at hwindow hspace
      rw [Text.window] at hwindow
      refine ⟨w, hspace, ?_, rfl, ?_⟩
      · have hfront : w ++ [';'] <+:
            ((src.take (max limit cursor).toNat).drop cursor.toNat).drop 0 := by
          rw [List.drop_zero, hwindow]
          exact ⟨rest, by rw [List.append_assoc, List.singleton_append]⟩
        exact Text.standsAt_window hfront
      · have hlength := congrArg List.length hwindow
        simp only [List.length_drop, List.length_take, List.length_append, List.length_cons]
          at hlength
        omega
    · cases h
  · rintro ⟨w, hspace, hstands, rfl, hlimit⟩
    have hsame : semicolonAt? src cursor limit = semicolonAt? src cursor.toNat limit := by
      have hstop : (max limit cursor).toNat = (max limit (cursor.toNat : Int)).toNat := by omega
      simp only [semicolonAt?, Text.window, hstop, Int.toNat_natCast]
    have hbefore : (cursor.toNat : Int) + (w ++ [';']).length ≤ limit := by
      rw [List.length_append, List.length_singleton]
      omega
    rw [hsame, semicolonAt?_some hstands hspace hbefore]

/-! ### Rows of statements -/

/-- A statement on its way into a row of statements, as `Rule.statements` goes through them. -/
structure StatementRow where
  /-- Where its match starts; without `nodes`, the search for a semicolon begins here. -/
  start : Int
  /-- The elements built for the match. -/
  nodes : List Element
  /-- Where the next statement starts, or the row ends; the semicolon is searched for up to there.
  -/
  limit : Int

namespace StatementRow

/-- Where `nodes` end, and the search for a semicolon begins. -/
def cursor (r : StatementRow) : Int := lastEnd r.start r.nodes

/-- Offset of the semicolon that is added, if one is found by `Rule.semicolonAt?`. -/
def semicolon? (src : Text) (r : StatementRow) : Option Nat :=
  Rule.semicolonAt? src r.cursor r.limit

/-- The `nodes` with the semicolon. -/
def closed (f : Frame) (r : StatementRow) : List Element :=
  r.nodes ++ ((r.semicolon? f.src).map fun i =>
    Element.leaf (Leaf.found .semicolon i [';'] f.origin)).toList

end StatementRow

/-- The statements that a run of `Rule.statements` goes through. -/
def statementRows {f : Frame} (inner : Production → Option f.self.Inner → Build (List Element))
    (stop : Int) : List f.self.Inner → BuildState → List StatementRow
  | [], _ => []
  | c :: cs, s =>
    match (inner .statement c).run s with
    | .ok nodes t =>
      ⟨c.val.start, nodes, ((cs.head?).map (·.val.start)).getD stop⟩ ::
        statementRows inner stop cs t
    | .error _ _ => []

theorem Element.children_of_spanning {cls : BranchClass} {ks : List Element}
    {origin : Option String} {e : Element} (h : spanning cls ks none origin = .ok e) :
    e.children = ks := by
  cases ks with
  | nil => cases h
  | cons k ks =>
      rw [spanning, makeBranch] at h
      cases hspan : Span.make (.branch cls) k.start (lastEnd k.outerEnd ks) with
      | error e =>
          rw [hspan] at h
          cases h
      | ok span =>
          rw [hspan] at h
          cases h
          rfl

/-- The statements that come of a row: one for each of `statementRows` that has elements or a
semicolon. -/
theorem Rule.statements_ok {f : Frame}
    {inner : Production → Option f.self.Inner → Build (List Element)}
    {stop : Int} {cs : List f.self.Inner} {s t : BuildState} {es : List Element}
    (h : ((statements f stop cs).run inner).run s = .ok es t) :
    es.map children =
      ((statementRows inner stop cs s).map (·.closed f)).filter (! ·.isEmpty) := by
  induction cs generalizing s es with
  | nil =>
      cases h
      rfl
  | cons c cs ih =>
      obtain ⟨nodes, u, hnodes, h⟩ := Build.bind_ok (x := inner .statement (some c)) h
      obtain ⟨r, hr⟩ : ∃ r : StatementRow,
          r = ⟨c.val.start, nodes, ((cs.head?).map (·.val.start)).getD stop⟩ := ⟨_, rfl⟩
      have hstep : ((if (r.closed f).isEmpty then statements f stop cs else do
          let e ← f.branch .statement (r.closed f)
          return e :: (← statements f stop cs) : Plan f (List Element)).run inner).run u =
          .ok es t := by
        rw [hr]
        exact h
      rw [statementRows, hnodes]
      simp only [List.map_cons, ← hr]
      by_cases hempty : (r.closed f).isEmpty = true
      · rw [if_pos hempty] at hstep
        rw [List.filter_cons_of_neg (by simpa using hempty), ih hstep]
      · rw [if_neg hempty, Frame.branch] at hstep
        rw [List.filter_cons_of_pos (by simpa using hempty)]
        cases hspan : spanning .statement (r.closed f) none f.origin with
        | error e =>
            rw [hspan] at hstep
            cases hstep
        | ok e =>
            rw [hspan] at hstep
            change (((statements f stop cs >>= fun rest => pure (e :: rest)) : Plan f _).run
              inner).run u = _ at hstep
            rw [Plan.run_bind] at hstep
            obtain ⟨rest, v, hrest, hdone⟩ := Build.bind_ok hstep
            cases hdone
            rw [List.map_cons, children_of_spanning hspan, ih hrest]

/-! ### Ends of elements -/

namespace Element

/-- The node `e` has no part in `body`, nor lies inside it. -/
def ClearOf (body : Int × Int) (e : Element) : Prop := e.stop ≤ body.1 ∨ body.2 ≤ e.start

instance (body : Int × Int) (e : Element) : Decidable (e.ClearOf body) :=
  inferInstanceAs (Decidable (e.stop ≤ body.1 ∨ body.2 ≤ e.start))

mutual

/-- All that a node covers ends where the range of one of the nodes in its `walk` ends. -/
theorem exists_stop_eq_outerEnd (e : Element) : ∃ k ∈ e.walk, k.stop = e.outerEnd := by
  cases e with
  | leaf l => exact ⟨_, self_mem_walk _, by rw [outerEnd]; rfl⟩
  | branch c s o ks => exact ⟨_, self_mem_walk _, by rw [outerEnd]; rfl⟩
  | bare s o => exact ⟨_, self_mem_walk _, by rw [outerEnd]; rfl⟩
  | contextualizer i s t o ks =>
      rw [outerEnd, walk]
      by_cases hks : ks = []
      · exact ⟨_, List.mem_cons_self, by rw [hks, lastEnd_nil]; rfl⟩
      · obtain ⟨l, hl, hend⟩ := exists_stop_eq_lastEnd s.stop ks hks
        exact ⟨l, List.mem_cons_of_mem _ hl, hend⟩

theorem exists_stop_eq_lastEnd (d : Int) (ks : List Element) (hne : ks ≠ []) :
    ∃ l ∈ walkList ks, l.stop = lastEnd d ks := by
  cases ks with
  | nil => exact absurd rfl hne
  | cons k ks =>
      rw [lastEnd_cons, walkList]
      by_cases hks : ks = []
      · obtain ⟨l, hl, hend⟩ := exists_stop_eq_outerEnd k
        exact ⟨l, List.mem_append_left _ hl, by rw [hks, lastEnd_nil, hend]⟩
      · obtain ⟨l, hl, hend⟩ := exists_stop_eq_lastEnd k.outerEnd ks hks
        exact ⟨l, List.mem_append_right _ hl, hend⟩

end

end Element

namespace StatementRow

variable {src : Text} {r : StatementRow} {body : Int × Int}

theorem cursor_nonneg (hne : r.nodes ≠ []) : 0 ≤ r.cursor := by
  rw [cursor]
  cases hnodes : r.nodes with
  | nil => exact absurd hnodes hne
  | cons k ks =>
      rw [lastEnd_cons]
      exact lastEnd_nonneg (outerEnd_nonneg k) ks

/-- Elements that are `ClearOf` a body do not end inside it. -/
theorem cursor_clear (hne : r.nodes ≠ []) (hclear : ∀ k ∈ walkList r.nodes, k.ClearOf body) :
    r.cursor ≤ body.1 ∨ body.2 ≤ r.cursor := by
  obtain ⟨l, hl, hend⟩ := exists_stop_eq_lastEnd r.start r.nodes hne
  rw [cursor, ← hend]
  exact (hclear l hl).imp_right fun hbehind => Int.le_trans hbehind l.span.ordered

/-! ### Semicolons in bodies -/

/-- Nothing but whitespace stands between the statement and `body`, and the body begins with
whitespace and a semicolon, which stands before the limit. -/
def RunsInto (src : Text) (body : Int × Int) (r : StatementRow) : Prop :=
  ∃ gap lead : Text, gap.all Text.isSpace = true ∧ lead.all Text.isSpace = true ∧
    r.cursor + gap.length = body.1 ∧ Text.StandsAt src r.cursor.toNat gap ∧
    Text.StandsAt src body.1.toNat (lead ++ [';']) ∧
    body.1 + lead.length < body.2 ∧ body.1 + lead.length < r.limit

/-- The semicolon of a statement that ends outside of `body` lies in it just when the statement
`RunsInto` it. -/
theorem semicolon?_inside_iff (hcursor : 0 ≤ r.cursor)
    (hclear : r.cursor ≤ body.1 ∨ body.2 ≤ r.cursor) :
    (∃ i : Nat, r.semicolon? src = some i ∧ body.1 ≤ i ∧ i < body.2) ↔ r.RunsInto src body := by
  constructor
  · rintro ⟨i, hi, hstart, hstop⟩
    obtain ⟨w, hspace, hstands, rfl, hlimit⟩ := Rule.semicolonAt?_eq_some_iff.mp hi
    -- the whitespace in front of the body, and that inside it
    obtain ⟨n, hn⟩ : ∃ n : Nat, r.cursor + n = body.1 := ⟨(body.1 - r.cursor).toNat, by omega⟩
    have hle : n ≤ w.length := by omega
    have hgap : (w.take n).length = n := List.length_take_of_le hle
    have hplace : body.1.toNat = r.cursor.toNat + n := by omega
    have hall := List.all_eq_true.mp hspace
    refine ⟨w.take n, w.drop n, ?_, ?_, by rw [hgap, hn], ?_, ?_, ?_, ?_⟩
    · exact List.all_eq_true.mpr fun c hc => hall c (List.mem_of_mem_take hc)
    · exact List.all_eq_true.mpr fun c hc => hall c (List.mem_of_mem_drop hc)
    · exact hstands.shorten ((List.take_prefix n w).trans (List.prefix_append w _))
    · rw [hplace]
      exact hstands.drop ⟨[], by rw [List.append_nil, List.drop_append_of_le_length hle]⟩
    · rw [List.length_drop]
      omega
    · rw [List.length_drop]
      omega
  · rintro ⟨gap, lead, hgap, hlead, hstart, hfront, hbody, hstop, hlimit⟩
    have hplace : body.1.toNat = r.cursor.toNat + gap.length := by omega
    rw [hplace] at hbody
    refine ⟨r.cursor.toNat + (gap ++ lead).length, Rule.semicolonAt?_eq_some_iff.mpr
      ⟨gap ++ lead, ?_, ?_, rfl, ?_⟩, ?_, ?_⟩
    · rw [List.all_append, hgap, hlead, Bool.and_self]
    · rw [List.append_assoc]
      exact hfront.append hbody
    · rw [List.length_append]
      omega
    · rw [List.length_append]
      omega
    · rw [List.length_append]
      omega

end StatementRow

/-- **Semicolons and here-docs.** Let a row of statements return, after whatever was built
before.

* Its statements hold the elements built for the matches, each followed by the semicolon that is
  found behind them: the first character that is not whitespace, if it is one and stands before
  the next statement.
* Where the elements are clear of the body of a here-doc, that semicolon lies in the body exactly
  when nothing but whitespace stands between the elements and the body, and the first character
  of the body that is not whitespace is a semicolon. -/
theorem semicolon_in_body_iff (options : Options) {f : Frame} {stop : Int}
    {cs : List f.self.Inner} {s t : BuildState} {es : List Element}
    (hrun : ((Rule.statements f stop cs).run (produceInner f.src options)).run s = .ok es t) :
    es.map children =
        ((statementRows (produceInner f.src options) stop cs s).map (·.closed f)).filter
          (! ·.isEmpty) ∧
      ∀ r ∈ statementRows (produceInner f.src options) stop cs s,
        (∀ i, r.semicolon? f.src = some i ↔
          ∃ w : Text, w.all Text.isSpace = true ∧
            Text.StandsAt f.src r.cursor.toNat (w ++ [';']) ∧
            i = r.cursor.toNat + w.length ∧ (i : Int) < r.limit) ∧
        ∀ body ∈ t.ledger.hereDocs.entries, r.nodes ≠ [] →
          (∀ k ∈ walkList r.nodes, k.ClearOf body) →
          ((∃ i : Nat, r.semicolon? f.src = some i ∧ body.1 ≤ i ∧ i < body.2) ↔
            r.RunsInto f.src body) := by
  refine ⟨Rule.statements_ok hrun, fun r _ => ⟨fun i => Rule.semicolonAt?_eq_some_iff, ?_⟩⟩
  intro body hbody hne hclear
  exact StatementRow.semicolon?_inside_iff (StatementRow.cursor_nonneg hne)
    (StatementRow.cursor_clear hne hclear)

/-- A here-doc that is a statement without a semicolon, and a body that begins with one: `;x`. -/
def Frame.sampleOpen : Frame where
  src := "q:to/E/\n;x\nE\n".toList
  production := .statementlist
  self :=
    let value := Sketch.span 0 7 [("quote", .one (Call.sampleQuote 0 7))] []
    let expr := Sketch.span 0 7 [("value", .one value)] []
    Sketch.span 0 7 [("statement", .many [Sketch.span 0 7 [("EXPR", .one expr)] []])] []

namespace Frame.sampleOpen

/-- The statements of `sampleOpen`. -/
def statements : Build (List Element) :=
  (Rule.statements sampleOpen 13 (sampleOpen.each "statement")).run
    (produceInner sampleOpen.src {})

/-- The `statementRows` of `sampleOpen`: there is one. -/
def rows : List StatementRow :=
  statementRows (produceInner sampleOpen.src {}) 13 (sampleOpen.each "statement") {}

/-- In `sampleOpen`, the semicolon of the body becomes that of the statement. -/
theorem semicolon_in_body :
    ∃ es t, statements.run {} = .ok es t ∧ t.ledger.hereDocs.entries = [(8, 12)] ∧
      es.length = 1 ∧
      ∀ r ∈ rows, r.semicolon? sampleOpen.src = some 8 ∧ r.RunsInto sampleOpen.src (8, 12) := by
  have hreturned : Document.returned (statements.run {}) = true := by decide +kernel
  have hledger : (Build.stateOf (statements.run {})).ledger.hereDocs.entries = [(8, 12)] := by
    decide +kernel
  have hrows : ∀ r ∈ rows, r.nodes.isEmpty = false ∧
      (∀ k ∈ walkList r.nodes, k.ClearOf (8, 12)) ∧ r.semicolon? sampleOpen.src = some 8 := by
    decide +kernel
  obtain ⟨es, t, hrun⟩ := Document.exists_of_returned hreturned
  rw [hrun] at hledger
  obtain ⟨hchildren, hbodies⟩ := semicolon_in_body_iff {} hrun
  refine ⟨es, t, hrun, hledger, ?_, fun r hr => ?_⟩
  · have hlength := congrArg List.length hchildren
    rw [List.length_map] at hlength
    rw [hlength]
    decide +kernel
  · obtain ⟨hempty, hclear, hfound⟩ := hrows r hr
    have hne : r.nodes ≠ [] := fun hnil => by simp [hnil] at hempty
    have hbody : ((8, 12) : Int × Int) ∈ t.ledger.hereDocs.entries := by
      rw [show t.ledger.hereDocs.entries = [(8, 12)] from hledger]
      exact List.mem_singleton_self _
    exact ⟨hfound, ((hbodies r hr).2 _ hbody hne hclear).mp ⟨8, hfound, by decide, by decide⟩⟩

end Frame.sampleOpen

end RakuTree
