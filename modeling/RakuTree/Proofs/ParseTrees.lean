import RakuTree.Match.ParseTree
import RakuTree.Proofs.Ignored.Matches

/-!
# RakuTree.Proofs.ParseTrees

A parse tree keeps its children when it becomes a match.

The children of a rule are folded into a table one by one, and a name changes from one match to a
list of them on the way. What the table holds under a name in the end depends on the children of
that name only, in order (`Naming.lookup_capture`), and every child is in it once or among the
operands (`Naming.held_capture`).

Rules that matched nothing have no place of their own and are put where the tree has got to. If the
ranges of a tree are nested and in order (`ParseTree.WellPlaced`), so are those of all matches that
are made of it, with such rules among them (`ParseTree.inRow_counted`).
-/

namespace RakuTree

/-! ### Sorting matches under names -/

namespace Naming

variable {n : Naming} {key other : String} {m : Match} {h : List (String × Capture)}
  {ms : List Match}

/-- What is captured under `key`, given the matches of that name. -/
def captureOf? (n : Naming) (key : String) : List Match → Option Capture
  | [] => none
  | [m] => some (if n.lists.contains key then .many [m] else .one m)
  | m :: m' :: ms => some (.many (m :: m' :: ms))

theorem captureOf?_append (hms : ms ≠ []) (m : Match) :
    n.captureOf? key (ms ++ [m]) = some (.many (ms ++ [m])) := by
  cases ms with
  | nil => exact absurd rfl hms
  | cons x xs =>
      cases xs with
      | nil => rfl
      | cons y ys => rfl

/-- Whatever form `captureOf?` gives it, a capture holds the matches it is made of. -/
theorem toList_captureOf? (n : Naming) (key : String) (ms : List Match) :
    ((n.captureOf? key ms).map Capture.toList).getD [] = ms := by
  cases ms with
  | nil => rfl
  | cons x xs =>
      cases xs with
      | nil =>
          rw [captureOf?]
          split
          · rfl
          · rfl
      | cons y ys => rfl

/-- A single match is captured as it is, by `Capture.one`, unless `key` always has a list. -/
theorem exists_captureOf?_eq_one_iff :
    (∃ c, n.captureOf? key ms = some (.one c)) ↔ ms.length = 1 ∧ key ∉ n.lists := by
  cases ms with
  | nil => simp [captureOf?]
  | cons x xs =>
      cases xs with
      | nil =>
          by_cases hkey : key ∈ n.lists
          · simp [captureOf?, hkey]
          · simp [captureOf?, hkey]
      | cons y ys => simp [captureOf?]

theorem lookup_addTo (hh : h.lookup key = n.captureOf? key ms) (m : Match) :
    (n.addTo key m h).lookup key = n.captureOf? key (ms ++ [m]) := by
  induction h with
  | nil =>
      cases ms with
      | nil => rw [addTo, Capture.lookup_cons_eq, if_pos rfl, List.nil_append, captureOf?]
      | cons x xs => cases xs <;> cases hh
  | cons p rest ih =>
      obtain ⟨k, c⟩ := p
      rw [Capture.lookup_cons_eq] at hh
      rw [addTo]
      by_cases hk : k = key
      · rw [if_pos hk.symm] at hh
        have hms : c.toList = ms := by
          have hlist := toList_captureOf? n key ms
          rwa [← hh] at hlist
        have hne : ms ≠ [] := by
          rintro rfl
          cases hh
        rw [if_pos hk, Capture.lookup_cons_eq, if_pos hk.symm, hms, captureOf?_append hne]
      · rw [if_neg fun heq => hk heq.symm] at hh
        rw [if_neg hk, Capture.lookup_cons_eq, if_neg fun heq => hk heq.symm, ih hh]

theorem lookup_addTo_of_ne (hne : other ≠ key) (m : Match) (h : List (String × Capture)) :
    (n.addTo key m h).lookup other = h.lookup other := by
  induction h with
  | nil => rw [addTo, Capture.lookup_cons_eq, if_neg hne]
  | cons p rest ih =>
      obtain ⟨k, c⟩ := p
      rw [addTo]
      by_cases hk : k = key
      · have hother : other ≠ k := fun heq => hne (heq.trans hk)
        rw [if_pos hk, Capture.lookup_cons_eq, Capture.lookup_cons_eq, if_neg hother, if_neg hother]
      · rw [if_neg hk, Capture.lookup_cons_eq, Capture.lookup_cons_eq, ih]

/-- Going through matches with `addTo` adds to each name what comes under it. -/
theorem lookup_foldl_addTo (hh : h.lookup key = n.captureOf? key ms)
    (named : List (String × Match)) :
    (named.foldl (fun h p => n.addTo p.1 p.2 h) h).lookup key =
      n.captureOf? key (ms ++ (named.filter fun p => p.1 = key).map Prod.snd) := by
  induction named generalizing h ms with
  | nil => rw [List.foldl_nil, List.filter_nil, List.map_nil, List.append_nil, hh]
  | cons p named ih =>
      rw [List.foldl_cons]
      by_cases hp : p.1 = key
      · rw [List.filter_cons_of_pos (by simpa using hp), List.map_cons, List.append_cons]
        refine ih ?_
        rw [hp]
        exact lookup_addTo hh p.2
      · rw [List.filter_cons_of_neg (by simpa using hp)]
        refine ih ?_
        rw [lookup_addTo_of_ne fun heq => hp heq.symm, hh]

/-- What the table of `capture` holds under `key`: the matches of that name in order, unless they
are operands. -/
theorem lookup_capture (n : Naming) (named : List (String × Match)) (key : String) :
    (n.capture named).1.lookup key =
      if key ∈ n.positional then none
      else n.captureOf? key ((named.filter fun p => p.1 = key).map Prod.snd) := by
  have hempty : ([] : List (String × Capture)).lookup key = n.captureOf? key [] := rfl
  rw [capture, lookup_foldl_addTo hempty, List.filter_filter, List.nil_append]
  by_cases hkey : key ∈ n.positional
  · have hnone : (named.filter fun p => p.1 = key && !n.positional.contains p.1) = [] := by
      refine List.filter_eq_nil_iff.mpr fun p _ hp => ?_
      simp only [Bool.and_eq_true, decide_eq_true_eq, Bool.not_eq_true'] at hp
      rw [hp.1, List.contains_iff_mem.mpr hkey] at hp
      cases hp.2
    rw [if_pos hkey, hnone]
    rfl
  · rw [if_neg hkey]
    refine congrArg (fun l => n.captureOf? key (List.map Prod.snd l)) ?_
    refine List.filter_congr fun p _ => ?_
    by_cases hp : p.1 = key
    · simp [hp, hkey]
    · simp [hp]

/-! ### Every match once -/

theorem flatMap_addTo (n : Naming) (key : String) (m : Match) (h : List (String × Capture)) :
    ((n.addTo key m h).flatMap fun p => p.2.toList).Perm
      ((h.flatMap fun p => p.2.toList) ++ [m]) := by
  induction h with
  | nil =>
      rw [addTo]
      split
      · exact .refl _
      · exact .refl _
  | cons p rest ih =>
      obtain ⟨k, c⟩ := p
      rw [addTo]
      by_cases hk : k = key
      · rw [if_pos hk, List.flatMap_cons, List.flatMap_cons, Capture.toList, List.append_assoc,
          List.append_assoc]
        exact List.perm_append_comm.append_left c.toList
      · rw [if_neg hk, List.flatMap_cons, List.flatMap_cons, List.append_assoc]
        exact ih.append_left c.toList

theorem flatMap_foldl_addTo (n : Naming) (named : List (String × Match))
    (h : List (String × Capture)) :
    ((named.foldl (fun h p => n.addTo p.1 p.2 h) h).flatMap fun p => p.2.toList).Perm
      ((h.flatMap fun p => p.2.toList) ++ named.map Prod.snd) := by
  induction named generalizing h with
  | nil =>
      rw [List.foldl_nil, List.map_nil, List.append_nil]
  | cons p named ih =>
      rw [List.foldl_cons, List.map_cons, List.append_cons]
      exact (ih _).trans ((n.flatMap_addTo p.1 p.2 h).append_right _)

/-- Every match is in the table of `capture` or among its operands, once. -/
theorem held_capture (n : Naming) (named : List (String × Match)) :
    (((n.capture named).1.flatMap fun p => p.2.toList) ++ (n.capture named).2).Perm
      (named.map Prod.snd) := by
  rw [capture]
  have htable := n.flatMap_foldl_addTo (named.filter fun p => !n.positional.contains p.1) []
  rw [List.flatMap_nil, List.nil_append] at htable
  refine (htable.append_right _).trans ?_
  rw [← List.map_append]
  exact (List.perm_append_comm.trans (List.filter_append_perm _ named)).map Prod.snd

end Naming

/-- All matches that `m` holds directly, by name or as operands. -/
def Match.held (m : Match) : List Match := (m.named.flatMap fun p => p.2.toList) ++ m.operands

namespace ParseTree

/-! ### Children and their matches -/

/-- The children of a tree; only a `rule` has any. -/
def children : ParseTree → List ParseTree
  | rule _ _ ks => ks
  | token _ _ _ => []
  | missing => []

/-- The range of a tree; a `rule` that matched nothing has none, and neither has what is `missing`.
-/
def range? : ParseTree → Option (Int × Int)
  | rule _ range _ => range
  | token _ start stop => some (start, stop)
  | missing => none

/-- The name that a tree is captured under, if it counts: a `rule` does, and a `token` of a type
that has an alias. -/
def key? (n : Naming) : ParseTree → Option String
  | rule name _ _ => some (n.key name)
  | token type _ _ => if (n.aliases.lookup type).isSome then some (n.key type) else none
  | missing => none

/-- The match of a tree under the name of the tree, if the tree counts (`key?`). -/
def named? (n : Naming) (p : ParseTree × Match) : Option (String × Match) :=
  (p.1.key? n).map fun key => (key, p.2)

/-- How far the children have got behind one of them, when they had got to `cursor` before it. -/
def behind (n : Naming) (cursor : Int) : ParseTree → Int
  | rule name range ks => max cursor (toMatch n cursor (rule name range ks)).stop
  | token _ _ stop => stop
  | missing => cursor

/-- Some trees in a row, each with the match it becomes by `toMatch`. -/
def wrapFrom (n : Naming) (cursor : Int) : List ParseTree → List (ParseTree × Match)
  | [] => []
  | k :: ks => (k, k.toMatch n cursor) :: wrapFrom n (k.behind n cursor) ks

/-- The children of the tree `t`, each with the match it becomes. -/
def wrapped (n : Naming) (cursor : Int) (t : ParseTree) : List (ParseTree × Match) :=
  wrapFrom n (t.toMatch n cursor).start t.children

/-- The matches of the children of `t` that count, in order. -/
def counted (n : Naming) (cursor : Int) (t : ParseTree) : List Match :=
  ((t.wrapped n cursor).filter fun p => (p.1.key? n).isSome).map Prod.snd

variable {n : Naming} {cursor : Int} {t u : ParseTree} {ks : List ParseTree}

theorem map_fst_wrapFrom (n : Naming) (cursor : Int) (ks : List ParseTree) :
    (wrapFrom n cursor ks).map Prod.fst = ks := by
  induction ks generalizing cursor with
  | nil => rfl
  | cons k ks ih => rw [wrapFrom, List.map_cons, ih]

theorem named?_of_none {p : ParseTree × Match} (h : p.1.key? n = none) : named? n p = none := by
  rw [named?, h, Option.map_none]

theorem named?_of_some {p : ParseTree × Match} {key : String} (h : p.1.key? n = some key) :
    named? n p = some (key, p.2) := by
  rw [named?, h, Option.map_some]

theorem namedMatches_eq (n : Naming) (cursor : Int) (ks : List ParseTree) :
    namedMatches n cursor ks = (wrapFrom n cursor ks).filterMap (named? n) := by
  induction ks generalizing cursor with
  | nil => rfl
  | cons k ks ih =>
      rw [wrapFrom]
      cases k with
      | missing =>
          rw [List.filterMap_cons_none (named?_of_none rfl), ← ih]
          rfl
      | token type start stop =>
          rw [namedMatches]
          split
          · rename_i halias
            have hkey : (token type start stop).key? n = some (n.key type) := if_pos halias
            rw [List.filterMap_cons_some (named?_of_some hkey), ← ih]
            rfl
          · rename_i halias
            have hkey : (token type start stop).key? n = none := if_neg halias
            rw [List.filterMap_cons_none (named?_of_none hkey), ← ih]
            rfl
      | rule name range children =>
          have hkey : (rule name range children).key? n = some (n.key name) := rfl
          rw [List.filterMap_cons_some (named?_of_some hkey), ← ih]
          rfl

theorem toMatch_named_operands (n : Naming) (cursor : Int) (t : ParseTree) :
    ((t.toMatch n cursor).named, (t.toMatch n cursor).operands) =
      n.capture (namedMatches n (t.toMatch n cursor).start t.children) := by
  cases t with
  | rule name range children => rfl
  | token type start stop => rfl
  | missing => rfl

/-- Matches that are picked by a name they have are those of the trees whose `key?` is such a name.
-/
theorem map_snd_filter_named? (n : Naming) (pick : String → Bool) (ps : List (ParseTree × Match)) :
    ((ps.filterMap (named? n)).filter fun p => pick p.1).map Prod.snd =
      (ps.filter fun p => (p.1.key? n).any pick).map Prod.snd := by
  induction ps with
  | nil => rfl
  | cons p ps ih =>
      cases hkey : p.1.key? n with
      | none =>
          rw [List.filterMap_cons_none (named?_of_none hkey), ih,
            List.filter_cons_of_neg (by simp [hkey])]
      | some key =>
          rw [List.filterMap_cons_some (named?_of_some hkey)]
          by_cases hpick : pick key = true
          · rw [List.filter_cons_of_pos (by exact hpick),
              List.filter_cons_of_pos (by simpa [hkey] using hpick), List.map_cons, List.map_cons,
              ih]
          · rw [List.filter_cons_of_neg (by exact hpick),
              List.filter_cons_of_neg (by simpa [hkey] using hpick), ih]

/-- The matches of the children of `t` that are captured under `key`, in order. -/
def capturedAs (n : Naming) (cursor : Int) (t : ParseTree) (key : String) : List Match :=
  ((t.wrapped n cursor).filter fun p => p.1.key? n = some key).map Prod.snd

/-- What `toMatch` holds under `key`: the children of that name, unless they are operands. -/
theorem lookup_named_toMatch (n : Naming) (cursor : Int) (t : ParseTree) (key : String) :
    (t.toMatch n cursor).named.lookup key =
      if key ∈ n.positional then none else n.captureOf? key (t.capturedAs n cursor key) := by
  have hnamed : (t.toMatch n cursor).named = (n.capture (namedMatches n _ t.children)).1 :=
    congrArg Prod.fst (toMatch_named_operands n cursor t)
  rw [hnamed, Naming.lookup_capture, namedMatches_eq, map_snd_filter_named? n fun k => k = key]
  refine if_congr Iff.rfl rfl (congrArg (fun l => n.captureOf? key (List.map Prod.snd l)) ?_)
  refine List.filter_congr fun p _ => ?_
  cases p.1.key? n with
  | none => rfl
  | some k => simp

theorem operands_toMatch (n : Naming) (cursor : Int) (t : ParseTree) :
    (t.toMatch n cursor).operands =
      ((t.wrapped n cursor).filter fun p => (p.1.key? n).any n.positional.contains).map
        Prod.snd := by
  have hoperands : (t.toMatch n cursor).operands = (n.capture (namedMatches n _ t.children)).2 :=
    congrArg Prod.snd (toMatch_named_operands n cursor t)
  rw [hoperands, Naming.capture, namedMatches_eq, map_snd_filter_named?]
  rfl

/-- Every child that counts is held once by `toMatch`. -/
theorem held_toMatch (n : Naming) (cursor : Int) (t : ParseTree) :
    (t.toMatch n cursor).held.Perm (t.counted n cursor) := by
  have hheld := n.held_capture (namedMatches n (t.toMatch n cursor).start t.children)
  rw [← toMatch_named_operands] at hheld
  refine hheld.trans (.of_eq ?_)
  have hall := map_snd_filter_named? n (fun _ => true) (t.wrapped n cursor)
  rw [List.filter_true] at hall
  rw [namedMatches_eq]
  refine hall.trans (congrArg (List.map Prod.snd) (List.filter_congr fun p _ => ?_))
  cases p.1.key? n with
  | none => rfl
  | some k => rfl

/-! ### Places -/

/-- Tree `u` is tree `t` or stands in it. -/
inductive Under (u : ParseTree) : ParseTree → Prop
  /-- The tree `u` itself. -/
  | self : Under u u
  /-- A tree in the child `k` of `t`. -/
  | child {k t : ParseTree} (h : Under u k) (hk : k ∈ t.children) : Under u t

/-- The ranges of a tree are nested and in order, which is what is assumed of parsers: no range
ends before it starts, a child that has a range lies in the range of its rule, so that a rule that
matched nothing has no such child, and the ranges of the children follow each other. -/
inductive WellPlaced : ParseTree → Prop
  /-- A rule, with its `range` in order and its children nested in it and in order. -/
  | rule {name : String} {range : Option (Int × Int)} {ks : List ParseTree}
      (ordered : ∀ r ∈ range, r.1 ≤ r.2)
      (within : ∀ p ∈ ks.filterMap range?, ∃ r ∈ range, r.1 ≤ p.1 ∧ p.2 ≤ r.2)
      (inOrder : (ks.filterMap range?).Pairwise fun p q => p.2 ≤ q.1)
      (children : ∀ k ∈ ks, WellPlaced k) : WellPlaced (.rule name range ks)
  /-- A token, from `a` to a `b` that is not before it. -/
  | token {type : String} {a b : Int} (ordered : a ≤ b) : WellPlaced (.token type a b)
  /-- A part that is `missing`, which has no range. -/
  | missing : WellPlaced .missing

theorem WellPlaced.under (h : t.WellPlaced) (hu : u.Under t) : u.WellPlaced := by
  induction hu with
  | self => exact h
  | child _ hk ih =>
      cases h with
      | rule _ _ _ hchildren => exact ih (hchildren _ hk)
      | token => cases hk
      | missing => cases hk

theorem WellPlaced.le (h : t.WellPlaced) {r : Int × Int} (hr : t.range? = some r) : r.1 ≤ r.2 := by
  cases h with
  | rule hordered => exact hordered r hr
  | token hordered =>
      cases hr
      exact hordered
  | missing => cases hr

end ParseTree

/-- Matches one behind the other, from `a` to `b`. -/
def Match.InRow (a b : Int) : List Match → Prop
  | [] => a ≤ b
  | m :: ms => a ≤ m.start ∧ m.start ≤ m.stop ∧ InRow m.stop b ms

namespace Match.InRow

variable {a a' b : Int} {ms : List Match}

theorem le (h : InRow a b ms) : a ≤ b := by
  induction ms generalizing a with
  | nil => exact h
  | cons m ms ih =>
      have hrest := ih h.2.2
      have hstart := h.1
      have hwidth := h.2.1
      omega

theorem weaken (h : InRow a b ms) (ha : a' ≤ a) : InRow a' b ms := by
  cases ms with
  | nil => exact Int.le_trans ha h
  | cons m ms => exact ⟨Int.le_trans ha h.1, h.2⟩

/-- Matches that are `InRow` lie between the ends `a` and `b` of the row. -/
theorem within (h : InRow a b ms) : ∀ m ∈ ms, a ≤ m.start ∧ m.start ≤ m.stop ∧ m.stop ≤ b := by
  induction ms generalizing a with
  | nil => simp
  | cons m ms ih =>
      obtain ⟨hstart, hwidth, hrest⟩ := h
      intro c hc
      rcases List.mem_cons.mp hc with rfl | hc
      · exact ⟨hstart, hwidth, hrest.le⟩
      · obtain ⟨hc₁, hc₂, hc₃⟩ := ih hrest c hc
        exact ⟨by omega, hc₂, hc₃⟩

/-- Of matches that are `InRow`, each starts behind all that come before it. -/
theorem pairwise (h : InRow a b ms) : ms.Pairwise fun c d => c.stop ≤ d.start := by
  induction ms generalizing a with
  | nil => exact .nil
  | cons m ms ih => exact .cons (fun d hd => (h.2.2.within d hd).1) (ih h.2.2)

end Match.InRow

namespace ParseTree

variable {n : Naming} {cursor b : Int} {t u : ParseTree} {ks : List ParseTree}

/-- The row of matches goes on in front, if the child `k` in front counts. -/
theorem inRow_cons {k : ParseTree} {cursor' : Int} {ps : List (ParseTree × Match)}
    (hstart : cursor ≤ (k.toMatch n cursor).start)
    (hwidth : (k.toMatch n cursor).start ≤ (k.toMatch n cursor).stop)
    (hbehind : (k.toMatch n cursor).stop ≤ cursor')
    (h : Match.InRow cursor' b ((ps.filter fun p => (p.1.key? n).isSome).map Prod.snd)) :
    Match.InRow cursor b
      ((((k, k.toMatch n cursor) :: ps).filter fun p => (p.1.key? n).isSome).map Prod.snd) := by
  rw [List.filter_cons]
  split
  · exact ⟨hstart, hwidth, h.weaken hbehind⟩
  · exact h.weaken (by omega)

/-- Children whose ranges follow each other between `cursor` and `b` become matches that do. -/
theorem inRow_wrapFrom (hcursor : cursor ≤ b)
    (hwithin : ∀ p ∈ ks.filterMap range?, cursor ≤ p.1 ∧ p.1 ≤ p.2 ∧ p.2 ≤ b)
    (horder : (ks.filterMap range?).Pairwise fun p q => p.2 ≤ q.1) :
    Match.InRow cursor b
      (((wrapFrom n cursor ks).filter fun p => (p.1.key? n).isSome).map Prod.snd) := by
  induction ks generalizing cursor with
  | nil => exact hcursor
  | cons k ks ih =>
      rw [wrapFrom]
      cases hrange : k.range? with
      | none =>
          -- the child has no place of its own: it is empty at the cursor, which stays where it is
          rw [List.filterMap_cons_none hrange] at horder hwithin
          have hrest := ih hcursor hwithin horder
          cases k with
          | rule name range children =>
              obtain rfl : range = none := hrange
              have hstay : behind n cursor (rule name none children) = cursor := max_self cursor
              rw [hstay]
              exact inRow_cons (Int.le_refl _) (Int.le_refl _) (Int.le_refl _) hrest
          | token type start stop => cases hrange
          | missing => exact inRow_cons (Int.le_refl _) (Int.le_refl _) (Int.le_refl _) hrest
      | some range =>
          obtain ⟨c, d⟩ := range
          rw [List.filterMap_cons_some hrange] at horder hwithin
          obtain ⟨hbefore, horder⟩ := List.pairwise_cons.mp horder
          obtain ⟨⟨hc, hcd, hd⟩, hwithin⟩ := List.forall_mem_cons.mp hwithin
          have hplace : (k.toMatch n cursor).start = c ∧ (k.toMatch n cursor).stop = d ∧
              k.behind n cursor = d := by
            cases k with
            | rule name range children =>
                obtain rfl : range = some (c, d) := hrange
                exact ⟨rfl, rfl, max_eq_right (hc.trans hcd)⟩
            | token type start stop =>
                cases hrange
                exact ⟨rfl, rfl, rfl⟩
            | missing => cases hrange
          obtain ⟨hstart, hstop, hbehind⟩ := hplace
          have hrest := ih hd (fun p hp => ⟨hbefore p hp, (hwithin p hp).2⟩) horder
          rw [hbehind]
          exact inRow_cons (hstart ▸ hc) (by rw [hstart, hstop]; exact hcd) (Int.le_of_eq hstop)
            hrest

/-- The children of a tree that is `WellPlaced` become matches in its range, one behind the other.
-/
theorem inRow_counted (h : t.WellPlaced) (n : Naming) (cursor : Int) :
    Match.InRow (t.toMatch n cursor).start (t.toMatch n cursor).stop (t.counted n cursor) := by
  cases h with
  | @rule name range ks hordered hwithin horder hchildren =>
      cases range with
      | none =>
          refine inRow_wrapFrom (Int.le_refl _) (fun p hp => ?_) horder
          obtain ⟨r, hr, -⟩ := hwithin p hp
          cases hr
      | some r =>
          refine inRow_wrapFrom (hordered r rfl) (fun p hp => ?_) horder
          obtain ⟨r', hr, hlow, hhigh⟩ := hwithin p hp
          cases hr
          obtain ⟨k, hk, hrange⟩ := List.mem_filterMap.mp hp
          exact ⟨hlow, (hchildren k hk).le hrange, hhigh⟩
  | token hordered => exact hordered
  | missing => exact Int.le_refl _

/-! ### Reaching matches -/

theorem Under.trans {s : ParseTree} (h : s.Under u) (hu : u.Under t) : s.Under t := by
  induction hu with
  | self => exact h
  | child _ hk ih => exact .child ih hk

theorem mem_wrapFrom {k : ParseTree} {c : Match} (h : (k, c) ∈ wrapFrom n cursor ks) :
    k ∈ ks ∧ ∃ i, c = k.toMatch n i := by
  induction ks generalizing cursor with
  | nil => cases h
  | cons l ks ih =>
      rw [wrapFrom] at h
      rcases List.mem_cons.mp h with heq | h
      · cases heq
        exact ⟨List.mem_cons_self, cursor, rfl⟩
      · obtain ⟨hk, hc⟩ := ih h
        exact ⟨List.mem_cons_of_mem l hk, hc⟩

theorem captures_toMatch (n : Naming) (cursor : Int) (t : ParseTree) (key : String) :
    (t.toMatch n cursor).captures key =
      if key ∈ n.positional then [] else t.capturedAs n cursor key := by
  rw [Match.captures, lookup_named_toMatch]
  split
  · rfl
  · exact n.toList_captureOf? key _

/-- A match that is picked from those of the children of `t` is that of a tree in `t`. -/
theorem exists_under_of_mem {pick : ParseTree × Match → Bool} {c : Match}
    (h : c ∈ ((t.wrapped n cursor).filter pick).map Prod.snd) :
    ∃ (u : ParseTree) (i : Int), u.Under t ∧ c = u.toMatch n i := by
  obtain ⟨⟨k, c⟩, hmem, rfl⟩ := List.mem_map.mp h
  obtain ⟨hk, i, hc⟩ := mem_wrapFrom (List.mem_of_mem_filter hmem)
  exact ⟨k, i, .child .self hk, hc⟩

/-- All matches in the match of `t` are those of trees in `t`. -/
theorem exists_under_of_inside {d m : Match} (h : d.Inside m) (hm : m = t.toMatch n cursor) :
    ∃ (u : ParseTree) (i : Int), u.Under t ∧ d = u.toMatch n i := by
  induction h generalizing t cursor with
  | @capture m c key hc =>
      rw [hm, captures_toMatch] at hc
      split at hc
      · cases hc
      · exact exists_under_of_mem hc
  | operand hc =>
      rw [hm, operands_toMatch] at hc
      exact exists_under_of_mem hc
  | trans _ _ ihd ihc =>
      obtain ⟨v, j, hv, hc⟩ := ihc hm
      obtain ⟨u, i, hu, hd⟩ := ihd hc
      exact ⟨u, i, hu.trans hv, hd⟩

/-! ### The whole tree -/

/-- **Parse trees keep their captures, in order and in place.**

* The match of a tree holds each of the children that count once. Those of a name that has no
  operands are captured under it, in order; those of the other names are the operands, in order.
  What is captured under a name is a bare match exactly if one child has the name and the name does
  not always have a list.
* Any match that can be reached from the match of the tree is that of a tree in it. If the ranges of
  the tree are nested and in order, the matches of the children that count lie in its range, each of
  them behind all that come before it. -/
theorem toMatch_keeps_captures (n : Naming) (t : ParseTree) (cursor : Int) :
    ((t.wrapped n cursor).map Prod.fst = t.children ∧
      (t.toMatch n cursor).held.Perm (t.counted n cursor) ∧
      (t.toMatch n cursor).operands =
        ((t.wrapped n cursor).filter fun p => (p.1.key? n).any n.positional.contains).map Prod.snd ∧
      ∀ key,
        (key ∈ n.positional → (t.toMatch n cursor).named.lookup key = none) ∧
        (key ∉ n.positional →
          (t.toMatch n cursor).captures key = t.capturedAs n cursor key ∧
          ((∃ c, (t.toMatch n cursor).named.lookup key = some (.one c)) ↔
            t.children.countP (fun k => k.key? n = some key) = 1 ∧ key ∉ n.lists))) ∧
    (∀ d, d = t.toMatch n cursor ∨ d.Inside (t.toMatch n cursor) →
      ∃ (u : ParseTree) (i : Int), u.Under t ∧ d = u.toMatch n i ∧ d.held.Perm (u.counted n i) ∧
        (t.WellPlaced →
          (∀ c ∈ u.counted n i, d.start ≤ c.start ∧ c.start ≤ c.stop ∧ c.stop ≤ d.stop) ∧
          (u.counted n i).Pairwise fun c c' => c.stop ≤ c'.start)) := by
  have hfst : (t.wrapped n cursor).map Prod.fst = t.children := map_fst_wrapFrom n _ t.children
  refine ⟨⟨hfst, held_toMatch n cursor t, operands_toMatch n cursor t, fun key => ⟨?_, ?_⟩⟩, ?_⟩
  · intro hkey
    rw [lookup_named_toMatch, if_pos hkey]
  · intro hkey
    refine ⟨by rw [captures_toMatch, if_neg hkey], ?_⟩
    rw [lookup_named_toMatch, if_neg hkey, Naming.exists_captureOf?_eq_one_iff, capturedAs,
      List.length_map, ← List.countP_eq_length_filter, ← hfst, List.countP_map]
    rfl
  · intro d hd
    have htree : ∃ (u : ParseTree) (i : Int), u.Under t ∧ d = u.toMatch n i := by
      rcases hd with rfl | hd
      · exact ⟨t, cursor, .self, rfl⟩
      · exact exists_under_of_inside hd rfl
    obtain ⟨u, i, hu, rfl⟩ := htree
    refine ⟨u, i, hu, rfl, held_toMatch n i u, fun hplaced => ?_⟩
    have hrow := inRow_counted (hplaced.under hu) n i
    exact ⟨hrow.within, hrow.pairwise⟩

/-- `1+2` as a sum, with a rule behind the operator that matched nothing and holds another one. -/
def sampleSum : ParseTree :=
  rule "sum" (some (0, 3))
    [rule "term" (some (0, 1)) [], token "OP" 1 2, rule "gap" none [rule "blank" none []],
      rule "term" (some (2, 3)) [token "DIGIT" 2 3], missing]

/-- Operators are captured as `infix`, and terms are operands. -/
def sampleNaming : Naming := { aliases := [("OP", "infix")], lists := [], positional := ["term"] }

theorem sampleSum_wellPlaced : sampleSum.WellPlaced := by
  have hblank : (rule "blank" none []).WellPlaced :=
    .rule (by decide) (by decide) (by decide) (List.forall_mem_nil _)
  have hgap : (rule "gap" none [rule "blank" none []]).WellPlaced :=
    .rule (by decide) (by decide) (by decide) (List.forall_mem_singleton.mpr hblank)
  have hfirst : (rule "term" (some (0, 1)) []).WellPlaced :=
    .rule (by decide) (by decide) (by decide) (List.forall_mem_nil _)
  have hsecond : (rule "term" (some (2, 3)) [token "DIGIT" 2 3]).WellPlaced :=
    .rule (by decide) (by decide) (by decide) (List.forall_mem_singleton.mpr (.token (by decide)))
  refine .rule (by decide) (by decide) (by decide) ?_
  simp only [List.forall_mem_cons, List.not_mem_nil, false_imp_iff, implies_true, and_true]
  exact ⟨hfirst, .token (by decide), hgap, hsecond, .missing⟩

/-- In `sampleSum`, the operator is captured by name and the terms are operands; the rule that
matched nothing lies at 2, between the operator and the second term, and what it holds lies there,
too. -/
theorem sampleSum_keeps_captures :
    "infix" ∉ sampleNaming.positional ∧
    (∃ c, (sampleSum.toMatch sampleNaming 0).named.lookup "infix" = some (.one c)) ∧
    (sampleSum.toMatch sampleNaming 0).captures "infix" =
      sampleSum.capturedAs sampleNaming 0 "infix" ∧
    (sampleSum.toMatch sampleNaming 0).operands.map (fun c => (c.start, c.stop)) =
      [(0, 1), (2, 3)] ∧
    (sampleSum.counted sampleNaming 0).map (fun c => (c.start, c.stop)) =
      [(0, 1), (1, 2), (2, 2), (2, 3)] ∧
    ∀ d ∈ (sampleSum.toMatch sampleNaming 0).captures "gap", ∃ (u : ParseTree) (i : Int),
      u.Under sampleSum ∧ d = u.toMatch sampleNaming i ∧
      ∀ c ∈ u.counted sampleNaming i, d.start ≤ c.start ∧ c.start ≤ c.stop ∧ c.stop ≤ d.stop := by
  obtain ⟨⟨-, -, hoperands, hnames⟩, hplaces⟩ := toMatch_keeps_captures sampleNaming sampleSum 0
  have hkey : "infix" ∉ sampleNaming.positional := by decide
  obtain ⟨hcaptures, hbare⟩ := (hnames "infix").2 hkey
  refine ⟨hkey, hbare.mpr ⟨by decide, by decide⟩, hcaptures, by rw [hoperands]; decide, by decide,
    fun d hd => ?_⟩
  obtain ⟨u, i, hu, hmatch, -, hplaced⟩ := hplaces d (.inr (.capture hd))
  exact ⟨u, i, hu, hmatch, (hplaced sampleSum_wellPlaced).1⟩

end ParseTree

end RakuTree
