import Mathlib.Data.List.Sort
import RakuTree.Proofs.EmptyCaptures.Effects
import RakuTree.Proofs.Ignored.Frames

/-!
# RakuTree.Proofs.EmptyCaptures.Added

A match with one capture more, which is empty.

The shape of a match tells captures with content from those that are there but empty, so an empty
capture does not change which branch of a rule is taken. But rules that go through their captures
in source order do not ask the shape again: the capture stands somewhere among the others
(`Match.row_adding`), and is handed to its production like any other
(`Frame.buildInOrder_adding`).
-/

namespace RakuTree

/-! ### Source order -/

/-- If `ys` has the items of `xs` in the same order and one item `x` more, it is `xs` with `x` put
in somewhere. -/
theorem exists_split_of_sublist {α : Type} {xs ys : List α} {x : α} (hsub : xs.Sublist ys)
    (hperm : ys.Perm (x :: xs)) : ∃ front back, xs = front ++ back ∧ ys = front ++ x :: back := by
  induction hsub with
  | slnil => exact absurd hperm.length_eq (by simp)
  | @cons xs ys y hsub _ =>
      obtain rfl : xs = ys := hsub.eq_of_length (by simpa using hperm.length_eq.symm)
      have hsingle : [y].Perm [x] := (List.perm_append_right_iff xs).mp hperm
      obtain rfl : y = x := List.singleton_perm_singleton.mp hsingle
      exact ⟨[], xs, rfl, rfl⟩
  | @cons_cons xs ys y _ ih =>
      obtain ⟨front, back, rfl, rfl⟩ := ih (hperm.trans (.swap y x xs)).cons_inv
      exact ⟨y :: front, back, rfl, rfl⟩

/-- Where one item `x` more is sorted in, it stands somewhere among the others. -/
theorem insertionSort_insert {α : Type} (r : α → α → Prop) [DecidableRel r] [IsTrans α r]
    [Std.Total r] (xs ys : List α) (x : α) :
    ∃ front back, (xs ++ ys).insertionSort r = front ++ back ∧
      (xs ++ x :: ys).insertionSort r = front ++ x :: back := by
  have hsub : ((xs ++ ys).insertionSort r).Sublist ((xs ++ x :: ys).insertionSort r) := by
    induction xs with
    | nil => exact List.sublist_orderedInsert x _
    | cons z xs ih =>
        exact List.Sublist.orderedInsert_sublist z ih (List.pairwise_insertionSort r _)
  refine exists_split_of_sublist hsub ?_
  exact (List.perm_insertionSort r _).trans
    (List.perm_middle.trans ((List.perm_insertionSort r _).symm.cons x))

namespace Match

variable {κ : Type} {m : Match}

/-- The match of `x` starts no later than that of `y`. -/
def NotAfter (x y : κ × Match) : Prop := x.2.start ≤ y.2.start

instance : DecidableRel (NotAfter (κ := κ)) := fun x y =>
  inferInstanceAs (Decidable (x.2.start ≤ y.2.start))

instance : IsTrans (κ × Match) NotAfter := ⟨fun _ _ _ => Int.le_trans⟩

instance : Std.Total (NotAfter (κ := κ)) := ⟨fun x y => Int.le_total x.2.start y.2.start⟩

/-- The matches of `m` under the names of `keys`, each with its key, in source order. -/
def row (m : Match) (nameOf : κ → String) (keys : List κ) : List (κ × Match) :=
  (keys.flatMap fun key => (m.captures (nameOf key)).map fun c => (key, c)).insertionSort NotAfter

/-- The match of a part `x`, with its key. -/
def bare (x : κ × m.Inner) : κ × Match := (x.1, x.2.val)

theorem map_bare_insertByStart (x : κ × m.Inner) (xs : List (κ × m.Inner)) :
    (insertByStart x xs).map bare = (xs.map bare).orderedInsert NotAfter (bare x) := by
  induction xs with
  | nil => rfl
  | cons y ys ih =>
      rw [insertByStart, List.map_cons, List.orderedInsert_cons, ← ih]
      split
      · rename_i hle
        exact (if_pos (show NotAfter (bare x) (bare y) from hle)).symm
      · rename_i hle
        exact (if_neg (show ¬ NotAfter (bare x) (bare y) from hle)).symm

theorem map_bare_inSourceOrder (m : Match) (nameOf : κ → String) (keys : List κ) :
    (m.inSourceOrder nameOf keys).map bare = m.row nameOf keys := by
  have hsort : ∀ xs : List (κ × m.Inner),
      (sortByStart xs).map bare = (xs.map bare).insertionSort NotAfter := by
    intro xs
    induction xs with
    | nil => rfl
    | cons x xs ih =>
        rw [sortByStart, map_bare_insertByStart, ih, List.map_cons, List.insertionSort_cons]
  rw [inSourceOrder, hsort, row, List.map_flatMap]
  congr 1
  refine List.flatMap_congr fun key _ => ?_
  rw [← map_val_inners, List.map_map, List.map_map]
  rfl

end Match

/-! ### A capture more -/

namespace Match

variable {κ : Type} {m c : Match} {key other : String}

/-- The match `m` with one capture more: `c` under `key`, behind the others. -/
def adding (m : Match) (key : String) (c : Match) : Match :=
  .node m.start m.stop (m.named ++ [(key, .one c)]) m.operands m.rule

theorem captures_adding (habsent : m.named.lookup key = none) (c : Match) (other : String) :
    (m.adding key c).captures other = if other = key then [c] else m.captures other := by
  rw [captures, captures, adding, named, List.lookup_append]
  by_cases hother : other = key
  · rw [hother, habsent, if_pos rfl]
    simp [Capture.toList]
  · have hne : (other == key) = false := beq_eq_false_iff_ne.mpr hother
    rw [if_neg hother]
    simp [List.lookup_cons, hne]

theorem captures_of_absent (habsent : m.named.lookup key = none) : m.captures key = [] := by
  rw [captures, habsent]
  rfl

/-- An empty capture `c` does not change what has content. -/
theorem IsEmpty.content_adding (h : c.IsEmpty) (m : Match) (key : String) :
    (Shape.of (m.adding key c)).content = (Shape.of m).content := by
  have hnarrow : (Capture.one c).hasContent = false := h.isWide_eq
  simp only [Shape.of, adding, named, List.filter_append, List.filter_filter]
  simp [hnarrow]

/-- Captures under names other than `key` are as they were. -/
theorem parts_adding (habsent : m.named.lookup key = none) (c : Match) (nameOf : κ → String)
    {keys : List κ} (hkeys : ∀ l ∈ keys, nameOf l ≠ key) :
    (keys.flatMap fun l => ((m.adding key c).captures (nameOf l)).map fun d => (l, d)) =
      keys.flatMap fun l => (m.captures (nameOf l)).map fun d => (l, d) := by
  refine List.flatMap_congr fun l hl => ?_
  rw [captures_adding habsent, if_neg (hkeys l hl)]

theorem row_adding_of_ne (habsent : m.named.lookup key = none) (c : Match) (nameOf : κ → String)
    {keys : List κ} (hkeys : ∀ l ∈ keys, nameOf l ≠ key) :
    (m.adding key c).row nameOf keys = m.row nameOf keys := by
  rw [row, row, parts_adding habsent c nameOf hkeys]

/-- The capture `c` stands somewhere among the other parts of the `row`. -/
theorem row_adding (habsent : m.named.lookup key = none) (c : Match) (nameOf : κ → String)
    {keys : List κ} (hkeys : (keys.map nameOf).Nodup) {k : κ} (hmem : k ∈ keys)
    (hk : nameOf k = key) :
    ∃ front back, m.row nameOf keys = front ++ back ∧
      (m.adding key c).row nameOf keys = front ++ (k, c) :: back := by
  obtain ⟨before, behind, rfl⟩ := List.append_of_mem hmem
  have hothers : nameOf k ∉ (before ++ behind).map nameOf := by
    rw [List.map_append, List.map_cons, List.nodup_middle, ← List.map_append] at hkeys
    exact (List.nodup_cons.mp hkeys).1
  have hne : ∀ l ∈ before ++ behind, nameOf l ≠ key := by
    intro l hl heq
    exact hothers (List.mem_map.mpr ⟨l, hl, heq.trans hk.symm⟩)
  have hbefore : ∀ l ∈ before, nameOf l ≠ key := fun l hl => hne l (List.mem_append_left _ hl)
  have hbehind : ∀ l ∈ behind, nameOf l ≠ key := fun l hl => hne l (List.mem_append_right _ hl)
  rw [row, row, List.flatMap_append, List.flatMap_append, List.flatMap_cons, List.flatMap_cons,
    parts_adding habsent c nameOf hbefore, parts_adding habsent c nameOf hbehind, hk,
    captures_of_absent habsent, captures_adding habsent, if_pos rfl]
  exact insertionSort_insert NotAfter _ _ _

end Match

/-! ### Frames with a capture more -/

/-- Builds a part by its production with `build`, whatever came before. -/
def Builder.step (build : Builder) : List Element → Production × Match → Build (List Element) :=
  fun _ x => build x.1 (some x.2)

theorem produce_same (src : Text) (options : Options) (p : Production) (m : Match) :
    Build.Against (produce src options p m) (produce src options p m) Build.Same :=
  (produce_related BuildState.sameLedger_kept src options options p m).against

theorem produce_keeps (src : Text) (options : Options) (x : Production × Match) :
    Build.Keeps (Builder.step (produceAny src options)) (Builder.step (produceAny src options))
      x where
  same _ := produce_same src options x.1 x.2
  length _ _ := (produce_same src options x.1 x.2).mono fun _ _ => Build.sameLength_of_same

theorem Match.capture?_adding {m : Match} {key other : String} (habsent : m.named.lookup key = none)
    (c : Match) (hother : other ≠ key) : (m.adding key c).capture? other = m.capture? other := by
  rw [capture?, captures_adding habsent, if_neg hother, capture?]

namespace Frame

open Build

variable (f : Frame) (build : Builder)

theorem follow_buildKey (p : Production) :
    (f.buildKey p).follow build = build p (f.self.capture? p.key) := by
  rw [buildKey, follow_build, get?, Match.map_val_inner?]

theorem follow_need (access : Access) (key : String) :
    (f.need access (f.get? key)).follow build =
      (f.self.capture? key).elim (throw (.absentCapture access)) pure := by
  rw [← Match.map_val_inner?, get?]
  cases f.self.inner? key with
  | none => rfl
  | some c => rfl

theorem follow_buildParts (nodes : List Element) (cs : List (Production × f.self.Inner)) :
    ((f.buildParts cs).follow build >>= fun es => pure (nodes ++ es)) =
      through build.step nodes (cs.map Match.bare) := by
  induction cs generalizing nodes with
  | nil => simp [buildParts, through]
  | cons x cs ih =>
      have hcons : (f.buildParts (x :: cs)).follow build =
          build x.1 (some x.2.val) >>= fun es =>
            (f.buildParts cs).follow build >>= fun rest => pure (es ++ rest) := by
        simp [buildParts]
      rw [hcons, bind_assoc, List.map_cons, through]
      refine bind_congr fun es => ?_
      rw [← ih, bind_assoc]
      simp

theorem follow_buildInOrder (ps : List Production) :
    (f.buildInOrder ps).follow build = through build.step [] (f.self.row Production.key ps) := by
  rw [← Match.map_bare_inSourceOrder, ← follow_buildParts]
  exact (bind_pure _).symm

/-- The frame `f` with one capture more, `c` under `key`. -/
def adding (key : String) (c : Match) : Frame := { f with self := f.self.adding key c }

theorem self_adding (key : String) (c : Match) : (f.adding key c).self = f.self.adding key c := rfl

variable {f} {key : String} {c : Match}

theorem fits_adding (hc : c.IsEmpty) (required optional : List String) :
    (f.adding key c).shape.fits required optional = f.shape.fits required optional := by
  have hcontent : (f.adding key c).shape.content = f.shape.content := hc.content_adding f.self key
  have hhas : (f.adding key c).shape.has = f.shape.has := by
    funext other
    rw [Shape.has, Shape.has, hcontent]
  rw [Shape.fits, Shape.fits, hhas, hcontent]

theorem buildKey_adding (habsent : f.self.named.lookup key = none) (c : Match) {p : Production}
    (hp : p.key ≠ key) :
    ((f.adding key c).buildKey p).follow build = (f.buildKey p).follow build := by
  rw [follow_buildKey, follow_buildKey, self_adding, Match.capture?_adding habsent c hp]

variable {options : Options}

theorem need_adding (habsent : f.self.named.lookup key = none) (c : Match) {access : Access}
    {other : String} (hother : other ≠ key) :
    ((f.adding key c).need access ((f.adding key c).get? other)).follow build =
      (f.need access (f.get? other)).follow build := by
  rw [follow_need, follow_need, self_adding, Match.capture?_adding habsent c hother]

theorem buildInOrder_adding_of_ne (habsent : f.self.named.lookup key = none) (c : Match)
    {ps : List Production} (hps : ∀ p ∈ ps, p.key ≠ key) :
    ((f.adding key c).buildInOrder ps).follow build = (f.buildInOrder ps).follow build := by
  rw [follow_buildInOrder, follow_buildInOrder, self_adding,
    Match.row_adding_of_ne habsent c _ hps]

theorem follow_same {α : Type} (x : Plan f α) (src : Text) :
    Against (x.follow (produceAny src options)) (x.follow (produceAny src options)) Same := by
  have hkept := BuildState.sameLedger_kept
  exact (Plan.run_related hkept x fun p c? =>
    produceAny_related hkept src options options p (c?.map Match.Inner.val)).against

/-- Where a rule goes through its captures by `buildInOrder`, an empty one has the effect that its
production gives it. -/
theorem buildInOrder_adding (habsent : f.self.named.lookup key = none) (hc : c.IsEmpty)
    {ps : List Production} (hps : (ps.map Production.key).Nodup)
    (hkey : ∃ p ∈ ps, p ∈ Production.optional ∧ p.key = key) (src : Text) (options : Options) :
    Against ((f.buildInOrder ps).follow (produceAny src options))
      (((f.adding key c).buildInOrder ps).follow (produceAny src options))
      (Effect.under key).Holds := by
  obtain ⟨p, hp, hoptional, hpkey⟩ := hkey
  obtain ⟨front, back, hrow, hrow'⟩ := Match.row_adding habsent c Production.key hps hp hpkey
  rw [follow_buildInOrder, follow_buildInOrder, self_adding, hrow, hrow']
  refine through_insert (fun x _ => produce_keeps src options x) (fun _ => ?_) []
  rw [← hpkey]
  exact hc.effect hoptional

theorem expect_gives (f : Frame) (cls : LeafClass) (start stop : Int) (token : Token)
    (s : BuildState) :
    ((f.expect cls start stop token).follow build).Gives s (f.find? cls start stop token) := by
  rw [expect]
  cases f.find? cls start stop token with
  | none => exact Plan.refuse_gives _
  | some l => exact Plan.done_gives l

/-- A search by `expect` comes to the same with the capture `c` as without it. -/
theorem expect_same (f : Frame) (key : String) (c : Match) (cls : LeafClass) (start stop : Int)
    (token : Token) :
    Against ((f.expect cls start stop token).follow build)
      (((f.adding key c).expect cls start stop token).follow build) Same :=
  .of_gives (expect_gives build f cls start stop token)
    (expect_gives build (f.adding key c) cls start stop token) fun _ hl => hl

/-- Different searches by `expect` come to one leaf each, if they come to anything. -/
theorem expect_any (f : Frame) (key : String) (c : Match) (cls : LeafClass)
    (start stop start' stop' : Int) (token : Token) :
    Against ((f.expect cls start stop token).follow build)
      (((f.adding key c).expect cls start' stop' token).follow build) fun _ _ => True :=
  .of_gives (expect_gives build f cls start stop token)
    (expect_gives build (f.adding key c) cls start' stop' token) fun _ _ => trivial

theorem trimmed_same (f : Frame) (key : String) (c : Match) (cls : LeafClass) (d : Match) :
    Against ((f.trimmed cls d).follow build) (((f.adding key c).trimmed cls d).follow build) Same :=
  .of_gives (f.trimmed_gives cls d) ((f.adding key c).trimmed_gives cls d) fun _ hes => hes

theorem endOf_gives (f : Frame) (nodes : List Element) (s : BuildState) :
    ((f.endOf nodes).follow build).Gives s
      (nodes.head?.map fun k => Element.lastEnd k.outerEnd nodes.tail) := by
  cases nodes with
  | nil => exact Plan.fail_gives _
  | cons k ks => exact Plan.done_gives _

end Frame

end RakuTree
