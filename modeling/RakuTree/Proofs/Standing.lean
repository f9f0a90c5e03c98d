import RakuTree.Element.Delimited
import RakuTree.Text.Keyword

/-!
# RakuTree.Proofs.Standing

Text that stands in the source where it is said to stand.

A leaf is made from an offset and some text, and the two come from different
places: a slice that may count from the end of the source, a search, a trim. What
they all have in common is `Text.StandsAt`: the text begins the source behind the
offset. The lemmas here show it once for each way of getting hold of text, so that
the makers of leaves (`Leaf.StandsIn`) only have to be asked where they look.
-/

namespace RakuTree

namespace Text

/-- `s` stands at offset `i` of the source. -/
def StandsAt (src : Text) (i : Nat) (s : Text) : Prop := s <+: src.drop i

instance (src : Text) (i : Nat) (s : Text) : Decidable (StandsAt src i s) :=
  inferInstanceAs (Decidable (s <+: src.drop i))

variable {src s t : Text}

/-! ### Places -/

theorem place_of_nonneg {i : Int} (h : 0 ≤ i) (n : Nat) : place n i = i.toNat := by
  rw [place, if_neg (by omega)]

theorem place_of_neg {i : Int} (h : i < 0) (n : Nat) : place n i = (i + n).toNat := by
  rw [place, if_pos h]

@[simp] theorem place_natCast (n i : Nat) : place n (i : Int) = i := by
  rw [place_of_nonneg (by omega), Int.toNat_natCast]

@[simp] theorem charAt?_natCast (s : Text) (i : Nat) : charAt? s (i : Int) = s[i]? := by
  rw [charAt?, if_pos (by omega), Int.toNat_natCast]

/-! ### Slices -/

theorem standsAt_nil (src : Text) (i : Nat) : StandsAt src i [] := List.nil_prefix

/-- What begins a text `t` that stands at `i` stands there, too. -/
theorem StandsAt.shorten {i : Nat} (h : StandsAt src i t) (hs : s <+: t) : StandsAt src i s :=
  hs.trans h

/-- What stands in a text `t` that stands at `i`, behind its first `k` characters, stands at `i +
k`. -/
theorem StandsAt.drop {i k : Nat} (h : StandsAt src i t) (hs : s <+: t.drop k) :
    StandsAt src (i + k) s := by
  obtain ⟨rest, hrest⟩ := h
  refine hs.trans ?_
  rw [← List.drop_drop, ← hrest]
  rcases Nat.le_total k t.length with hk | hk
  · rw [List.drop_append_of_le_length hk]
    exact List.prefix_append _ _
  · rw [List.drop_eq_nil_of_le hk]
    exact List.nil_prefix

/-- A text that stands in the source is the slice of its own length there. -/
theorem StandsAt.slice_eq {i : Nat} (h : StandsAt src i s) :
    Text.slice src i (i + s.length) = s := by
  rw [← Int.natCast_add]
  simp only [slice, place_natCast, List.drop_take]
  rw [Nat.add_sub_cancel_left]
  exact (List.prefix_iff_eq_take.mp h).symm

/-- A slice whose start `a` counts from the end is no longer than that count. -/
theorem length_slice_le_neg (src : Text) {a : Int} (ha : a < 0) (b : Int) :
    ((slice src a b).length : Int) ≤ -a := by
  simp only [slice, List.length_drop, List.length_take, place_of_neg ha]
  omega

/-- A slice from an offset `a` that does not count from the end stands at `a`. -/
theorem standsAt_slice {a : Int} (ha : 0 ≤ a) (b : Int) : StandsAt src a.toNat (slice src a b) := by
  simp only [StandsAt, slice, place_of_nonneg ha, List.drop_take]
  exact List.take_prefix _ _

/-- What stands in a slice stands in the source. Where the slice counts from the end, the sum `a +
k` can only be in order at the very end of the slice, and nothing but the empty text stands there.
-/
theorem standsAt_of_prefix_drop_slice {a b : Int} {k : Nat} (hk : 0 ≤ a + k)
    (hs : s <+: (slice src a b).drop k) : StandsAt src (a + k).toNat s := by
  by_cases ha : 0 ≤ a
  · have hsum : (a + k).toNat = a.toNat + k := by omega
    rw [hsum]
    exact (standsAt_slice ha b).drop hs
  · have hlen := length_slice_le_neg src (by omega : a < 0) b
    rw [List.drop_eq_nil_of_le (by omega)] at hs
    rw [List.prefix_nil.mp hs]
    exact standsAt_nil _ _

/-- The length of a slice from `a` to `b`, both within the source. -/
theorem length_slice {a b : Int} (ha : 0 ≤ a) (hab : a ≤ b) (hb : b ≤ src.length) :
    ((slice src a b).length : Int) = b - a := by
  have hb0 : 0 ≤ b := Int.le_trans ha hab
  simp only [slice, List.length_drop, List.length_take, place_of_nonneg ha, place_of_nonneg hb0]
  omega

/-- Two slices next to each other make one: from `a` to `b` and on to `c`. -/
theorem slice_append {a b c : Int} (ha : 0 ≤ a) (hab : a ≤ b) (hbc : b ≤ c) :
    slice src a b ++ slice src b c = slice src a c := by
  obtain ⟨i, rfl⟩ := Int.eq_ofNat_of_zero_le ha
  obtain ⟨m, hm⟩ := Int.eq_ofNat_of_zero_le (Int.sub_nonneg_of_le hab)
  obtain ⟨n, hn⟩ := Int.eq_ofNat_of_zero_le (Int.sub_nonneg_of_le hbc)
  obtain rfl : b = ((i + m : Nat) : Int) := by omega
  obtain rfl : c = ((i + m + n : Nat) : Int) := by omega
  simp only [slice, place_natCast, List.drop_take]
  rw [Nat.add_sub_cancel_left, Nat.add_sub_cancel_left, Nat.add_assoc i m n,
    Nat.add_sub_cancel_left, List.take_add, List.drop_drop]

/-- A slice that begins with `s`: where `s` stands, and what is left behind it. -/
theorem slice_eq_append {rest : Text} {i : Nat} {b : Int} (hib : (i : Int) ≤ b)
    (h : slice src i b = s ++ rest) :
    StandsAt src i s ∧ ((i + s.length : Nat) : Int) ≤ b ∧
      slice src ((i + s.length : Nat) : Int) b = rest := by
  have hstands : StandsAt src i s := by
    have hslice : StandsAt src (i : Int).toNat (slice src i b) := standsAt_slice (by omega) b
    rw [h, Int.toNat_natCast] at hslice
    exact hslice.shorten (List.prefix_append s rest)
  have hlength : ((i + s.length : Nat) : Int) ≤ b := by
    have hle : ((slice src i b).length : Int) ≤ b - i := by
      simp only [slice, place_of_nonneg (show (0 : Int) ≤ b by omega), place_natCast,
        List.length_drop, List.length_take]
      omega
    rw [h, List.length_append] at hle
    omega
  have hcut : slice src i ((i + s.length : Nat) : Int) ++ slice src ((i + s.length : Nat) : Int) b =
      slice src i b := slice_append (by omega) (by omega) hlength
  rw [h, Int.natCast_add, hstands.slice_eq] at hcut
  rw [Int.natCast_add]
  exact ⟨hstands, by omega, List.append_cancel_left hcut⟩

theorem slice_self (src : Text) {a : Int} (ha : 0 ≤ a) : slice src a a = [] := by
  simp only [slice, place_of_nonneg ha, List.drop_take, Nat.sub_self, List.take_zero]

theorem slice_all (src : Text) : slice src 0 src.length = src := by
  simp only [slice, place_natCast, place_of_nonneg (Int.le_refl 0), List.take_length]
  rfl

theorem sliceFrom_eq_slice (src : Text) (a : Int) : sliceFrom src a = slice src a src.length := by
  simp only [sliceFrom, slice, place_natCast, List.take_length]

theorem standsAt_sliceFrom {a : Int} (ha : 0 ≤ a) : StandsAt src a.toNat (sliceFrom src a) := by
  refine ⟨[], ?_⟩
  rw [List.append_nil, sliceFrom, place_of_nonneg ha]

/-- A text `t` that stands right behind a text `s` continues it. -/
theorem StandsAt.append {i : Nat} (hs : StandsAt src i s) (ht : StandsAt src (i + s.length) t) :
    StandsAt src i (s ++ t) := by
  obtain ⟨rest, hrest⟩ := hs
  rw [StandsAt, ← List.drop_drop, ← hrest, List.drop_left] at ht
  rw [StandsAt, ← hrest]
  exact (List.prefix_append_right_inj s).mpr ht

/-! ### Single characters -/

theorem standsAt_charAt? (src : Text) {i : Int} (hi : 0 ≤ i) :
    StandsAt src i.toNat (charAt? src i).toList := by
  rw [charAt?, if_pos hi]
  cases h : src[i.toNat]? with
  | none => exact standsAt_nil _ _
  | some c =>
      obtain ⟨hlt, hc⟩ := List.getElem?_eq_some_iff.mp h
      rw [StandsAt, List.drop_eq_getElem_cons hlt, hc]
      exact ⟨_, rfl⟩

/-- The last character in front of offset `i + 1`, if the source has one there, stands where a
closing delimiter is put. -/
theorem standsAt_back {i : Int} (h : 0 ≤ i + 1 - (charAt? src i).toList.length) :
    StandsAt src (i + 1 - (charAt? src i).toList.length).toNat (charAt? src i).toList := by
  cases hc : charAt? src i with
  | none => exact standsAt_nil _ _
  | some c =>
      rw [hc] at h
      simp only [Option.toList_some, List.length_singleton, Int.natCast_one] at h
      have hi : 0 ≤ i := by omega
      have hstands := standsAt_charAt? src hi
      rw [hc] at hstands
      simpa using hstands

/-! ### Trimming -/

theorem trimLeft_eq_drop (s : Text) : trimLeft s = s.drop (leadingSpace s) := by
  have h : (s.takeWhile isSpace ++ trimLeft s).drop (leadingSpace s) = trimLeft s :=
    List.drop_left
  rw [takeWhile_append_trimLeft] at h
  exact h.symm

theorem trimRight_prefix (s : Text) : trimRight s <+: s := by
  have h : s.reverse.dropWhile isSpace <:+ s.reverse := List.dropWhile_suffix _
  simpa [trimRight] using List.reverse_prefix.mpr h

theorem trim_prefix_drop (s : Text) : trim s <+: s.drop (leadingSpace s) := by
  rw [← trimLeft_eq_drop]
  exact trimRight_prefix _

/-! ### Searches -/

theorem prefix_drop_of_first? {i : Nat} (h : first? s t = some i) : s <+: t.drop i := by
  induction t generalizing i with
  | nil =>
      simp only [first?] at h
      split at h
      · rename_i he
        rw [List.isEmpty_iff.mp he]
        exact List.nil_prefix
      · cases h
  | cons c cs ih =>
      simp only [first?] at h
      split at h
      · rename_i hp
        cases h
        exact List.isPrefixOf_iff_prefix.mp hp
      · obtain ⟨j, hj, rfl⟩ := Option.map_eq_some_iff.mp h
        exact ih hj

theorem prefix_drop_of_last? {i : Nat} (h : last? s t = some i) : s <+: t.drop i := by
  induction t generalizing i with
  | nil =>
      simp only [last?] at h
      split at h
      · rename_i he
        rw [List.isEmpty_iff.mp he]
        exact List.nil_prefix
      · cases h
  | cons c cs ih =>
      simp only [last?] at h
      cases hl : last? s cs with
      | some j =>
          rw [hl] at h
          cases h
          exact ih hl
      | none =>
          rw [hl] at h
          dsimp only at h
          split at h
          · rename_i hp
            cases h
            exact List.isPrefixOf_iff_prefix.mp hp
          · cases h

/-- What stands in the stretch from `lo` to `hi` of the source stands in the source. -/
theorem standsAt_window {lo hi k : Nat} (h : s <+: ((src.take hi).drop lo).drop k) :
    StandsAt src (lo + k) s := by
  refine StandsAt.drop (t := (src.take hi).drop lo) ?_ h
  rw [StandsAt, List.drop_take]
  exact List.take_prefix _ _

theorem standsAt_of_find? {a b : Int} {i : Nat} (h : find? src s a b = some i) :
    StandsAt src i s := by
  simp only [find?] at h
  split at h
  · obtain ⟨j, hj, rfl⟩ := Option.map_eq_some_iff.mp h
    exact standsAt_window (prefix_drop_of_first? hj)
  · cases h

/-- A search finds nothing in front of `a`, where it starts. -/
theorem le_of_find? {a b : Int} {i : Nat} (h : find? src s a b = some i) :
    place src.length a ≤ i := by
  simp only [find?] at h
  split at h
  · obtain ⟨j, -, rfl⟩ := Option.map_eq_some_iff.mp h
    exact Nat.le_add_right _ _
  · cases h

namespace Keyword

theorem prefix_of_wordAt? {words : List Text} (h : wordAt? words t = some s) : s <+: t := by
  have hs := List.find?_some h
  simp only [Bool.and_eq_true] at hs
  exact List.isPrefixOf_iff_prefix.mp hs.1

theorem prefix_drop_of_search? {words : List Text} {before : Option Char} {i : Nat}
    (h : search? words before t = some (i, s)) : s <+: t.drop i := by
  induction t generalizing before i with
  | nil =>
      simp only [search?] at h
      split at h
      · obtain ⟨w, hw, hpair⟩ := Option.map_eq_some_iff.mp h
        cases hpair
        exact prefix_of_wordAt? hw
      · cases h
  | cons c cs ih =>
      simp only [search?] at h
      split at h
      · rename_i w hw
        cases h
        split at hw
        · exact prefix_of_wordAt? hw
        · cases hw
      · obtain ⟨⟨j, w⟩, hj, hpair⟩ := Option.map_eq_some_iff.mp h
        cases hpair
        exact ih hj

theorem standsAt_of_find? {words : List Text} {a b : Int} {i : Nat}
    (h : find? words src a b = some (i, s)) : StandsAt src i s := by
  simp only [find?] at h
  split at h
  · obtain ⟨⟨j, w⟩, hj, hpair⟩ := Option.map_eq_some_iff.mp h
    cases hpair
    exact standsAt_window (prefix_drop_of_search? hj)
  · cases h

end Keyword

end Text

/-! ### Leaves -/

namespace Leaf

/-- A leaf of text `s` whose range starts at offset `i` and is as long as the text. -/
structure PlacedAt (l : Leaf) (i : Int) (s : Text) : Prop where
  /-- The leaf `l` starts at `i`. -/
  start : l.span.start = i
  /-- The leaf `l` ends where `s`, standing at `i`, ends. -/
  stop : l.span.stop = i + s.length
  /-- The text of the leaf `l` is `s`. -/
  content : l.content = s

/-- The text of the leaf `l` stands in the source where its range says. -/
structure StandsIn (src : Text) (l : Leaf) : Prop where
  /-- The text stands where `l.span` starts. -/
  stands : Text.StandsAt src l.span.start.toNat l.content
  /-- The range `l.span` is as long as the text. -/
  width : l.span.stop = l.span.start + l.content.length

variable {src s : Text} {l : Leaf} {cls : LeafClass} {origin : Option String} {quoting : Quoting}

/-- A leaf that is placed over text of the source, by `PlacedAt`, stands in it. -/
theorem PlacedAt.standsIn {i : Int} (h : l.PlacedAt i s) (hs : Text.StandsAt src i.toNat s) :
    l.StandsIn src := by
  obtain ⟨rfl, hstop, rfl⟩ := h
  exact ⟨hs, hstop⟩

/-- A leaf that stands in the source has the text that `Text.slice` cuts out there. -/
theorem StandsIn.content_eq (h : l.StandsIn src) :
    l.content = Text.slice src l.span.start l.span.stop := by
  have hn : ((l.span.start.toNat : Nat) : Int) = l.span.start := by
    have := l.span.nonneg
    omega
  rw [h.width, ← hn]
  exact h.stands.slice_eq.symm

theorem StandsIn.stop_le (h : l.StandsIn src) (hne : l.content ≠ []) :
    l.span.stop ≤ src.length := by
  have hle := h.stands.length_le
  have hpos := List.length_pos_iff.mpr hne
  have hnonneg := l.span.nonneg
  rw [List.length_drop] at hle
  rw [h.width]
  omega

theorem make_ok {a b : Int} (h : make cls a b s origin quoting = .ok l) :
    l.span.start = a ∧ l.span.stop = b ∧ l.content = s := by
  simp only [make, Span.make, Span.of?] at h
  split at h
  · rename_i span hspan
    split at hspan
    · cases hspan
      cases h
      exact ⟨rfl, rfl, rfl⟩
    · cases hspan
  · cases h

theorem placed_ok {i : Int} (h : placed cls i s origin quoting = .ok l) : l.PlacedAt i s := by
  obtain ⟨hstart, hstop, hcontent⟩ := make_ok h
  exact ⟨hstart, hstop, hcontent⟩

theorem placed_natCast (cls : LeafClass) (i : Nat) (s : Text) (o : Option String) :
    placed cls i s o {} = .ok (found cls i s o) := by
  rw [placed, make, Span.make, Span.of?, dif_pos ⟨by omega, by omega⟩]
  rfl

/-- An offset `i` at which a leaf was placed is no offset from the end. -/
theorem PlacedAt.nonneg {i : Int} (h : l.PlacedAt i s) : 0 ≤ i := h.start ▸ l.span.nonneg

theorem trimmed_standsIn {a b : Int} (h : trimmed cls src a b origin quoting = .ok l) :
    l.StandsIn src := by
  have hl := placed_ok h
  exact hl.standsIn (Text.standsAt_of_prefix_drop_slice hl.nonneg (Text.trim_prefix_drop _))

theorem sample_ok {a b : Int} {token : Text}
    (h : sample cls src a b token origin quoting = .ok l) :
    ∃ i : Nat, Text.first? token (Text.slice src a b) = some i ∧ l.PlacedAt (a + i) token := by
  simp only [sample] at h
  split at h
  · rename_i i hi
    exact ⟨i, hi, placed_ok h⟩
  · cases h

theorem sample_standsIn {a b : Int} {token : Text}
    (h : sample cls src a b token origin quoting = .ok l) : l.StandsIn src := by
  obtain ⟨i, hi, hl⟩ := sample_ok h
  exact hl.standsIn (Text.standsAt_of_prefix_drop_slice hl.nonneg (Text.prefix_drop_of_first? hi))

theorem found_standsIn {i : Nat} (h : Text.StandsAt src i s) :
    (found cls i s origin).StandsIn src := ⟨h, rfl⟩

end Leaf

/-! ### Bracketed branches -/

namespace Element

variable {src : Text} {cls : BranchClass} {start stop : Int} {ks : List Element}
  {brackets : Brackets} {origin : Option String} {e : Element}

theorem makeBranch_ok (h : makeBranch cls start stop ks origin = .ok e) :
    ∃ span : Span, e = .branch cls span origin ks ∧ span.start = start ∧ span.stop = stop := by
  simp only [makeBranch, Span.make, Span.of?] at h
  split at h
  · rename_i span hspan
    split at hspan
    · cases hspan
      cases h
      exact ⟨_, rfl, rfl, rfl⟩
    · cases hspan
  · cases h

/-- The element `e` is a branch between two delimiters that stand in the source, from the start of
`opening` to the end of `closing`. -/
structure Bracketed (src : Text) (cls : BranchClass) (origin : Option String) (ks : List Element)
    (opening closing : Leaf) (e : Element) : Prop where
  /-- The delimiters are the first and the last child, with `ks` between them. -/
  shape : ∃ span, e = .branch cls span origin (.leaf opening :: ks ++ [.leaf closing])
  /-- The branch starts with `opening`. -/
  start_eq : e.start = opening.span.start
  /-- The branch ends with `closing`. -/
  stop_eq : e.stop = closing.span.stop
  /-- The leaf `opening` stands in the source. -/
  opens : opening.StandsIn src
  /-- The leaf `closing` stands in the source. -/
  closes : closing.StandsIn src

/-- A branch that `delimited` makes is `Bracketed`, if `front` and `back` stand where it puts them.
-/
theorem delimited_bracketed {front back : Text}
    (hfront : 0 ≤ start → Text.StandsAt src start.toNat front)
    (hback : 0 ≤ stop - back.length → Text.StandsAt src (stop - back.length).toNat back)
    (h : delimited cls start stop front back ks brackets origin = .ok e) :
    ∃ opening closing : Leaf, e.Bracketed src cls origin ks opening closing ∧
      opening.PlacedAt start front ∧ closing.PlacedAt (stop - back.length) back := by
  simp only [delimited] at h
  cases hopen : Leaf.placed brackets.enter start front origin {} with
  | error _ =>
      rw [hopen] at h
      cases h
  | ok opening =>
      cases hclose : Leaf.placed brackets.exit (stop - back.length) back origin {} with
      | error _ =>
          rw [hopen, hclose] at h
          cases h
      | ok closing =>
          rw [hopen, hclose] at h
          obtain ⟨span, rfl, hstart, hstop⟩ := makeBranch_ok h
          have ho := Leaf.placed_ok hopen
          have hc := Leaf.placed_ok hclose
          refine ⟨opening, closing, ⟨⟨span, rfl⟩, ?_, ?_, ?_, ?_⟩, ho, hc⟩
          · exact hstart.trans ho.start.symm
          · rw [hc.stop, Int.sub_add_cancel]
            exact hstop
          · exact ho.standsIn (hfront ho.nonneg)
          · exact hc.standsIn (hback hc.nonneg)

/-- A branch that `balanced` makes is `Bracketed`, and its delimiters do not overlap. -/
theorem balanced_bracketed {pair : Option (Text × Text)}
    (h : balanced cls src start stop pair ks brackets origin = .ok e) :
    ∃ opening closing : Leaf, e.Bracketed src cls origin ks opening closing ∧
      opening.span.stop ≤ closing.span.start := by
  simp only [balanced] at h
  split at h
  · cases h
  · rename_i front back _
    split at h
    · rename_i i j hi hj
      split at h
      · rename_i hij
        have hfront : 0 ≤ start + i → Text.StandsAt src (start + i).toNat front := fun h0 =>
          Text.standsAt_of_prefix_drop_slice h0 (Text.prefix_drop_of_first? hi)
        have hback : 0 ≤ start + j + back.length - back.length →
            Text.StandsAt src (start + j + back.length - back.length).toNat back := by
          rw [Int.add_sub_cancel]
          exact fun h0 => Text.standsAt_of_prefix_drop_slice h0 (Text.prefix_drop_of_last? hj)
        obtain ⟨opening, closing, hbracketed, ho, hc⟩ := delimited_bracketed hfront hback h
        refine ⟨opening, closing, hbracketed, ?_⟩
        rw [ho.stop, hc.start]
        omega
      · cases h
    · cases h

/-- A branch that `balancedAround` makes is `Bracketed`, by the characters that an outward scan
finds. -/
theorem balancedAround_bracketed {expected : Option Text}
    (h : balancedAround cls src start stop ks expected brackets origin = .ok e) :
    ∃ (left right : Int) (opening closing : Leaf), scanOutward src start stop = .ok (left, right) ∧
      e.Bracketed src cls origin ks opening closing ∧
      opening.PlacedAt left (Text.charAt? src left).toList ∧
      closing.PlacedAt (right + 1 - (Text.charAt? src right).toList.length)
        (Text.charAt? src right).toList := by
  simp only [balancedAround] at h
  cases hscan : scanOutward src start stop with
  | error _ =>
      rw [hscan] at h
      cases h
  | ok found =>
      obtain ⟨left, right⟩ := found
      rw [hscan] at h
      have hmade : (delimited cls left (right + 1) (Text.charAt? src left).toList
          (Text.charAt? src right).toList ks brackets origin).mapError AroundError.element =
            .ok e := by
        cases expected with
        | none => exact h
        | some x =>
            simp only [bind, Except.bind] at h
            split at h
            · cases h
            · exact h
      cases hdelimited : delimited cls left (right + 1) (Text.charAt? src left).toList
          (Text.charAt? src right).toList ks brackets origin with
      | error _ =>
          rw [hdelimited] at hmade
          cases hmade
      | ok d =>
          rw [hdelimited] at hmade
          cases hmade
          obtain ⟨opening, closing, hbracketed, hplaced⟩ :=
            delimited_bracketed (Text.standsAt_charAt? src) Text.standsAt_back hdelimited
          exact ⟨left, right, opening, closing, rfl, hbracketed, hplaced⟩

end Element

end RakuTree
