import RakuTree.Proofs.Complete.Spacing

/-!
# RakuTree.Proofs.Makers

Leaves and brackets that are cut out of the source.

A match may have any two offsets. Its text is a slice of the source, where an offset below zero
counts from the end, while the range of a leaf is counted on from the offset as it is. The two only
part ways below zero, and there a leaf that is not empty is refused, since no slice is long enough
to get its range above zero (`Text.standsAt_of_prefix_drop_slice`). So whatever is made has the text
of the source at its range. The delimiters around a match are found by going outward over
whitespace (`scanLeft_some`, `all_slice_scanRight`).
-/

namespace RakuTree

/-! ### Trimming -/

namespace Text

variable {src : Text}

theorem isSpace_head?_dropWhile (s : Text) :
    ∀ c ∈ (s.dropWhile isSpace).head?, isSpace c = false := by
  intro c hc
  have hnot := List.head?_dropWhile_not isSpace s
  rw [hc] at hnot
  exact hnot

/-- Trimming leaves no whitespace at either end: `trim s` is `Firm`. -/
theorem trim_firm (s : Text) : (trim s).Firm := by
  constructor
  · intro c hc
    obtain ⟨rest, hrest⟩ := trimRight_prefix (trimLeft s)
    apply isSpace_head?_dropWhile s c
    rw [← trimLeft, ← hrest, List.head?_append, ← trim, hc, Option.some_or]
    rfl
  · intro c hc
    rw [trim, trimRight, List.getLast?_reverse] at hc
    exact isSpace_head?_dropWhile _ c hc

theorem slice_of_getElem? {i : Nat} {c : Char} (h : src[i]? = some c) :
    slice src i (i + 1) = [c] := by
  have hstands := standsAt_charAt? src (Int.natCast_nonneg i)
  rw [charAt?_natCast, h] at hstands
  exact hstands.slice_eq

theorem length_charAt? {i : Int} (h0 : 0 ≤ i) (h : i < src.length) :
    (charAt? src i).toList.length = 1 := by
  obtain ⟨k, rfl⟩ := Int.eq_ofNat_of_zero_le h0
  rw [charAt?_natCast, List.getElem?_eq_getElem (by omega)]
  rfl

end Text

/-! ### Going outward -/

namespace Element

open Text (slice isSpace)

variable {src : Text} {left right : Int}

/-- There is nothing but whitespace between the offset that `scanLeft` stops at and `n`. -/
theorem scanLeft_some {n : Nat} (h : scanLeft src n = some left) :
    -1 ≤ left ∧ left < n ∧ (slice src (left + 1) n).all isSpace = true := by
  induction n with
  | zero =>
      cases h
      have hnone : slice src (-1 + 1) ((0 : Nat) : Int) = [] := Text.slice_self src (Int.le_refl 0)
      refine ⟨Int.le_refl _, by decide, ?_⟩
      rw [hnone]
      rfl
  | succ i ih =>
      rw [scanLeft] at h
      split at h
      · cases h
      · rename_i c hc
        split at h
        · rename_i hspace
          obtain ⟨hlow, hhigh, hall⟩ := ih h
          refine ⟨hlow, by omega, ?_⟩
          rw [Int.natCast_succ, ← Text.slice_append (b := i) (by omega) (by omega) (by omega),
            List.all_append, hall, Text.slice_of_getElem? hc, List.all_cons, hspace]
          rfl
        · cases h
          refine ⟨by omega, by omega, ?_⟩
          rw [Int.natCast_succ, Text.slice_self src (by omega)]
          rfl

/-- There is nothing but whitespace between `i` and the offset that `scanRight` stops at. -/
theorem all_slice_scanRight (src : Text) (i : Nat) :
    (slice src i (scanRight src i)).all isSpace = true := by
  have hstands : Text.StandsAt src i ((src.drop i).takeWhile isSpace) := List.takeWhile_prefix _
  rw [scanRight, Text.leadingSpace, Int.natCast_add, hstands.slice_eq]
  exact List.all_takeWhile

theorem scanOutward_ok {start stop : Int} (h : scanOutward src start stop = .ok (left, right)) :
    scanLeft src start.toNat = some left ∧ scanRightFrom src stop = some right ∧ 0 ≤ left ∧
      right < src.length := by
  rw [scanOutward] at h
  split at h
  · cases h
  · rename_i l hl
    split at h
    · cases h
    · rename_i r hr
      split at h
      · cases h
      · rename_i hinside
        cases h
        exact ⟨hl, hr, by omega, by omega⟩

/-- What `scanOutward` finds around a match within the source: the offsets of two characters, with
nothing but whitespace between them and the match. -/
theorem scanOutward_spaces {start stop : Int} (h0 : 0 ≤ start) (hle : start ≤ stop)
    (hstop : stop ≤ src.length) (h : scanOutward src start stop = .ok (left, right)) :
    0 ≤ left ∧ left < start ∧ (slice src (left + 1) start).all isSpace = true ∧
      stop ≤ right ∧ right < src.length ∧ (slice src stop right).all isSpace = true := by
  obtain ⟨a, rfl⟩ := Int.eq_ofNat_of_zero_le h0
  obtain ⟨b, rfl⟩ := Int.eq_ofNat_of_zero_le (Int.le_trans h0 hle)
  obtain ⟨hl, hr, hleft, hright⟩ := scanOutward_ok h
  obtain ⟨-, hlt, hspaces⟩ := scanLeft_some hl
  rw [Int.toNat_natCast] at hlt hspaces
  rw [scanRightFrom, if_pos (Int.natCast_nonneg b), Int.toNat_natCast] at hr
  cases hr
  have hge : b ≤ scanRight src b := Nat.le_add_right _ _
  exact ⟨hleft, hlt, hspaces, by omega, hright, all_slice_scanRight src b⟩

end Element

/-! ### What the makers promise -/

/-- The text of the leaf `l` is that of the source at its range. -/
def Leaf.Describes (src : Text) (l : Leaf) : Prop :=
  l.content = Text.slice src l.span.start l.span.stop

/-- **Whatever is made describes the source**, for any two offsets of a match.

* A trimmed leaf has the text of the source at its range, without whitespace at either end.
* So has a leaf for a sample, and its text is the sample.
* So have the delimiters that are found in a match. They do not overlap, and the branch reaches
  from the start of the one to the end of the other.
* So have the delimiters that are found around a match. If the match lies within the source, there
  is nothing but whitespace between them and the match. -/
theorem made_leaves_describe_source (src : Text) (start stop : Int) :
    (∀ cls origin quoting l, Leaf.trimmed cls src start stop origin quoting = .ok l →
      l.Describes src ∧ l.content.Firm) ∧
    (∀ cls token origin quoting l, Leaf.sample cls src start stop token origin quoting = .ok l →
      l.Describes src ∧ l.content = token) ∧
    (∀ cls pair ks brackets origin e,
      Element.balanced cls src start stop pair ks brackets origin = .ok e →
      ∃ (opening closing : Leaf) (span : Span),
        e = .branch cls span origin (.leaf opening :: ks ++ [.leaf closing]) ∧
        opening.Describes src ∧ closing.Describes src ∧
        opening.span.stop ≤ closing.span.start ∧
        span.start = opening.span.start ∧ span.stop = closing.span.stop) ∧
    (∀ cls ks expected brackets origin e,
      Element.balancedAround cls src start stop ks expected brackets origin = .ok e →
      ∃ (opening closing : Leaf) (span : Span),
        e = .branch cls span origin (.leaf opening :: ks ++ [.leaf closing]) ∧
        opening.Describes src ∧ closing.Describes src ∧
        (0 ≤ start → start ≤ stop → stop ≤ src.length →
          opening.span.stop ≤ start ∧ stop ≤ closing.span.start ∧
          (Text.slice src opening.span.stop start).all Text.isSpace = true ∧
          (Text.slice src stop closing.span.start).all Text.isSpace = true)) := by
  refine ⟨?trimmed, ?sample, ?balanced, ?around⟩
  case trimmed =>
    intro cls origin quoting l h
    refine ⟨(Leaf.trimmed_standsIn h).content_eq, ?_⟩
    rw [(Leaf.placed_ok h).content]
    exact Text.trim_firm _
  case sample =>
    intro cls token origin quoting l h
    obtain ⟨_, -, hplaced⟩ := Leaf.sample_ok h
    exact ⟨(Leaf.sample_standsIn h).content_eq, hplaced.content⟩
  case balanced =>
    intro cls pair ks brackets origin e h
    obtain ⟨opening, closing, hbracketed, hapart⟩ := Element.balanced_bracketed h
    obtain ⟨span, rfl⟩ := hbracketed.shape
    exact ⟨opening, closing, span, rfl, hbracketed.opens.content_eq, hbracketed.closes.content_eq,
      hapart, hbracketed.start_eq, hbracketed.stop_eq⟩
  case around =>
    intro cls ks expected brackets origin e h
    obtain ⟨left, right, opening, closing, hscan, hbracketed, ho, hc⟩ :=
      Element.balancedAround_bracketed h
    obtain ⟨span, rfl⟩ := hbracketed.shape
    refine ⟨opening, closing, span, rfl, hbracketed.opens.content_eq,
      hbracketed.closes.content_eq, fun h0 hle hstop => ?_⟩
    obtain ⟨hleft, hlt, hfront, hge, hright, hback⟩ :=
      Element.scanOutward_spaces h0 hle hstop hscan
    have hopening : opening.span.stop = left + 1 := by
      rw [ho.stop, Text.length_charAt? hleft (by omega)]
      rfl
    have hclosing : closing.span.start = right := by
      rw [hc.start, Text.length_charAt? (by omega) hright]
      exact Int.add_sub_cancel right 1
    rw [hopening, hclosing]
    exact ⟨by omega, hge, hfront, hback⟩

/-- A name in parentheses, with whitespace around the name and at the end: `f( a ) `. -/
def sampleCall : Text := ['f', '(', ' ', 'a', ' ', ')', ' ']

/-- Between the parentheses of `sampleCall`, trimming leaves the name. The whitespace at the end,
counted from there, comes to the empty text at offset zero. The opening parenthesis is found at
offset 1 and the closing one at offset 5, from a match that has both inside it and from one that
leaves them out. -/
theorem sample_describes_source :
    (∃ l, Leaf.trimmed .bareword sampleCall 2 5 none {} = .ok l ∧ l.span.start = 3 ∧
      l.content = ['a'] ∧ l.Describes sampleCall ∧ l.content.Firm) ∧
    (∃ l, Leaf.trimmed .bareword sampleCall (-1) 7 none {} = .ok l ∧ l.span.start = 0 ∧
      l.Describes sampleCall ∧ l.content.Firm) ∧
    (∃ l, Leaf.sample .balancedExit sampleCall 2 (-1) [')'] none {} = .ok l ∧ l.span.start = 5 ∧
      l.Describes sampleCall ∧ l.content = [')']) ∧
    (∃ e, Element.balanced .circumfixOperator sampleCall 0 100 (some (['('], [')'])) [] .plain
        none = .ok e ∧
      ∃ (opening closing : Leaf) (span : Span),
        e = .branch .circumfixOperator span none (.leaf opening :: [] ++ [.leaf closing]) ∧
        opening.span.start = 1 ∧ closing.span.start = 5 ∧
        opening.Describes sampleCall ∧ closing.Describes sampleCall ∧
        opening.span.stop ≤ closing.span.start ∧
        span.start = opening.span.start ∧ span.stop = closing.span.stop) ∧
    (∃ e, Element.balancedAround .circumfixOperator sampleCall 3 4 [] (some ['(']) .plain none =
        .ok e ∧
      ∃ (opening closing : Leaf) (span : Span),
        e = .branch .circumfixOperator span none (.leaf opening :: [] ++ [.leaf closing]) ∧
        opening.span.start = 1 ∧ closing.span.start = 5 ∧
        opening.Describes sampleCall ∧ closing.Describes sampleCall ∧
        opening.span.stop ≤ 3 ∧ 4 ≤ closing.span.start ∧
        (Text.slice sampleCall opening.span.stop 3).all Text.isSpace = true ∧
        (Text.slice sampleCall 4 closing.span.start).all Text.isSpace = true) := by
  refine ⟨?trimmed, ?behind, ?sample, ?balanced, ?around⟩
  case trimmed =>
    have hmade : Leaf.trimmed .bareword sampleCall 2 5 none {} =
        .ok (Leaf.found .bareword 3 ['a'] none) := rfl
    exact ⟨_, hmade, rfl, rfl, (made_leaves_describe_source sampleCall 2 5).1 _ _ _ _ hmade⟩
  case behind =>
    have hmade : Leaf.trimmed .bareword sampleCall (-1) 7 none {} =
        .ok (Leaf.found .bareword 0 [] none) := rfl
    exact ⟨_, hmade, rfl, (made_leaves_describe_source sampleCall (-1) 7).1 _ _ _ _ hmade⟩
  case sample =>
    have hmade : Leaf.sample .balancedExit sampleCall 2 (-1) [')'] none {} =
        .ok (Leaf.found .balancedExit 5 [')'] none) := rfl
    exact ⟨_, hmade, rfl, (made_leaves_describe_source sampleCall 2 (-1)).2.1 _ _ _ _ _ hmade⟩
  case balanced =>
    have hmade : Element.balanced .circumfixOperator sampleCall 0 100 (some (['('], [')'])) []
        .plain none = .ok (.branch .circumfixOperator (Span.ofText 1 ['(', ' ', 'a', ' ', ')']) none
          [.leaf (Leaf.found .balancedEnter 1 ['('] none),
            .leaf (Leaf.found .balancedExit 5 [')'] none)]) := rfl
    obtain ⟨opening, closing, span, he, hsides⟩ :=
      (made_leaves_describe_source sampleCall 0 100).2.2.1 _ _ _ _ _ _ hmade
    cases he
    exact ⟨_, hmade, _, _, _, rfl, rfl, rfl, hsides⟩
  case around =>
    have hmade : Element.balancedAround .circumfixOperator sampleCall 3 4 [] (some ['(']) .plain
        none = .ok (.branch .circumfixOperator (Span.ofText 1 ['(', ' ', 'a', ' ', ')']) none
          [.leaf (Leaf.found .balancedEnter 1 ['('] none),
            .leaf (Leaf.found .balancedExit 5 [')'] none)]) := rfl
    obtain ⟨opening, closing, span, he, ho, hc, hspaces⟩ :=
      (made_leaves_describe_source sampleCall 3 4).2.2.2 _ _ _ _ _ _ hmade
    cases he
    exact ⟨_, hmade, _, _, _, rfl, rfl, rfl, ho, hc, hspaces (by decide) (by decide) (by decide)⟩

end RakuTree
