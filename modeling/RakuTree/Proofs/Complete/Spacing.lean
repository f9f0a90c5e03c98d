import Mathlib.Data.List.TakeWhile
import RakuTree.Proofs.Tiling

/-!
# RakuTree.Proofs.Complete.Spacing

When a strict filling goes through.

A text is *accepted* if a strict scan finds nothing in it but layout. Without here-docs
the verdict does not hang on where the text stands, only on whether it begins a line
(`accepts_iff`). A gap that holds accepted text is read without a fault if it lies behind
text that ends no line, and a tree all of whose gaps are read without a fault is filled
without one (`Fills`).
-/

namespace RakuTree

/-! ### Accepted layout -/

namespace Layout

/-- A strict scan finds nothing but layout in `text`. `atLine` says whether it begins a
line. -/
def Accepts (atLine : Bool) (text : Text) : Prop := (scan {} true 0 atLine text).fault? = none

instance (atLine : Bool) (text : Text) : Decidable (Accepts atLine text) :=
  decidable_of_iff ((scan {} true 0 atLine text).fault?.isNone = true) Option.isNone_iff_eq_none

@[simp] theorem runLength_empty (p : Char → Bool) (offset : Int) (rest : Text) :
    runLength {} p offset rest = (rest.takeWhile p).length := by
  induction rest generalizing offset with
  | nil => rfl
  | cons c rest ih =>
      have hnone : HereDocs.startsAt {} offset = false := rfl
      by_cases hc : p c = true
      · simp [runLength, hc, hnone, ih]
      · simp [runLength, hc]

/-- Without here-docs it does not matter for `classify` where a text stands. -/
theorem classify_offset (offset offset' : Int) (atLine : Bool) (c : Char) (rest : Text) :
    classify {} offset atLine c rest = classify {} offset' atLine c rest := by
  simp [classify]

/-- A strict scan goes through if `classify` takes what stands in front for layout and the rest is
scanned through. -/
theorem scan_cons_none {offset : Int} (h0 : 0 ≤ offset) (atLine : Bool) (c : Char)
    (rest : Text) {cls? : Option LeafClass} {n : Nat}
    (hc : classify {} offset atLine c rest = (cls?, n)) :
    (scan {} true offset atLine (c :: rest)).fault? = none ↔
      cls? ≠ none ∧ (scan {} true (offset + (c :: rest.take n).length)
        ((c :: rest.take n).getLast? == some '\n') (rest.drop n)).fault? = none := by
  have hstop : HereDocs.stop? {} offset = none := rfl
  have hbody : bodyLength? {} offset rest = none := rfl
  rw [scan, pieces]
  simp only [hstop, hbody, hc, List.nil_append]
  cases cls? with
  | none => simp [read]
  | some cls =>
      have hplaced : ∃ l, Leaf.placed cls offset (c :: rest.take n) none {} = .ok l := by
        have hspan : 0 ≤ offset ∧ offset ≤ offset + (c :: rest.take n).length := ⟨h0, by omega⟩
        exact ⟨_, by rw [Leaf.placed, Leaf.make, Span.make, Span.of?, dif_pos hspan]; rfl⟩
      obtain ⟨l, hl⟩ := hplaced
      simp only [read, hl, Reading.cons, scan]
      simp

theorem scan_offset {offset offset' : Int} (h0 : 0 ≤ offset) (h0' : 0 ≤ offset') (atLine : Bool)
    (text : Text) (h : (scan {} true offset atLine text).fault? = none) :
    (scan {} true offset' atLine text).fault? = none := by
  -- a scan goes on behind the piece it took, so the induction is on the length of the text
  induction hn : text.length using Nat.strongRecOn generalizing text offset offset' atLine with
  | _ n ih =>
      subst hn
      cases text with
      | nil => rw [scan_nil]
      | cons c rest =>
          obtain ⟨cls?, k, hc⟩ : ∃ cls? k, classify {} offset atLine c rest = (cls?, k) :=
            ⟨_, _, rfl⟩
          have hc' := (classify_offset offset' offset atLine c rest).trans hc
          obtain ⟨hcls, hrest⟩ := (scan_cons_none h0 atLine c rest hc).mp h
          refine (scan_cons_none h0' atLine c rest hc').mpr ⟨hcls, ?_⟩
          have hshort : (rest.drop k).length < (c :: rest).length := by
            simp only [List.length_drop, List.length_cons]
            omega
          exact ih _ hshort (by omega) (by omega) _ _ hrest rfl

/-- Text that is accepted, by `Accepts`, is accepted wherever it stands. -/
theorem accepts_iff {offset : Int} (h0 : 0 ≤ offset) {atLine : Bool} {text : Text} :
    (scan {} true offset atLine text).fault? = none ↔ Accepts atLine text :=
  ⟨scan_offset h0 (Int.le_refl 0) atLine text, scan_offset (Int.le_refl 0) h0 atLine text⟩

theorem accepts_nil (atLine : Bool) : Accepts atLine [] := by
  rw [Accepts, scan_nil]

theorem classify_space {offset : Int} {atLine : Bool} {c : Char} (hc : Text.isSpace c = true)
    (rest : Text) :
    classify {} offset atLine c rest = (some .ws, (rest.takeWhile Text.isSpace).length) := by
  simp [classify, hc]

/-- Whitespace is layout: any `text` of it is accepted. -/
theorem accepts_of_space {text : Text} (h : text.all Text.isSpace = true) (atLine : Bool) :
    Accepts atLine text := by
  cases text with
  | nil => exact accepts_nil atLine
  | cons c rest =>
      obtain ⟨hc, hrest⟩ := List.forall_mem_cons.mp (List.all_eq_true.mp h)
      refine (scan_cons_none (Int.le_refl 0) atLine c rest (classify_space hc rest)).mpr
        ⟨by simp, ?_⟩
      have hall : rest.takeWhile Text.isSpace = rest := List.takeWhile_eq_self_iff.mpr hrest
      rw [hall, List.drop_length, scan_nil]

/-- What stands behind the whitespace in front of accepted text is accepted, though perhaps with
another `atLine`. -/
theorem Accepts.trimLeft {atLine : Bool} {text : Text} (h : Accepts atLine text) :
    ∃ atLine', Accepts atLine' (Text.trimLeft text) := by
  cases text with
  | nil => exact ⟨atLine, h⟩
  | cons c rest =>
      by_cases hc : Text.isSpace c = true
      · obtain ⟨-, hrest⟩ :=
          (scan_cons_none (Int.le_refl 0) atLine c rest (classify_space hc rest)).mp h
        have hdrop :
            rest.drop (rest.takeWhile Text.isSpace).length = Text.trimLeft (c :: rest) := by
          rw [Text.trimLeft, List.dropWhile_cons_of_pos hc]
          exact (Text.trimLeft_eq_drop rest).symm
        rw [hdrop] at hrest
        exact ⟨_, (accepts_iff (by omega)).mp hrest⟩
      · rw [Text.trimLeft, List.dropWhile_cons_of_neg hc]
        exact ⟨atLine, h⟩

/-- A semicolon is no layout: no text that begins with one is accepted, by `Accepts`. -/
theorem not_accepts_semicolon (atLine : Bool) (rest : Text) : ¬ Accepts atLine (';' :: rest) := by
  intro h
  have hc : (classify {} 0 atLine ';' rest).1 = none := by
    rw [classify]
    simp [Text.isSpace]
  exact ((scan_cons_none (Int.le_refl 0) atLine ';' rest rfl).mp h).1 hc

/-- No semicolon follows the whitespace in front of accepted text, however early (at `n`) the text
is cut off. -/
theorem Accepts.trimLeft_take_ne {atLine : Bool} {text : Text} (h : Accepts atLine text) (n : Nat)
    (rest : Text) : Text.trimLeft (text.take n) ≠ ';' :: rest := by
  intro hcut
  obtain ⟨atLine', haccepts⟩ := h.trimLeft
  rw [Text.trimLeft] at hcut
  have hfull : Text.trimLeft text = ';' :: (rest ++ text.drop n) := by
    calc Text.trimLeft text
        = Text.trimLeft (text.take n ++ text.drop n) := by rw [List.take_append_drop]
      _ = ';' :: (rest ++ text.drop n) := by
        rw [Text.trimLeft, List.dropWhile_append, hcut]
        rfl
  rw [hfull] at haccepts
  exact not_accepts_semicolon _ _ haccepts

end Layout

/-! ### Gaps that can be read -/

namespace GapSource

/-- A strict filling of `src` without here-docs. -/
def plain (src : Text) : GapSource := ⟨src, {}, true⟩

/-- The character in front of offset `i` of the source is there and ends no line. -/
def MidLine (src : Text) (i : Nat) : Prop := ∃ j c, i = j + 1 ∧ src[j]? = some c ∧ c ≠ '\n'

theorem MidLine.charAt?_before {src : Text} {i : Nat} (h : MidLine src i) :
    0 < i ∧ ∃ c, Text.charAt? src (i - 1) = some c ∧ (c == '\n') = false := by
  obtain ⟨j, c, rfl, hj, hc⟩ := h
  have hcast : ((j + 1 : Nat) : Int) - 1 = (j : Int) := by omega
  refine ⟨Nat.succ_pos j, c, ?_, beq_false_of_ne hc⟩
  rw [hcast, Text.charAt?_natCast, hj]

/-- A gap in the middle of a line that holds accepted `text` is read. -/
theorem read_layout {src text : Text} {i : Nat} (hline : MidLine src i)
    (htext : Text.StandsAt src i text) (h : Layout.Accepts false text) :
    ((plain src).read i (i + text.length)).fault? = none := by
  obtain ⟨hi, c, hbefore, hc⟩ := hline.charAt?_before
  by_cases hempty : text = []
  · subst hempty
    exact read_self _ _
  · have hpos : 0 < text.length := List.length_pos_iff.mpr hempty
    rw [read, if_neg (by omega), if_neg (by omega)]
    simp only [plain, htext.slice_eq, hbefore]
    rw [if_neg (by omega), hc]
    exact (Layout.accepts_iff (by omega)).mpr h

end GapSource

/-! ### Text with firm ends -/

namespace Text

variable {src s t : Text}

/-- There is no whitespace at either end of the text `s`. -/
structure Firm (s : Text) : Prop where
  /-- The text `s` does not begin with whitespace. -/
  head : ∀ c ∈ s.head?, isSpace c = false
  /-- The text `s` does not end with whitespace. -/
  last : ∀ c ∈ s.getLast?, isSpace c = false

/-- Text without whitespace is `Firm`. -/
theorem firm_of_any (h : s.any isSpace = false) : s.Firm := by
  have hall : ∀ c ∈ s, isSpace c = false := by simpa using h
  exact ⟨fun c hc => hall c (List.mem_of_mem_head? hc),
    fun c hc => hall c (List.mem_of_mem_getLast? hc)⟩

/-- What stands between two texts that are `Firm` does not matter. -/
theorem Firm.join {u : Text} (hs : s.Firm) (ht : t.Firm) (hs' : s ≠ []) (ht' : t ≠ []) :
    (s ++ u ++ t).Firm := by
  constructor
  · cases s with
    | nil => exact absurd rfl hs'
    | cons c s => exact hs.head
  · have hlast : (s ++ u ++ t).getLast? = t.getLast? := by
      rw [List.getLast?_append, List.getLast?_eq_some_getLast ht', Option.some_or]
    rw [hlast]
    exact ht.last

theorem Firm.leadingSpace_eq (h : s.Firm) : leadingSpace s = 0 := by
  cases s with
  | nil => rfl
  | cons c s =>
      have hc : isSpace c = false := h.head c rfl
      simp [leadingSpace, hc]

/-- There is nothing for `trim` to cut off. -/
theorem Firm.trim_eq (h : s.Firm) : trim s = s := by
  have hleft : trimLeft s = s := by rw [trimLeft_eq_drop, h.leadingSpace_eq, List.drop_zero]
  rw [trim, hleft, trimRight]
  cases hs : s.reverse with
  | nil => rw [List.dropWhile_nil, List.reverse_nil, List.reverse_eq_nil_iff.mp hs]
  | cons c front =>
      have hlast : s.getLast? = some c := by
        rw [List.getLast?_eq_head?_reverse, hs, List.head?_cons]
      have hc : isSpace c = false := h.last c hlast
      rw [List.dropWhile_cons_of_neg (by simp [hc]), ← hs, List.reverse_reverse]

theorem standsAt_append {i : Nat} :
    StandsAt src i (s ++ t) ↔ StandsAt src i s ∧ StandsAt src (i + s.length) t := by
  constructor
  · intro h
    exact ⟨h.shorten (List.prefix_append _ _), h.drop (by simp)⟩
  · rintro ⟨hs, ht⟩
    exact hs.append ht

/-- No line begins right behind a text that is `Firm`. -/
theorem Firm.midLine {i : Nat} (h : s.Firm) (hne : s ≠ []) (hs : StandsAt src i s) :
    GapSource.MidLine src (i + s.length) := by
  obtain ⟨front, c, rfl⟩ := List.eq_nil_or_concat s |>.resolve_left hne
  have hc : isSpace c = false := h.last c (by simp)
  obtain ⟨rest, hrest⟩ := (standsAt_append.mp (List.concat_eq_append ▸ hs)).2
  refine ⟨i + front.length, c, by simp; omega, ?_, ?_⟩
  · rw [← List.head?_drop, ← hrest]
    rfl
  · rintro rfl
    exact nomatch hc

end Text

/-! ### Trees that can be filled -/

namespace Element

variable {g : GapSource}

/-- The gaps in front of `ks` can be read, from offset `a` on. -/
def Spaced (g : GapSource) : Int → List Element → Prop
  | _, [] => True
  | a, k :: ks => (g.read a k.start).fault? = none ∧ Spaced g k.outerEnd ks

theorem spaced_append {a : Int} {ks ls : List Element} :
    Spaced g a (ks ++ ls) ↔ Spaced g a ks ∧ Spaced g (lastEnd a ks) ls := by
  induction ks generalizing a with
  | nil => simp [Spaced]
  | cons k ks ih => simp [Spaced, ih, and_assoc]

/-- Tokens that abut leave nothing to read: they are `Spaced`. -/
theorem spaced_of_abut {a b : Int} {ks : List Element} (h : Abut start outerEnd a ks b) :
    Spaced g a ks ∧ lastEnd a ks = b := by
  induction ks generalizing a with
  | nil => exact ⟨trivial, h⟩
  | cons k ks ih =>
      obtain ⟨rfl, hks⟩ := h
      obtain ⟨hspaced, hend⟩ := ih hks
      exact ⟨⟨g.read_self _, hspaced⟩, by rw [lastEnd_cons, hend]⟩

/-- Whether nodes are `Spaced` hangs on their ranges only. -/
theorem spaced_map {f : Element → Element} {a : Int} {ks : List Element}
    (hstart : ∀ k ∈ ks, (f k).start = k.start) (hend : ∀ k ∈ ks, (f k).outerEnd = k.outerEnd) :
    (Spaced g a (ks.map f) ↔ Spaced g a ks) ∧ lastEnd a (ks.map f) = lastEnd a ks := by
  induction ks generalizing a with
  | nil => exact ⟨Iff.rfl, rfl⟩
  | cons k ks ih =>
      obtain ⟨hk, hks⟩ := List.forall_mem_cons.mp hstart
      obtain ⟨hk', hks'⟩ := List.forall_mem_cons.mp hend
      obtain ⟨hspaced, hlast⟩ := ih hks hks' (a := k.outerEnd)
      simp only [List.map_cons, Spaced, lastEnd_cons, hk, hk', hspaced, hlast, and_self]

/-- Gaps that can be read, by `Spaced`, are filled by `fillBetween`. -/
theorem fillBetween_none {k : Element} {ks : List Element} (h : Spaced g k.outerEnd ks) :
    (g.fillBetween leaf start outerEnd (k :: ks)).fault? = none := by
  induction ks generalizing k with
  | nil => rfl
  | cons l ks ih =>
      obtain ⟨hgap, hks⟩ := h
      simp only [GapSource.fillBetween, Filling.map, Filling.andThen, ih hks, Option.isSome_none,
        Bool.false_eq_true, if_false, GapSource.fillBefore]
      exact hgap

/-- The gaps of a branch from `a` to `b` are filled when those in front of its children and the one
behind the last of them can be read. -/
theorem fillSiblings_none {a b : Int} {ks : List Element} (h : Spaced g a ks)
    (hb : (g.read (lastEnd a ks) b).fault? = none) :
    (fillSiblings g (some (a, b)) ks).fault? = none := by
  cases ks with
  | nil => rfl
  | cons k ks =>
      obtain ⟨hfront, hks⟩ := h
      rw [lastEnd_eq_getLast] at hb
      simp only [fillSiblings, GapSource.fillList, Filling.andThen, fillBetween_none hks,
        Option.isSome_none, Bool.false_eq_true, if_false, Filling.map, GapSource.fillBefore, hb]
      exact hfront

section Filter

variable {p : Element → Bool} (hp : ∀ l, p (leaf l) = false)

include hp

theorem fillBefore_filter (a b : Int) (ks : List Element) :
    (g.fillBefore leaf a b ks).value.filter p = ks.filter p := by
  simp [GapSource.fillBefore, hp]

theorem fillBetween_filter (ks : List Element) :
    (g.fillBetween leaf start outerEnd ks).value.filter p = ks.filter p := by
  induction ks with
  | nil => rfl
  | cons k ks ih =>
      cases ks with
      | nil => rfl
      | cons l ks =>
          have hrest := Filling.andThen_value (f := g.fillBefore leaf k.outerEnd l.start)
            (P := fun ls => List.filter p ls = List.filter p (l :: ks)) ih fun ls hls =>
              (fillBefore_filter hp _ _ ls).trans hls
          rw [GapSource.fillBetween, Filling.map, List.filter_cons, List.filter_cons (x := k),
            hrest]

/-- Filling gaps adds nothing but layout: what `p` tells from layout stays as it was. -/
theorem fillSiblings_filter (outer : Option (Int × Int)) (ks : List Element) :
    (fillSiblings g outer ks).value.filter p = ks.filter p := by
  cases ks with
  | nil => rfl
  | cons k ks =>
      rw [fillSiblings]
      cases outer with
      | none => exact fillBetween_filter hp (k :: ks)
      | some range =>
          refine Filling.andThen_value (P := fun ls => List.filter p ls = List.filter p (k :: ks))
            ?_ fun ls hls => (fillBefore_filter hp _ _ ls).trans hls
          refine Filling.andThen_value (P := fun ls => List.filter p ls = List.filter p (k :: ks))
            (fillBetween_filter hp (k :: ks)) fun ls hls => ?_
          simp only [Filling.map, List.filter_append, fillBefore_filter hp, hls, List.filter_nil,
            List.append_nil]

end Filter

/-- A filling of the tree `e` goes through and does not move its end. -/
structure Fills (g : GapSource) (e : Element) : Prop where
  /-- Nothing stops the filling of `e`. -/
  fault : (e.fill g).fault? = none
  /-- The tree ends where it ended, by `Element.outerEnd`. -/
  outerEnd : (e.fill g).value.outerEnd = e.outerEnd

theorem leaf_fills (g : GapSource) (l : Leaf) : (leaf l).Fills g := by
  constructor <;> rw [fill] <;> rfl

/-- Nodes that `fill` goes through one by one are filled by `fillEach`. -/
theorem fillEach_eq {ks : List Element} (h : ∀ k ∈ ks, (k.fill g).fault? = none) :
    (fillEach g ks).fault? = none ∧ (fillEach g ks).value = ks.map fun k => (k.fill g).value := by
  induction ks with
  | nil => exact ⟨by rw [fillEach]; rfl, by rw [fillEach]; rfl⟩
  | cons k ks ih =>
      obtain ⟨hk, hks⟩ := List.forall_mem_cons.mp h
      obtain ⟨hfault, hvalue⟩ := ih hks
      rw [fillEach]
      simp only [hk, Option.isSome_none, Bool.false_eq_true, if_false]
      exact ⟨hfault, by rw [hvalue, List.map_cons]⟩

/-- What `fill` makes of a branch when its children and its gaps can be filled. -/
theorem fill_branch {c : BranchClass} {s : Span} {o : Option String} {ks : List Element}
    (hks : ∀ k ∈ ks, k.Fills g) (hspaced : Spaced g s.start ks)
    (hend : (g.read (lastEnd s.start ks) s.stop).fault? = none) :
    ((branch c s o ks).fill g).fault? = none ∧
      ((branch c s o ks).fill g).value = branch c s o
        (fillSiblings g (some (s.start, s.stop)) (ks.map fun k => (k.fill g).value)).value := by
  obtain ⟨heach, hvalue⟩ := fillEach_eq fun k hk => (hks k hk).fault
  -- filled children stand where they stood
  have hstart : ∀ k ∈ ks, (k.fill g).value.start = k.start := by
    intro k _
    rw [start, start, fill_span]
  obtain ⟨hmap, hlast⟩ := spaced_map (g := g) (a := s.start) (f := fun k => (k.fill g).value)
    hstart fun k hk => (hks k hk).outerEnd
  have hgaps := fillSiblings_none (hmap.mpr hspaced) (hlast.symm ▸ hend)
  rw [fill]
  simp only [Filling.map, Filling.andThen, heach, hvalue, Option.isSome_none, Bool.false_eq_true,
    if_false, hgaps, and_self]

theorem branch_fills {c : BranchClass} {s : Span} {o : Option String} {ks : List Element}
    (hks : ∀ k ∈ ks, k.Fills g) (hspaced : Spaced g s.start ks)
    (hend : (g.read (lastEnd s.start ks) s.stop).fault? = none) : (branch c s o ks).Fills g := by
  obtain ⟨hfault, hvalue⟩ := fill_branch (c := c) (o := o) hks hspaced hend
  refine ⟨hfault, ?_⟩
  rw [hvalue, Element.outerEnd, Element.outerEnd]

end Element

end RakuTree
