import RakuTree.Frame
import RakuTree.Match.Sketch
import RakuTree.Proofs.Scan.Partition

/-!
# RakuTree.Proofs.Separators

Separators that are looked for between neighbours.

A separator such as `??` or `=>` has no match of its own: it is searched for in the text between
the elements on both sides (`Frame.between`). The text in front of it is layout, and the search
knows nothing of layout: it takes the first place where the separator stands. Whitespace is
always passed over, for no separator begins with whitespace. Any other token in front is passed
over only if the separator stands nowhere in it, so comments and documentation can *shadow* a
separator (`Layout.Shadows`), and the search is right exactly when none of them does
(`between_finds_separator_iff`).
-/

namespace RakuTree

/-! ### First occurrences -/

namespace Text

variable {src s t : Text}

/-- A text `s` that begins at place `k` is found by `first?`, and nowhere in front of what is found
does it begin. -/
theorem exists_first? {k : Nat} (h : s <+: t.drop k) :
    ∃ i ≤ k, first? s t = some i ∧ ∀ j < i, ¬ s <+: t.drop j := by
  induction t generalizing k with
  | nil =>
      have hs : s = [] := by simpa using h
      exact ⟨0, Nat.zero_le k, by simp [first?, hs], fun j hj => absurd hj (Nat.not_lt_zero j)⟩
  | cons c t ih =>
      by_cases hhere : s <+: c :: t
      · refine ⟨0, Nat.zero_le k, ?_, fun j hj => absurd hj (Nat.not_lt_zero j)⟩
        rw [first?, if_pos (List.isPrefixOf_iff_prefix.mpr hhere)]
      · cases k with
        | zero => exact absurd h hhere
        | succ k =>
            obtain ⟨i, hik, hfirst, hbefore⟩ := ih h
            refine ⟨i + 1, Nat.succ_le_succ hik, ?_, fun j hj => ?_⟩
            · rw [first?, if_neg (by rwa [List.isPrefixOf_iff_prefix]), hfirst]
              rfl
            · cases j with
              | zero => exact hhere
              | succ j => exact hbefore j (Nat.lt_of_succ_lt_succ hj)

/-- In a slice that holds `s` behind `lead`, the search comes to the first place of the source
where `s` stands, at the latest behind `lead`. -/
theorem exists_find? {lead rest : Text} {a : Nat} {b : Int} (hs : s ≠ [])
    (h : slice src a b = lead ++ (s ++ rest)) :
    ∃ i, find? src s a b = some i ∧ a ≤ i ∧ i ≤ a + lead.length ∧
      ∀ j, a ≤ j → j < i → ¬ StandsAt src j s := by
  have hpos := List.length_pos_iff.mpr hs
  have hwidth := congrArg List.length h
  simp only [slice, place_natCast, List.length_drop, List.length_take, List.length_append] at hwidth
  have hfind : find? src s a b = (first? s (lead ++ (s ++ rest))).map (a + ·) := by
    rw [find?, ← h, slice]
    simp only [place_natCast]
    rw [if_pos (by omega), ← List.take_take, List.take_length]
  obtain ⟨i, hi, hfirst, hbefore⟩ := exists_first? (s := s) (t := lead ++ (s ++ rest))
    (k := lead.length) (by rw [List.drop_left]; exact List.prefix_append s rest)
  refine ⟨a + i, by rw [hfind, hfirst]; rfl, by omega, by omega, fun j haj hji hstands => ?_⟩
  -- the slice reaches beyond `s` at `j`, so `s` stands there in the slice, too
  have hslice : StandsAt src (a + (j - a)) ((lead ++ (s ++ rest)).drop (j - a)) := by
    have hall : StandsAt src a (slice src a b) := standsAt_slice (Int.natCast_nonneg a) b
    rw [h] at hall
    exact hall.drop List.prefix_rfl
  rw [Nat.add_sub_cancel' haj] at hslice
  have hshort : s.length ≤ ((lead ++ (s ++ rest)).drop (j - a)).length := by
    simp only [List.length_drop, List.length_append]
    omega
  exact hbefore (j - a) (by omega) (List.prefix_of_prefix_length_le hstands hslice hshort)

/-- A character of a text `t` that stands in the source is the character of the source there. -/
theorem StandsAt.getElem? {i k : Nat} (h : StandsAt src i t) (hk : k < t.length) :
    src[i + k]? = t[k]? := by
  obtain ⟨rest, hrest⟩ := h
  rw [← List.getElem?_drop, ← hrest, List.getElem?_append_left hk]

end Text

/-! ### Layout in front of a separator -/

/-- Ranges that abut leave nothing out between `a` and `b`. -/
theorem Abut.exists_mem {α : Type} {startOf endOf : α → Int} {a b j : Int} {xs : List α}
    (h : Abut startOf endOf a xs b) (haj : a ≤ j) (hjb : j < b) :
    ∃ x ∈ xs, startOf x ≤ j ∧ j < endOf x := by
  induction xs generalizing a with
  | nil =>
      obtain rfl : a = b := h
      omega
  | cons x xs ih =>
      obtain ⟨hstart, hrest⟩ := h
      by_cases hj : j < endOf x
      · exact ⟨x, List.mem_cons_self, by omega, hj⟩
      · obtain ⟨y, hy, hrange⟩ := ih hrest (by omega)
        exact ⟨y, List.mem_cons_of_mem x hy, hrange⟩

namespace Layout

variable {docs : HereDocs} {src s lead : Text} {a : Nat} {atLine : Bool}

/-- Whitespace that a strict scan hands out, a leaf of class `ws`, is whitespace throughout. -/
theorem strict_scan_space (h : (scan docs true a atLine lead).fault? = none) {l : Leaf}
    (hl : l ∈ (scan docs true a atLine lead).tokens) (hcls : l.cls = .ws) :
    ∀ c ∈ l.content, Text.isSpace c = true := by
  obtain ⟨found, htokens, -, -, hsound⟩ := exists_findings docs a atLine lead
  obtain ⟨hsame, hfault⟩ := strict_scan docs a atLine lead
  have hreported : (scan docs false a atLine lead).reported = [] := by
    rw [← List.head?_eq_none_iff, Option.eq_none_iff_forall_not_mem]
    intro x hx
    rw [hfault x hx] at h
    cases h
  rw [(hsame hreported).2, ← htokens] at hl
  obtain ⟨x, hx, htoken⟩ := List.mem_filterMap.mp hl
  cases x with
  | unclassified i s => cases htoken
  | token k =>
      obtain rfl : k = l := Option.some.inj htoken
      exact ((hsound _ hx).run Text.isSpace (by simp [Finding.kind?, hcls])).kind

/-- One of the tokens, other than whitespace, covers an offset at which `s` stands. -/
def Shadows (src s : Text) (tokens : List Leaf) : Prop :=
  ∃ l ∈ tokens, l.cls ≠ .ws ∧ ∃ j : Nat, l.span.start ≤ j ∧ j < l.span.stop ∧ Text.StandsAt src j s

/-- Text that does not begin with whitespace stands at no offset of a leaf `l` of whitespace. -/
theorem not_standsAt_space {l : Leaf} (hl : l.StandsIn src)
    (hspace : ∀ c ∈ l.content, Text.isSpace c = true) {c : Char} (hs : s.head? = some c)
    (hc : Text.isSpace c = false) {j : Nat} (hstart : l.span.start ≤ j) (hstop : j < l.span.stop) :
    ¬ Text.StandsAt src j s := by
  intro hstands
  obtain ⟨i, hi⟩ := Int.eq_ofNat_of_zero_le l.span.nonneg
  have hwidth := hl.width
  have hlength : 0 < s.length := by
    cases s with
    | nil => cases hs
    | cons d s => exact Nat.succ_pos _
  have hchar : src[j]? = some c := by
    rw [← Nat.add_zero j, hstands.getElem? hlength, ← List.head?_eq_getElem?, hs]
  have hstands' := hl.stands
  rw [hi, Int.toNat_natCast] at hstands'
  have hcontent := hstands'.getElem? (k := j - i) (by omega)
  rw [Nat.add_sub_cancel' (by omega), hchar] at hcontent
  have hmem : c ∈ l.content := List.mem_of_getElem? hcontent.symm
  rw [hspace c hmem] at hc
  cases hc

/-- Where the layout `lead` stands in front, a text that does not begin with whitespace stands
inside of it exactly if some token `Shadows` it. -/
theorem exists_standsAt_iff (hlead : Text.StandsAt src a lead)
    (h : (scan docs true a atLine lead).fault? = none) {c : Char} (hs : s.head? = some c)
    (hc : Text.isSpace c = false) :
    (∃ j, a ≤ j ∧ j < a + lead.length ∧ Text.StandsAt src j s) ↔
      Shadows src s (scan docs true a atLine lead).tokens := by
  have habut := scan_abut h
  constructor
  · rintro ⟨j, haj, hj, hstands⟩
    obtain ⟨l, hl, hstart, hstop⟩ := habut.exists_mem (j := j) (by omega) (by omega)
    refine ⟨l, hl, fun hcls => ?_, j, hstart, hstop, hstands⟩
    have hin : l.StandsIn src := scan_standsIn (Int.natCast_nonneg a) hlead l hl
    exact not_standsAt_space hin (strict_scan_space h hl hcls) hs hc hstart hstop hstands
  · rintro ⟨l, hl, -, j, hstart, hstop, hstands⟩
    have hordered : ∀ k ∈ (scan docs true a atLine lead).tokens, k.span.start ≤ k.span.stop :=
      fun k _ => k.span.ordered
    have hle := habut.le_start hordered l hl
    have hge := (habut.le_end hordered).2 l hl
    exact ⟨j, by omega, by omega, hstands⟩

end Layout

/-! ### The search between neighbours -/

/-- **Separators behind layout.** Let the text between two rows of neighbours be `lead`, which a
strict scan accepts as layout, then `s`, which does not begin with whitespace, then anything. The
search for `s` goes through, with the first place of the gap where `s` stands. That is the place
behind `lead` exactly if no comment, documentation block or here-doc body in `lead` shadows it. -/
theorem Frame.between_finds_separator_iff (f : Frame) (cls : LeafClass) {left right : List Element}
    {lead s rest : Text} {a : Int} (ha : Element.lastEnd f.self.start left = a) (h0 : 0 ≤ a)
    (hgap : Text.slice f.src a (Element.firstStart f.self.stop right) = lead ++ (s ++ rest))
    {c : Char} (hs : s.head? = some c) (hc : Text.isSpace c = false)
    {docs : HereDocs} {atLine : Bool}
    (haccepted : (Layout.scan docs true a atLine lead).fault? = none) :
    ∃ i : Nat, f.between cls left right (.text s) = pure (Leaf.found cls i s f.origin) ∧
      Text.StandsAt f.src i s ∧ a ≤ i ∧ i ≤ a + lead.length ∧
      (∀ j : Nat, a ≤ j → j < i → ¬ Text.StandsAt f.src j s) ∧
      (i = a + lead.length ↔
        ¬ Layout.Shadows f.src s (Layout.scan docs true a atLine lead).tokens) := by
  obtain ⟨k, rfl⟩ := Int.eq_ofNat_of_zero_le h0
  have hne : s ≠ [] := by
    rintro rfl
    cases hs
  obtain ⟨i, hfind, hki, hik, hbefore⟩ := Text.exists_find? hne hgap
  have hlead : Text.StandsAt f.src k lead := by
    have hall : Text.StandsAt f.src k (Text.slice f.src k (Element.firstStart f.self.stop right)) :=
      Text.standsAt_slice h0 _
    rw [hgap] at hall
    exact hall.shorten (List.prefix_append lead _)
  have hstands := Text.standsAt_of_find? hfind
  have hbetween : f.between cls left right (.text s) = pure (Leaf.found cls i s f.origin) := by
    rw [between, expect, find?, Token.find?, ha, hfind]
    rfl
  refine ⟨i, hbetween, hstands, by omega, by omega, fun j hj hji => hbefore j (by omega) hji, ?_⟩
  rw [← Layout.exists_standsAt_iff hlead haccepted hs hc]
  constructor
  · rintro hi ⟨j, hkj, hj, hstands'⟩
    exact hbefore j hkj (by omega) hstands'
  · intro hnone
    rcases Nat.lt_or_eq_of_le hik with hlt | heq
    · exact absurd ⟨i, hki, hlt, hstands⟩ hnone
    · exact congrArg Nat.cast heq

/-- A choice `$a ?? 1 !! 2` with the first separator in a comment, too. -/
def Frame.sampleChoice : Frame where
  src := "$a #`(??) ?? 1 !! 2".toList
  production := .expr
  self := Sketch.span 0 19 [] []

namespace Frame.sampleChoice

/-- The condition of `sampleChoice`, in front of the comment. -/
def condition : List Element :=
  [.leaf (Leaf.found (.var (.sigiled .scalar none)) 0 ['$', 'a'] none)]

/-- What is chosen in `sampleChoice`, behind the separator. -/
def chosen : List Element := [.leaf (Leaf.found (.number .decimal) 13 ['1'] none)]

/-- The layout of `sampleChoice` between the condition and the separator. -/
def lead : Text := " #`(??) ".toList

/-- The separator of `sampleChoice` is found in the comment, four characters in front of its place.
-/
theorem separator_in_comment :
    Layout.Shadows sampleChoice.src ['?', '?'] (Layout.scan {} true 2 false lead).tokens ∧
    sampleChoice.between .infixOperator condition chosen (.text ['?', '?']) =
      pure (Leaf.found .infixOperator 6 ['?', '?'] sampleChoice.origin) := by
  have hshadows : Layout.Shadows sampleChoice.src ['?', '?']
      (Layout.scan {} true 2 false lead).tokens :=
    ⟨Leaf.found .comment 3 "#`(??)".toList none, by decide +kernel, by decide, 6, by decide +kernel⟩
  have hstart : Element.lastEnd sampleChoice.self.start condition = 2 := by decide +kernel
  have hgap : Text.slice sampleChoice.src 2 (Element.firstStart sampleChoice.self.stop chosen) =
      lead ++ (['?', '?'] ++ [' ']) := by
    decide +kernel
  have haccepted : (Layout.scan {} true 2 false lead).fault? = none := by decide +kernel
  obtain ⟨i, hbetween, hstands, hlow, hhigh, -, hplace⟩ :=
    between_finds_separator_iff sampleChoice .infixOperator hstart (by decide) hgap rfl
      (by decide) haccepted
  have hplaces : ∀ j ≤ 10, Text.StandsAt sampleChoice.src j ['?', '?'] → j = 6 ∨ j = 10 := by
    decide +kernel
  have hend : (2 : Int) + lead.length = 10 := by decide
  rw [hend] at hhigh hplace
  rcases hplaces i (by omega) hstands with rfl | rfl
  · exact ⟨hshadows, hbetween⟩
  · exact absurd hshadows (hplace.mp rfl)

end Frame.sampleChoice

end RakuTree
