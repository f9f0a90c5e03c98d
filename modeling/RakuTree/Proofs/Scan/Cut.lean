import RakuTree.Proofs.Scan.Lookahead

/-!
# RakuTree.Proofs.Scan.Cut

Cutting a scan between two tokens.

A scan keeps no record of where it has been. All that counts at a place it comes by (`Reaches`) is
the text from there on and whether a line begins. Since no step looks behind what it takes, the
steps up to that place are the same when the text is cut off there. So a scan is made up of two
scans, one of each part of the text (`Reaches.pieces_eq`).
-/

namespace RakuTree.Layout

variable {docs : HereDocs}

/-- A scan of `text`, which stands at offset `i`, comes by the place in front of which the first
`k` characters stand; `newLine` says whether a line begins there. -/
inductive Reaches (docs : HereDocs) : Nat → Bool → Text → Nat → Bool → Prop
  /-- The scan begins in front of all characters, at place `0`. -/
  | start {i : Nat} {atLine : Bool} {text : Text} : Reaches docs i atLine text 0 atLine
  /-- The scan goes on behind what a step by `advance` takes. -/
  | step {i n k : Nat} {atLine newLine : Bool} {c : Char} {rest : Text} {cls? : Option LeafClass}
      (h : advance docs i atLine c rest = (cls?, n))
      (hrest : Reaches docs (i + (c :: rest.take n).length)
        ((c :: rest.take n).getLast? == some '\n') (rest.drop n) k newLine) :
      Reaches docs i atLine (c :: rest) ((c :: rest.take n).length + k) newLine

namespace Reaches

variable {i k : Nat} {atLine newLine : Bool} {text : Text}

/-- A scan only `Reaches` place `0` where it begins. -/
theorem newLine_of_zero (h : Reaches docs i atLine text k newLine) (hk : k = 0) :
    newLine = atLine := by
  cases h with
  | start => rfl
  | step h hrest =>
      rw [List.length_cons] at hk
      omega

theorem le_length (h : Reaches docs i atLine text k newLine) : k ≤ text.length := by
  induction h with
  | start => exact Nat.zero_le _
  | @step i n k atLine newLine c rest cls? h hrest ih =>
      rw [List.length_drop] at ih
      rw [List.length_cons, List.length_cons, List.length_take]
      omega

/-- Whether a line begins at the place `k` is told by the character in front of it. -/
theorem newLine_eq (h : Reaches docs i atLine text k newLine) (hk : 0 < k) :
    newLine = (text[k - 1]? == some '\n') := by
  induction h with
  | start => exact absurd hk (Nat.lt_irrefl 0)
  | @step i n k atLine newLine c rest cls? h hrest ih =>
      have hsplit : c :: rest = (c :: rest.take n) ++ rest.drop n := by simp
      have hpos : 0 < (c :: rest.take n).length := Nat.succ_pos _
      rw [hsplit]
      rcases Nat.eq_zero_or_pos k with rfl | hk
      · rw [hrest.newLine_of_zero rfl, List.getLast?_eq_getElem?, Nat.add_zero,
          List.getElem?_append_left (Nat.sub_lt hpos Nat.one_pos)]
      · rw [ih hk, Nat.add_sub_assoc hk, List.getElem?_append_right (Nat.le_add_right _ _),
          Nat.add_sub_cancel_left]

/-- The pieces of a text are those in front of the place `k` that a scan `Reaches`, and those behind
it. -/
theorem pieces_eq (h : Reaches docs i atLine text k newLine) :
    pieces docs i atLine text =
      pieces docs i atLine (text.take k) ++
        pieces docs ((i + k : Nat) : Int) newLine (text.drop k) := by
  induction h with
  | start => simp [pieces]
  | @step i n k atLine newLine c rest cls? h hrest ih =>
      rcases Nat.le_total n rest.length with hn | hn
      · -- the step takes the same in front of the cut, which comes `k` characters later
        have hlength : (c :: rest.take n).length = n + 1 := by
          rw [List.length_cons, List.length_take, Nat.min_eq_left hn]
        have htake : (rest.take (n + k)).take n = rest.take n := by
          rw [List.take_take, Nat.min_eq_left (Nat.le_add_right n k)]
        have hdrop : (rest.take (n + k)).drop n = (rest.drop n).take k := by
          rw [List.drop_take, Nat.add_sub_cancel_left]
        have hfront := pieces_cons (advance_take h (Nat.le_add_right n k))
        rw [htake, hdrop] at hfront
        rw [Int.natCast_add] at ih
        have hsum : n + 1 + k = n + k + 1 := by omega
        have hplace : i + (n + 1) + k = i + (n + k + 1) := by omega
        rw [pieces_cons h, ih, hlength, hsum, List.take_succ_cons, hfront, List.drop_succ_cons,
          List.drop_drop, hlength, hplace, List.append_assoc, List.cons_append]
      · -- the step takes all that is left
        have hall : (c :: rest).length ≤ (c :: rest.take n).length + k := by
          rw [List.take_of_length_le hn]
          exact Nat.le_add_right _ _
        rw [List.take_of_length_le hall, List.drop_eq_nil_of_le hall, pieces.eq_1, List.append_nil]

end Reaches

/-- A scan `Reaches` the end of each of its tokens. -/
theorem reaches_of_mem (docs : HereDocs) (i : Nat) (atLine : Bool) (text : Text) :
    ∀ l ∈ (scan docs false i atLine text).tokens,
      ∃ (k : Nat) (newLine : Bool), 0 < k ∧ l.span.stop = i + k ∧
        Reaches docs i atLine text k newLine := by
  induction i, atLine, text using scanRec docs with
  | nil i atLine => simp [scan_nil]
  | cons i atLine c rest cls? n h ih =>
      have hbehind : ∀ l ∈ (scanBehind docs false i (c :: rest.take n) (rest.drop n)).tokens,
          ∃ (k : Nat) (newLine : Bool), 0 < k ∧ l.span.stop = i + k ∧
            Reaches docs i atLine (c :: rest) k newLine := by
        intro l hl
        obtain ⟨k, newLine, hk, hstop, hreaches⟩ := ih l hl
        refine ⟨_, newLine, Nat.add_pos_right _ hk, ?_, .step h hreaches⟩
        rw [hstop]
        omega
      cases cls? with
      | none =>
          rw [(scan_cons_other h).2.2]
          exact hbehind
      | some cls =>
          have hnone := scan_fault?_eq_none docs (i + (c :: rest.take n).length)
            ((c :: rest.take n).getLast? == some '\n') (rest.drop n)
          rw [(scan_cons_token false h).2.2 hnone]
          refine List.forall_mem_cons.mpr ⟨⟨_, _, ?_, ?_, .step h .start⟩, hbehind⟩
          · exact Nat.succ_pos _
          · rw [Nat.add_zero]
            rfl

/-- A reading of `ps ++ qs` that goes through can be made in two parts. -/
theorem read_append {strict : Bool} {ps qs : List Piece}
    (h : (read strict (ps ++ qs)).fault? = none) :
    (read strict ps).fault? = none ∧
      (read strict (ps ++ qs)).tokens = (read strict ps).tokens ++ (read strict qs).tokens := by
  induction ps with
  | nil => exact ⟨rfl, rfl⟩
  | cons p ps ih =>
      cases p with
      | token cls offset s =>
          rw [List.cons_append, read] at h ⊢
          rw [read]
          cases hplaced : Leaf.placed cls offset s none {} with
          | ok l =>
              simp only [hplaced] at h ⊢
              have hrest : (read strict (ps ++ qs)).fault? = none := h
              obtain ⟨hfault, htokens⟩ := ih hrest
              refine ⟨hfault, ?_⟩
              rw [Reading.cons_tokens hrest, Reading.cons_tokens hfault, htokens, List.cons_append]
          | error e =>
              rw [hplaced] at h
              cases h
      | unclassified offset s =>
          cases strict with
          | true => cases h
          | false => exact ih h
      | backwardHereDoc offset stop => exact ih h

/-- **A scan can be cut behind each token.** Every token of a lenient scan ends behind the first
`k` characters of the text, for some `k`. The scan of these characters and the scan of the others,
which starts anew at the beginning of a line if the last one of the first was a newline, go through
and hand out the tokens of the text between them. -/
theorem scan_cut_behind_token (docs : HereDocs) {offset : Int} (h0 : 0 ≤ offset) (atLine : Bool)
    (text : Text) {l : Leaf} (hl : l ∈ (scan docs false offset atLine text).tokens) :
    ∃ k : Nat, 0 < k ∧ k ≤ text.length ∧ l.span.stop = offset + k ∧
      (scan docs false offset atLine (text.take k)).fault? = none ∧
      (scan docs false (offset + k) (text[k - 1]? == some '\n') (text.drop k)).fault? = none ∧
      (scan docs false offset atLine text).tokens =
        (scan docs false offset atLine (text.take k)).tokens ++
          (scan docs false (offset + k) (text[k - 1]? == some '\n') (text.drop k)).tokens := by
  obtain ⟨i, rfl⟩ := Int.eq_ofNat_of_zero_le h0
  obtain ⟨k, newLine, hk, hstop, hreaches⟩ := reaches_of_mem docs i atLine text l hl
  have hthrough := scan_fault?_eq_none docs i atLine text
  have hpieces := hreaches.pieces_eq
  rw [hreaches.newLine_eq hk, Int.natCast_add] at hpieces
  rw [scan, hpieces] at hthrough
  refine ⟨k, hk, hreaches.le_length, hstop, scan_fault?_eq_none _ _ _ _, ?_, ?_⟩
  · rw [← Int.natCast_add]
    exact scan_fault?_eq_none _ _ _ _
  · rw [scan, hpieces, (read_append hthrough).2]
    rfl

/-- A here-doc that starts in the middle of a blank line of `cutText` and ends behind the text. -/
def cutDocs : HereDocs := ⟨[(11, 100)]⟩

/-- Documentation up to a blank line, the beginning of that line, and what `cutDocs` takes for a
here-doc. -/
def cutText : Text := "=a\nb\n \n#c".toList

/-- The scan of `cutText` is cut in front of the here-doc, so that the blank line is cut in two. -/
theorem sample_cut_behind_token :
    Leaf.found .ws 9 ['\n', ' '] none ∈ (scan cutDocs false 5 true cutText).tokens ∧
    ∃ k : Nat, 0 < k ∧ k ≤ cutText.length ∧ (11 : Int) = 5 + k ∧
      (scan cutDocs false 5 true (cutText.take k)).fault? = none ∧
      (scan cutDocs false (5 + k) (cutText[k - 1]? == some '\n') (cutText.drop k)).fault? = none ∧
      (scan cutDocs false 5 true cutText).tokens =
        (scan cutDocs false 5 true (cutText.take k)).tokens ++
          (scan cutDocs false (5 + k) (cutText[k - 1]? == some '\n') (cutText.drop k)).tokens := by
  have hmem : Leaf.found .ws 9 ['\n', ' '] none ∈ (scan cutDocs false 5 true cutText).tokens := by
    decide +kernel
  exact ⟨hmem, scan_cut_behind_token cutDocs (show (0 : Int) ≤ 5 by decide) true cutText hmem⟩

end RakuTree.Layout
