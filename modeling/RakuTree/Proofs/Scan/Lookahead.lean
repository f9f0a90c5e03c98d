import RakuTree.Proofs.Scan.Step

/-!
# RakuTree.Proofs.Scan.Lookahead

How far the layout scan looks ahead.

Where a token ends is found out by looking ahead: for the bracket that closes a comment, for the
last line of a documentation block, for a blank line, for the end of the text. None of this depends
on what stands behind the token. When the text is cut off there, or anywhere behind it, a step of
the scan takes the same (`advance_take`).

The directives of documentation blocks are settled by the line they stand on (`ReadsLine`), and no
block ends before its first line does (`length_firstLine_lt_podLength`). For comments and runs of
characters the cut is followed along the recursion.
-/

namespace RakuTree

/-! ### Lines -/

namespace Text

variable {s w : Text} {m n : Nat} {p : Char → Bool}

/-- The text `s` up to the end of its first line, without the newline. -/
def firstLine (s : Text) : Text := s.takeWhile (· != '\n')

theorem firstLine_cons_newline (s : Text) : firstLine ('\n' :: s) = [] := rfl

theorem firstLine_cons_of_ne {c : Char} (hc : c ≠ '\n') (s : Text) :
    firstLine (c :: s) = c :: firstLine s := by
  rw [firstLine, List.takeWhile_cons_of_pos (by simpa using hc), firstLine]

/-- What stops at a newline anyway, by `p`, does not look behind the line. -/
theorem takeWhile_firstLine (hp : p '\n' = false) (s : Text) :
    (firstLine s).takeWhile p = s.takeWhile p := by
  induction s with
  | nil => rfl
  | cons c s ih =>
      by_cases hc : c = '\n'
      · rw [hc, firstLine_cons_newline, List.takeWhile_nil,
          List.takeWhile_cons_of_neg (by simp [hp])]
      · rw [firstLine_cons_of_ne hc, List.takeWhile_cons, List.takeWhile_cons, ih]

theorem firstLine_firstLine (s : Text) : firstLine (firstLine s) = firstLine s :=
  takeWhile_firstLine rfl s

theorem firstLine_take (s : Text) (m : Nat) : firstLine (s.take m) = (firstLine s).take m :=
  List.take_takeWhile.symm

theorem length_takeWhile_le_firstLine (hp : p '\n' = false) (s : Text) :
    (s.takeWhile p).length ≤ (firstLine s).length := by
  rw [← takeWhile_firstLine hp]
  exact (List.takeWhile_prefix p).length_le

theorem drop_firstLine (h : n ≤ (firstLine s).length) :
    (firstLine s).drop n = firstLine (s.drop n) := by
  induction n generalizing s with
  | zero => rfl
  | succ n ih =>
      cases s with
      | nil => rfl
      | cons c s =>
          by_cases hc : c = '\n'
          · subst hc
            cases h
          · rw [firstLine_cons_of_ne hc] at h ⊢
            exact ih (Nat.le_of_succ_le_succ h)

/-- A line that is gone into for `n` characters has that many fewer to come. -/
theorem length_firstLine_eq (h : n ≤ (firstLine s).length) :
    (firstLine s).length = n + (firstLine (s.drop n)).length := by
  rw [← drop_firstLine h, List.length_drop]
  omega

theorem prefix_firstLine_iff (hw : '\n' ∉ w) : w <+: firstLine s ↔ w <+: s := by
  refine ⟨fun h => h.trans (List.takeWhile_prefix _), ?_⟩
  rintro ⟨rest, rfl⟩
  rw [firstLine, List.takeWhile_append_of_pos]
  · exact List.prefix_append _ _
  · intro c hc
    rw [bne_iff_ne]
    rintro rfl
    exact hw hc

theorem isPrefixOf_firstLine (hw : '\n' ∉ w) (s : Text) :
    w.isPrefixOf (firstLine s) = w.isPrefixOf s := by
  rw [Bool.eq_iff_iff, List.isPrefixOf_iff_prefix, List.isPrefixOf_iff_prefix,
    prefix_firstLine_iff hw]

theorem length_le_firstLine (hw : '\n' ∉ w) (h : w.isPrefixOf s = true) :
    w.length ≤ (firstLine s).length := by
  rw [← isPrefixOf_firstLine hw] at h
  exact (List.isPrefixOf_iff_prefix.mp h).length_le

/-- What `f` finds out about a text is settled by its first line. -/
def ReadsLine {α : Type} (f : Text → α) : Prop := ∀ s, f (firstLine s) = f s

/-- If `f` reads the first line only, the text may be cut off anywhere behind that line. -/
theorem ReadsLine.take {α : Type} {f : Text → α} (hf : ReadsLine f) (h : (firstLine s).length ≤ m) :
    f (s.take m) = f s := by
  rw [← hf (s.take m), firstLine_take, List.take_of_length_le h, hf]

end Text

namespace Layout

open Text (firstLine ReadsLine isBlank)

variable {docs : HereDocs} {rest name word : Text} {m n : Nat}

/-! ### Documentation blocks -/

theorem wordBoundary_readsLine (before : Char) : ReadsLine (wordBoundary before) := by
  intro s
  cases s with
  | nil => rfl
  | cons c s =>
      by_cases hc : c = '\n'
      · subst hc
        rfl
      · rw [Text.firstLine_cons_of_ne hc]
        rfl

theorem blankLine_eq (s : Text) : blankLine s = (firstLine s).all isBlank := by
  induction s with
  | nil => rfl
  | cons c s ih =>
      by_cases hc : c = '\n'
      · subst hc
        rfl
      · rw [Text.firstLine_cons_of_ne hc, List.all_cons, ← ih]
        cases hblank : isBlank c with
        | true => simp [blankLine, hblank]
        | false => simp [blankLine, hblank, hc]

theorem blankLine_readsLine : ReadsLine blankLine := by
  intro s
  rw [blankLine_eq, blankLine_eq, Text.firstLine_firstLine]

/-- A directive that `afterDirective?` finds ends on the line it begins on. -/
theorem afterDirective?_eq_some {tail : Text} (hword : '\n' ∉ word)
    (h : afterDirective? word rest = some (n, tail)) :
    n ≤ (firstLine rest).length ∧ tail = rest.drop n := by
  simp only [afterDirective?] at h
  split at h
  · rename_i hbegins
    split at h
    · cases h
    · obtain ⟨rfl, rfl⟩ := Prod.mk.inj (Option.some.inj h)
      refine ⟨?_, List.drop_drop⟩
      rw [Text.length_firstLine_eq (Text.length_le_firstLine hword hbegins)]
      exact Nat.add_le_add_left (Text.length_takeWhile_le_firstLine rfl _) _
  · cases h

theorem afterDirective?_firstLine (hword : '\n' ∉ word) (s : Text) :
    afterDirective? word (firstLine s) = (afterDirective? word s).map (Prod.map id firstLine) := by
  simp only [afterDirective?, Text.isPrefixOf_firstLine hword]
  by_cases hbegins : word.isPrefixOf s = true
  · rw [if_pos hbegins, if_pos hbegins,
      Text.drop_firstLine (Text.length_le_firstLine hword hbegins), Text.takeWhile_firstLine rfl,
      Text.drop_firstLine (Text.length_takeWhile_le_firstLine rfl _)]
    split <;> rfl
  · rw [if_neg hbegins, if_neg hbegins]
    rfl

theorem podEndLine?_readsLine (hname : '\n' ∉ name) : ReadsLine (podEndLine? name) := by
  intro s
  have hend : '\n' ∉ ['=', 'e', 'n', 'd'] := by decide
  simp only [podEndLine?]
  rw [Text.takeWhile_firstLine rfl, Text.drop_firstLine (Text.length_takeWhile_le_firstLine rfl _),
    afterDirective?_firstLine hend]
  cases afterDirective? ['=', 'e', 'n', 'd'] (s.drop (s.takeWhile isBlank).length) with
  | none => rfl
  | some found =>
      obtain ⟨n, tail⟩ := found
      simp only [Option.map_some, Prod.map_apply, id, Text.isPrefixOf_firstLine hname]
      by_cases hbegins : name.isPrefixOf tail = true
      · have hlength := Text.length_le_firstLine hname hbegins
        have hbehind : (firstLine (tail.drop name.length)).takeWhile (· != '\n') =
            (tail.drop name.length).takeWhile (· != '\n') := Text.firstLine_firstLine _
        simp only [Text.drop_firstLine hlength, wordBoundary_readsLine _ _, hbehind]
      · simp only [hbegins, Bool.false_and, Bool.false_eq_true, if_false]

/-- The last line of a block, by `podEndLine?`, is taken as a whole. -/
theorem podEndLine?_eq_some (hname : '\n' ∉ name) (h : podEndLine? name rest = some n) :
    n = (firstLine rest).length := by
  simp only [podEndLine?] at h
  split at h
  · cases h
  · rename_i k tail hdirective
    split at h
    · rename_i hbegins
      obtain ⟨hk, rfl⟩ := afterDirective?_eq_some (by decide) hdirective
      have hlength := Text.length_le_firstLine hname (Bool.and_eq_true_iff.mp hbegins).1
      rw [Text.length_firstLine_eq (Text.length_takeWhile_le_firstLine (p := isBlank) rfl rest),
        Text.length_firstLine_eq hk, Text.length_firstLine_eq hlength, ← Option.some.inj h,
        firstLine]
      omega
    · cases h

theorem length_firstLine_le_podBlockLength (hname : '\n' ∉ name) (atLine : Bool) (rest : Text) :
    (firstLine rest).length ≤ podBlockLength name atLine rest := by
  induction rest generalizing atLine with
  | nil => exact Nat.zero_le _
  | cons c rest ih =>
      rw [podBlockLength]
      split
      · rename_i n hend
        split at hend
        · exact Nat.le_of_eq (podEndLine?_eq_some hname hend).symm
        · cases hend
      · by_cases hc : c = '\n'
        · subst hc
          exact Nat.zero_le _
        · rw [Text.firstLine_cons_of_ne hc]
          exact Nat.succ_le_succ (ih _)

theorem podBlockLength_take (hname : '\n' ∉ name) {atLine : Bool} {rest : Text}
    (h : podBlockLength name atLine rest ≤ m) :
    podBlockLength name atLine (rest.take m) = podBlockLength name atLine rest := by
  induction rest generalizing atLine m with
  | nil => rw [List.take_nil]
  | cons c rest ih =>
      cases m with
      | zero => rw [Nat.le_zero.mp h, List.take_zero, podBlockLength]
      | succ m =>
          -- the line is there in full, so it ends the block in both texts or in neither
          have hline := (podEndLine?_readsLine hname).take
            (Nat.le_trans (length_firstLine_le_podBlockLength hname atLine (c :: rest)) h)
          rw [List.take_succ_cons] at hline ⊢
          rw [podBlockLength] at h ⊢
          rw [podBlockLength, hline]
          split
          · rfl
          · rename_i hend
            rw [hend] at h
            rw [ih (Nat.le_of_succ_le_succ h)]

theorem length_firstLine_le_paragraphLength (rest : Text) :
    (firstLine rest).length ≤ paragraphLength rest := by
  induction rest with
  | nil => exact Nat.zero_le _
  | cons c rest ih =>
      by_cases hc : c = '\n'
      · subst hc
        exact Nat.zero_le _
      · rw [Text.firstLine_cons_of_ne hc, paragraphLength, if_neg (by simp [hc])]
        exact Nat.succ_le_succ ih

theorem paragraphLength_take {rest : Text} (h : paragraphLength rest ≤ m) :
    paragraphLength (rest.take m) = paragraphLength rest := by
  induction rest generalizing m with
  | nil => rw [List.take_nil]
  | cons c rest ih =>
      cases m with
      | zero => rw [Nat.le_zero.mp h, List.take_zero, paragraphLength]
      | succ m =>
          rw [List.take_succ_cons]
          rw [paragraphLength] at h ⊢
          rw [paragraphLength]
          by_cases hblank : (c == '\n' && blankLine rest) = true
          · -- what is left of a blank line is blank
            have hshort : (c == '\n' && blankLine (rest.take m)) = true := by
              rw [Bool.and_eq_true, blankLine_eq] at hblank ⊢
              refine ⟨hblank.1, ?_⟩
              rw [Text.firstLine_take]
              rw [List.all_eq_true] at hblank ⊢
              exact fun d hd => hblank.2 d (List.mem_of_mem_take hd)
            rw [if_pos hblank, if_pos hshort]
          · rw [if_neg hblank] at h ⊢
            have hm := Nat.le_of_succ_le_succ h
            have hline := Nat.le_trans (length_firstLine_le_paragraphLength rest) hm
            rw [blankLine_readsLine.take hline, if_neg hblank, ih hm]

/-- The line that opens a block with a name, as in `=begin NAME`: how far the name reaches, and the
name. -/
def blockOpening? (rest : Text) : Option (Nat × Text) :=
  (afterDirective? ['b', 'e', 'g', 'i', 'n'] rest).bind fun (n, tail) =>
    let name := tail.takeWhile isPodNameChar
    if name.isEmpty then none else some (n + name.length, name)

theorem podLength_of_some (h : blockOpening? rest = some (n, name)) :
    podLength rest = 1 + n + podBlockLength name false (rest.drop n) := by
  rw [blockOpening?] at h
  simp only [podLength, h]

theorem podLength_of_none (h : blockOpening? rest = none) :
    podLength rest =
      if standsAt ['f', 'i', 'n', 'i', 's', 'h'] rest || standsAt ['E', 'N', 'D'] rest then
        1 + rest.length
      else 1 + paragraphLength rest := by
  rw [blockOpening?] at h
  simp only [podLength, h]

theorem blockOpening?_readsLine : ReadsLine blockOpening? := by
  intro s
  have hbegin : '\n' ∉ ['b', 'e', 'g', 'i', 'n'] := by decide
  rw [blockOpening?, afterDirective?_firstLine hbegin, blockOpening?]
  cases afterDirective? ['b', 'e', 'g', 'i', 'n'] s with
  | none => rfl
  | some found =>
      have hchars : isPodNameChar '\n' = false := by decide
      simp only [Option.map_some, Option.bind_some, Prod.map, id, Text.takeWhile_firstLine hchars]

/-- A name that `blockOpening?` finds ends on the line that opens its block. -/
theorem blockOpening?_eq_some (h : blockOpening? rest = some (n, name)) :
    n ≤ (firstLine rest).length ∧ '\n' ∉ name := by
  rw [blockOpening?, Option.bind_eq_some_iff] at h
  obtain ⟨⟨k, tail⟩, hdirective, h⟩ := h
  obtain ⟨hk, rfl⟩ := afterDirective?_eq_some (by decide) hdirective
  dsimp only at h
  split at h
  · cases h
  · obtain ⟨rfl, rfl⟩ := Prod.mk.inj (Option.some.inj h)
    constructor
    · rw [Text.length_firstLine_eq hk]
      exact Nat.add_le_add_left (Text.length_takeWhile_le_firstLine rfl _) _
    · intro hmem
      have hchar : isPodNameChar '\n' = true := List.all_eq_true.mp List.all_takeWhile _ hmem
      exact absurd hchar (by decide)

theorem standsAt_readsLine (hword : '\n' ∉ word) : ReadsLine (standsAt word) := by
  intro s
  simp only [standsAt, Text.isPrefixOf_firstLine hword]
  by_cases hbegins : word.isPrefixOf s = true
  · simp only [Text.drop_firstLine (Text.length_le_firstLine hword hbegins),
      wordBoundary_readsLine _ _]
  · simp only [hbegins, Bool.false_and]

/-- A block takes the whole of its first line: `podLength` is more. -/
theorem length_firstLine_lt_podLength (rest : Text) : (firstLine rest).length < podLength rest := by
  cases hopening : blockOpening? rest with
  | some found =>
      obtain ⟨n, name⟩ := found
      obtain ⟨hn, hname⟩ := blockOpening?_eq_some hopening
      have hblock := length_firstLine_le_podBlockLength hname false (rest.drop n)
      rw [podLength_of_some hopening, Text.length_firstLine_eq hn]
      omega
  | none =>
      have hline : (firstLine rest).length ≤ rest.length := (List.takeWhile_prefix _).length_le
      have hparagraph := length_firstLine_le_paragraphLength rest
      rw [podLength_of_none hopening]
      split <;> omega

theorem podLength_take (h : podLength rest ≤ m + 1) : podLength (rest.take m) = podLength rest := by
  have hline : (firstLine rest).length ≤ m :=
    Nat.le_of_lt_succ (Nat.lt_of_lt_of_le (length_firstLine_lt_podLength rest) h)
  have hopening := blockOpening?_readsLine.take hline
  cases hfull : blockOpening? rest with
  | some found =>
      obtain ⟨n, name⟩ := found
      obtain ⟨hn, hname⟩ := blockOpening?_eq_some hfull
      rw [podLength_of_some hfull] at h ⊢
      rw [podLength_of_some (hopening.trans hfull), List.drop_take,
        podBlockLength_take hname (by omega)]
  | none =>
      have hfinish : ReadsLine (standsAt ['f', 'i', 'n', 'i', 's', 'h']) :=
        standsAt_readsLine (by decide)
      have hend : ReadsLine (standsAt ['E', 'N', 'D']) := standsAt_readsLine (by decide)
      rw [podLength_of_none hfull] at h ⊢
      rw [podLength_of_none (hopening.trans hfull), hfinish.take hline, hend.take hline]
      by_cases hrest : (standsAt ['f', 'i', 'n', 'i', 's', 'h'] rest ||
          standsAt ['E', 'N', 'D'] rest) = true
      · rw [if_pos hrest] at h
        rw [List.take_of_length_le (by omega)]
      · rw [if_neg hrest] at h
        rw [paragraphLength_take (by omega), if_neg hrest, if_neg hrest]

/-! ### Comments -/

/-- A delimiter `word` that is taken is there in front of a cut, too. -/
theorem isPrefixOf_take {x : Char} {xs : Text} (h : word.length ≤ m + 1)
    (hword : word.isPrefixOf (x :: xs) = true) : word.isPrefixOf (x :: xs.take m) = true := by
  rw [List.isPrefixOf_iff_prefix] at hword ⊢
  rw [← List.take_succ_cons]
  exact List.prefix_take_iff.mpr ⟨hword, h⟩

/-- A cut at `m` makes no new delimiters. -/
theorem not_isPrefixOf_take {x : Char} {xs : Text} (h : ¬word.isPrefixOf (x :: xs) = true)
    (m : Nat) : ¬word.isPrefixOf (x :: xs.take m) = true := by
  rw [List.isPrefixOf_iff_prefix] at h ⊢
  rw [← List.take_succ_cons]
  exact fun hshort => h (hshort.trans (List.take_prefix _ _))

theorem embeddedLength_take {o c : Char} {extra depth : Nat} {rest : Text}
    (h : embeddedLength o c extra depth rest ≤ m) :
    embeddedLength o c extra depth (rest.take m) = embeddedLength o c extra depth rest := by
  -- every delimiter that counts ends in front of the cut
  have hwidth : ∀ {d : Char} {k : Nat}, extra + 1 ≤ k + 1 →
      (List.replicate (extra + 1) d).length ≤ k + 1 := by
    intro d k hk
    rwa [List.length_replicate]
  fun_induction embeddedLength o c extra depth rest generalizing m with
  | case1 depth => rw [List.take_nil, embeddedLength]
  | case2 x xs hclose =>
      obtain ⟨k, rfl⟩ := Nat.exists_eq_add_of_le' (Nat.le_of_add_left_le h)
      rw [List.take_succ_cons, embeddedLength, if_pos (isPrefixOf_take (hwidth h) hclose)]
  | case3 x xs hclose d ih =>
      have hm : extra + 1 ≤ m := by omega
      obtain ⟨k, rfl⟩ := Nat.exists_eq_add_of_le' (Nat.le_of_add_left_le hm)
      have hrest := @ih (k + 1 - (extra + 1)) (by omega)
      rw [← List.drop_take, List.take_succ_cons] at hrest
      rw [List.take_succ_cons, embeddedLength, if_pos (isPrefixOf_take (hwidth hm) hclose)]
      exact congrArg _ hrest
  | case4 depth x xs hclose hopen ih =>
      have hm : extra + 1 ≤ m := by omega
      obtain ⟨k, rfl⟩ := Nat.exists_eq_add_of_le' (Nat.le_of_add_left_le hm)
      have hrest := @ih (k + 1 - (extra + 1)) (by omega)
      rw [← List.drop_take, List.take_succ_cons] at hrest
      rw [List.take_succ_cons, embeddedLength.eq_def]
      simp only [if_neg (not_isPrefixOf_take hclose k), if_pos (isPrefixOf_take (hwidth hm) hopen),
        hrest]
  | case5 depth x xs hclose hopen ih =>
      obtain ⟨k, rfl⟩ := Nat.exists_eq_add_of_le' (Nat.le_of_add_right_le h)
      rw [List.take_succ_cons, embeddedLength.eq_def]
      simp only [if_neg (not_isPrefixOf_take hclose k), if_neg (not_isPrefixOf_take hopen k)]
      rw [ih (by omega)]

/-- A cut may shorten the brackets that open a comment, by `embeddedOpener?`, but no more than that.
-/
theorem embeddedOpener?_take (rest : Text) (k : Nat) :
    embeddedOpener? (rest.take (k + 2)) = (embeddedOpener? rest).map (Prod.map id (min k)) := by
  rcases rest with _ | ⟨b, _ | ⟨o, rest⟩⟩
  · rfl
  · rfl
  · rw [List.take_succ_cons, List.take_succ_cons, embeddedOpener?, embeddedOpener?]
    by_cases hb : (b == '\x60') = true
    · rw [if_pos hb, if_pos hb]
      by_cases hrun : runOpeners.contains o = true
      · rw [if_pos hrun, if_pos hrun, ← List.take_takeWhile, List.length_take]
        rfl
      · rw [if_neg hrun, if_neg hrun]
        split
        · rw [Option.map_some, Prod.map_apply, Nat.min_zero]
          rfl
        · rfl
    · rw [if_neg hb, if_neg hb]
      rfl

theorem embeddedOpener?_take_of_none (h : embeddedOpener? rest = none) (m : Nat) :
    embeddedOpener? (rest.take m) = none := by
  rcases m with _ | _ | k
  · rfl
  · cases rest <;> rfl
  · rw [embeddedOpener?_take, h]
    rfl

theorem commentLength_take (h : commentLength rest ≤ m + 1) :
    commentLength (rest.take m) = commentLength rest := by
  rw [commentLength] at h ⊢
  rw [commentLength]
  cases hopener : embeddedOpener? rest with
  | some found =>
      obtain ⟨o, extra⟩ := found
      simp only [hopener] at h
      obtain ⟨k, rfl⟩ : ∃ k, m = k + 2 := ⟨m - 2, by omega⟩
      have hshort : embeddedOpener? (rest.take (k + 2)) = some (o, extra) := by
        rw [embeddedOpener?_take, hopener, Option.map_some, Prod.map_apply,
          Nat.min_eq_right (by omega)]
        rfl
      simp only [hshort, List.drop_take]
      rw [embeddedLength_take (by omega)]
  | none =>
      simp only [hopener] at h
      simp only [embeddedOpener?_take_of_none hopener]
      rw [← List.take_takeWhile, List.take_of_length_le (by omega)]

/-! ### One step -/

theorem runLength_take {p : Char → Bool} {offset : Int} {rest : Text}
    (h : runLength docs p offset rest ≤ m) :
    runLength docs p offset (rest.take m) = runLength docs p offset rest := by
  induction rest generalizing offset m with
  | nil => rw [List.take_nil]
  | cons c rest ih =>
      cases m with
      | zero => rw [Nat.le_zero.mp h, List.take_zero, runLength]
      | succ m =>
          rw [List.take_succ_cons]
          rw [runLength] at h ⊢
          rw [runLength]
          by_cases hc : (p c && !docs.startsAt offset) = true
          · rw [if_pos hc] at h ⊢
            rw [if_pos hc, ih (Nat.le_of_succ_le_succ h)]
          · rw [if_neg hc, if_neg hc]

theorem bodyLength?_take {offset : Int} (h : bodyLength? docs offset rest = some n) (hm : n ≤ m) :
    bodyLength? docs offset (rest.take m) = some n := by
  rw [bodyLength?] at h ⊢
  cases hstop : docs.stop? offset with
  | none =>
      rw [hstop] at h
      cases h
  | some stop =>
      rw [hstop] at h
      by_cases hlt : offset < stop
      · simp only [if_pos hlt, Option.some.injEq, List.length_take] at h ⊢
        omega
      · simp only [if_neg hlt] at h
        cases h

/-- A block does not end in front of the letter it opens with: `podLength` is more than one. -/
theorem one_lt_podLength (h : opensPod rest = true) : 1 < podLength rest := by
  have hline : 0 < (firstLine rest).length := by
    cases rest with
    | nil => cases h
    | cons a rest =>
        have ha : a ≠ '\n' := by
          rintro rfl
          cases h
        rw [Text.firstLine_cons_of_ne ha]
        exact Nat.succ_pos _
  exact Nat.lt_of_le_of_lt hline (length_firstLine_lt_podLength rest)

theorem opensPod_take (rest : Text) (m : Nat) : opensPod (rest.take (m + 1)) = opensPod rest := by
  cases rest <;> rfl

/-- A cut at `m` opens no block. -/
theorem opensPod_of_take (h : opensPod (rest.take m) = true) : opensPod rest = true := by
  cases m with
  | zero => cases h
  | succ m => rwa [opensPod_take] at h

theorem classify_take {offset : Int} {atLine : Bool} {c : Char} {cls? : Option LeafClass}
    (h : classify docs offset atLine c rest = (cls?, n)) (hm : n ≤ m) :
    classify docs offset atLine c (rest.take m) = (cls?, n) := by
  rw [classify] at h ⊢
  by_cases hspace : Text.isSpace c = true
  · rw [if_pos hspace] at h ⊢
    obtain ⟨rfl, rfl⟩ := Prod.mk.inj h
    rw [runLength_take hm]
  · rw [if_neg hspace] at h ⊢
    by_cases hcomment : (c == '#') = true
    · rw [if_pos hcomment] at h ⊢
      obtain ⟨rfl, rfl⟩ := Prod.mk.inj h
      rw [commentLength_take (by omega)]
    · rw [if_neg hcomment] at h ⊢
      by_cases hpod : (c == '=' && atLine && opensPod rest) = true
      · -- the letter that opens the block is still there
        rw [if_pos hpod] at h
        obtain ⟨rfl, rfl⟩ := Prod.mk.inj h
        have hopens : opensPod rest = true := (Bool.and_eq_true_iff.mp hpod).2
        have hlength := one_lt_podLength hopens
        obtain ⟨k, rfl⟩ : ∃ k, m = k + 1 := ⟨m - 1, by omega⟩
        rw [opensPod_take, if_pos hpod, podLength_take (by omega)]
      · have hpod' : ¬(c == '=' && atLine && opensPod (rest.take m)) = true := by
          intro hshort
          rw [Bool.and_eq_true] at hpod hshort
          exact hpod ⟨hshort.1, opensPod_of_take hshort.2⟩
        rw [if_neg hpod] at h
        obtain ⟨rfl, rfl⟩ := Prod.mk.inj h
        rw [if_neg hpod', runLength_take hm]

/-- **What a step takes does not depend on what stands behind it.** The text may be cut off anywhere
behind the `n` characters that `advance` takes. -/
theorem advance_take {offset : Int} {atLine : Bool} {c : Char} {cls? : Option LeafClass}
    (h : advance docs offset atLine c rest = (cls?, n)) (hm : n ≤ m) :
    advance docs offset atLine c (rest.take m) = (cls?, n) := by
  rw [advance] at h ⊢
  cases hbody : bodyLength? docs offset rest with
  | some k =>
      rw [hbody] at h
      obtain ⟨rfl, rfl⟩ := Prod.mk.inj h
      rw [bodyLength?_take hbody hm]
  | none =>
      rw [hbody] at h
      rw [bodyLength?_eq_none _ hbody]
      exact classify_take h hm

end Layout

end RakuTree
