import RakuTree.Proofs.Scan.Step

/-!
# RakuTree.Proofs.Scan.Comments

Embedded comments nest.

An embedded comment ends with the bracket that closes its opening one. Which bracket that is, is
a matter of balanced text (`Balanced`), while the scan counts how many brackets are open. Balanced
text leaves the count as it is (`embeddedLength_balanced`), so the scan runs over it, whatever else
it holds, and the next closing bracket ends the comment. Where the text comes to an end with
brackets open, nothing in front of that end closes them all (`embeddedLength_unclosed`).
-/

namespace RakuTree.Layout

variable {o c : Char} {s : Text} {n depth : Nat}

/-! ### Balanced text -/

/-- The brackets that an embedded comment can stand in, as pairs of opening and closing ones. -/
def commentBrackets : List (Char × Char) :=
  [('(', ')'), ('[', ']'), ('\x7b', '\x7d'), ('<', '>'), ('«', '»'), ('｢', '｣')]

/-- Text in which each of the brackets `o` and `c` has its partner. -/
inductive Balanced (o c : Char) : Text → Prop
  /-- No text is `Balanced`. -/
  | nil : Balanced o c []
  /-- A character `x` that is neither of the brackets stands in front. -/
  | other {x : Char} {s : Text} (ho : x ≠ o) (hc : x ≠ c) (h : Balanced o c s) :
      Balanced o c (x :: s)
  /-- A pair of brackets around `inner` stands in front. -/
  | pair {inner s : Text} (hinner : Balanced o c inner) (h : Balanced o c s) :
      Balanced o c (o :: (inner ++ c :: s))

/-- Text that is `Balanced` has as many opening as closing brackets. -/
theorem Balanced.count_eq (hne : o ≠ c) {b : Text} (h : Balanced o c b) :
    b.count o = b.count c := by
  induction h with
  | nil => rfl
  | other ho hc h ih => rw [List.count_cons_of_ne ho, List.count_cons_of_ne hc, ih]
  | pair hinner h ihinner ih =>
      rw [List.count_cons_self, List.count_cons_of_ne hne, List.count_append, List.count_append,
        List.count_cons_self, List.count_cons_of_ne hne.symm, ihinner, ih]
      rfl

/-- Text that closes `n` brackets which were opened in front of it, the last one by its last
character. -/
inductive Closes (o c : Char) : Nat → Text → Prop
  /-- There is nothing to close, and no text. -/
  | none : Closes o c 0 []
  /-- One bracket is closed behind `inner`, and `n` more behind it. -/
  | one {n : Nat} {inner s : Text} (hinner : Balanced o c inner) (h : Closes o c n s) :
      Closes o c (n + 1) (inner ++ c :: s)

namespace Closes

/-- A closing bracket `c` in front closes one more. -/
theorem cons_closer (h : Closes o c n s) : Closes o c (n + 1) (c :: s) := .one .nil h

/-- An opening bracket `o` in front takes one of those that are closed. -/
theorem cons_opener (h : Closes o c (n + 2) s) : Closes o c (n + 1) (o :: s) := by
  cases h with
  | @one _ inner _ hinner h =>
      cases h with
      | @one _ inner' s hinner' h =>
          have hsplit : o :: (inner ++ c :: (inner' ++ c :: s)) =
              o :: (inner ++ c :: inner') ++ c :: s := by simp
          rw [hsplit]
          exact .one (.pair hinner hinner') h

/-- Any other character `x` in front makes no difference. -/
theorem cons_other {x : Char} (ho : x ≠ o) (hc : x ≠ c) (h : Closes o c (n + 1) s) :
    Closes o c (n + 1) (x :: s) := by
  cases h with
  | one hinner h => exact .one (.other ho hc hinner) h

/-- To close a single bracket takes `Balanced` text and the closing bracket. -/
theorem exists_balanced (h : Closes o c 1 s) : ∃ b, Balanced o c b ∧ s = b ++ [c] := by
  cases h with
  | @one _ b _ hb h =>
      cases h with
      | none => exact ⟨b, hb, rfl⟩

end Closes

/-! ### Counting brackets -/

theorem isPrefixOf_replicate_one (x y : Char) (s : Text) :
    (List.replicate (0 + 1) y).isPrefixOf (x :: s) = (y == x) := by
  rw [Nat.zero_add, List.replicate_one, List.isPrefixOf, List.isPrefixOf_nil_left, Bool.and_true]

/-- The last closing bracket ends the comment, for `embeddedLength`. -/
theorem embeddedLength_last (o c : Char) (s : Text) : embeddedLength o c 0 0 (c :: s) = 1 := by
  rw [embeddedLength, isPrefixOf_replicate_one, beq_self_eq_true, if_pos rfl]

theorem embeddedLength_closer (o c : Char) (depth : Nat) (s : Text) :
    embeddedLength o c 0 (depth + 1) (c :: s) = embeddedLength o c 0 depth s + 1 := by
  rw [embeddedLength, isPrefixOf_replicate_one, beq_self_eq_true, if_pos rfl, Nat.add_comm]
  rfl

theorem embeddedLength_opener (hne : o ≠ c) (depth : Nat) (s : Text) :
    embeddedLength o c 0 depth (o :: s) = embeddedLength o c 0 (depth + 1) s + 1 := by
  rw [embeddedLength.eq_def]
  simp only [isPrefixOf_replicate_one, beq_self_eq_true, beq_false_of_ne hne.symm,
    Bool.false_eq_true, if_false, if_true, Nat.zero_add, List.drop_succ_cons, List.drop_zero]
  exact Nat.add_comm 1 _

theorem embeddedLength_other {x : Char} (ho : x ≠ o) (hc : x ≠ c) (depth : Nat) (s : Text) :
    embeddedLength o c 0 depth (x :: s) = embeddedLength o c 0 depth s + 1 := by
  rw [embeddedLength.eq_def]
  simp only [isPrefixOf_replicate_one, beq_false_of_ne hc.symm, beq_false_of_ne ho.symm,
    Bool.false_eq_true, if_false]
  exact Nat.add_comm 1 _

/-- Text that is `Balanced` leaves the number of open brackets, `depth`, as it is. -/
theorem embeddedLength_balanced (hne : o ≠ c) {b : Text} (h : Balanced o c b) (depth : Nat)
    (s : Text) :
    embeddedLength o c 0 depth (b ++ s) = b.length + embeddedLength o c 0 depth s := by
  induction h generalizing depth s with
  | nil => rw [List.nil_append, List.length_nil, Nat.zero_add]
  | other ho hc h ih =>
      rw [List.cons_append, embeddedLength_other ho hc, ih, List.length_cons]
      omega
  | @pair inner b hinner h ihinner ih =>
      rw [List.cons_append, List.append_assoc, List.cons_append, embeddedLength_opener hne, ihinner,
        embeddedLength_closer, ih, List.length_cons, List.length_append, List.length_cons]
      omega

/-- Where no text in front of the end `Closes` all open brackets, the comment goes on to the end. -/
theorem embeddedLength_unclosed (hne : o ≠ c)
    (h : ∀ t, Closes o c (depth + 1) t → ¬ t <+: s) : embeddedLength o c 0 depth s = s.length := by
  induction s generalizing depth with
  | nil => rw [embeddedLength, List.length_nil]
  | cons x s ih =>
      -- what closes the brackets behind `x` closes, together with `x`, those in front of it
      have hbehind : ∀ {t}, Closes o c (depth + 1) (x :: t) → ¬ t <+: s := by
        intro t hcloses hprefix
        exact h (x :: t) hcloses (List.cons_prefix_cons.mpr ⟨rfl, hprefix⟩)
      rw [List.length_cons]
      by_cases hc : x = c
      · subst hc
        cases depth with
        | zero => exact absurd (List.nil_prefix) (hbehind (Closes.cons_closer .none))
        | succ depth =>
            rw [embeddedLength_closer, ih fun t ht => hbehind ht.cons_closer]
      · by_cases ho : x = o
        · subst ho
          rw [embeddedLength_opener hne, ih fun t ht => hbehind ht.cons_opener]
        · rw [embeddedLength_other ho hc, ih fun t ht => hbehind (ht.cons_other ho hc)]

/-! ### The comment as a token -/

/-- An embedded comment that opens with the bracket `o`, and what follows. -/
def embedded (o : Char) (s : Text) : Text := '#' :: '\x60' :: o :: s

/-- The brackets in `commentBrackets` are pairs of different characters, and known to the scan. -/
theorem commentBrackets_known (h : (o, c) ∈ commentBrackets) :
    closingBracket o = c ∧ o ≠ c ∧ (o ∈ runOpeners ∨ o ∈ singleOpeners) := by
  have hall : commentBrackets.all (fun p => closingBracket p.1 = p.2 ∧ p.1 ≠ p.2 ∧
      (p.1 ∈ runOpeners ∨ p.1 ∈ singleOpeners)) = true := by decide
  exact of_decide_eq_true (List.all_eq_true.mp hall (o, c) h)

/-- A bracket `o` that stands alone opens a comment. -/
theorem embeddedOpener?_single (h : o ∈ runOpeners ∨ o ∈ singleOpeners)
    (hs : o ∈ runOpeners → s.head? ≠ some o) :
    embeddedOpener? ('\x60' :: o :: s) = some (o, 0) := by
  rw [embeddedOpener?, beq_self_eq_true, if_pos rfl]
  by_cases hrun : o ∈ runOpeners
  · rw [if_pos (List.contains_iff_mem.mpr hrun)]
    cases s with
    | nil => rfl
    | cons x s =>
        have hx : x ≠ o := fun hx => hs hrun (congrArg some hx)
        rw [List.takeWhile_cons_of_neg (by simpa using hx), List.length_nil]
  · have hsingle : o ∈ singleOpeners := h.resolve_left hrun
    rw [if_neg (by rwa [List.contains_iff_mem]), if_pos (List.contains_iff_mem.mpr hsingle)]

theorem commentLength_of_brackets (h : (o, c) ∈ commentBrackets)
    (hs : o ∈ runOpeners → s.head? ≠ some o) :
    commentLength ('\x60' :: o :: s) = 3 + embeddedLength o c 0 0 s := by
  obtain ⟨hcloser, -, hopener⟩ := commentBrackets_known h
  simp only [commentLength, embeddedOpener?_single hopener hs, hcloser, Nat.zero_add,
    List.drop_succ_cons, List.drop_zero]

/-- A comment is one token for `advance`, whatever it holds, where no here-doc starts at it. -/
theorem advance_comment {docs : HereDocs} {i : Int} (hdocs : docs.stop? i = none) (atLine : Bool)
    (rest : Text) : advance docs i atLine '#' rest = (some .comment, commentLength rest - 1) := by
  have hspace : Text.isSpace '#' = false := by decide
  simp only [advance, bodyLength?, hdocs, classify, hspace, beq_self_eq_true, Bool.false_eq_true,
    if_false, if_true]

/-- What a scan of an embedded comment finds first, when the comment takes `taken`. -/
theorem scan_embedded {o c : Char} (h : (o, c) ∈ commentBrackets) {taken r : Text}
    (hs : o ∈ runOpeners → (taken ++ r).head? ≠ some o)
    (hlength : embeddedLength o c 0 0 (taken ++ r) = taken.length) (strict : Bool) (i : Nat)
    (atLine : Bool) :
    (scan {} strict i atLine (embedded o (taken ++ r))).fault? =
        (scanBehind {} strict i (embedded o taken) r).fault? ∧
      ((scanBehind {} strict i (embedded o taken) r).fault? = none →
        (scan {} strict i atLine (embedded o (taken ++ r))).tokens =
          Leaf.found .comment i (embedded o taken) none ::
            (scanBehind {} strict i (embedded o taken) r).tokens) := by
  have hadvance : advance {} i atLine '#' ('\x60' :: o :: (taken ++ r)) =
      (some .comment, taken.length + 2) := by
    rw [advance_comment rfl, commentLength_of_brackets h hs, hlength]
    exact congrArg (Prod.mk _) (by omega)
  obtain ⟨hfault, -, htokens⟩ := scan_cons_token strict hadvance
  have htake : ('\x60' :: o :: (taken ++ r)).take (taken.length + 2) = '\x60' :: o :: taken := by
    rw [List.take_succ_cons, List.take_succ_cons, List.take_left]
  have hdrop : ('\x60' :: o :: (taken ++ r)).drop (taken.length + 2) = r := by
    rw [List.drop_succ_cons, List.drop_succ_cons, List.drop_left]
  rw [htake, hdrop] at hfault htokens
  exact ⟨hfault, htokens⟩

/-- **Embedded comments nest.** Let `o` and `c` be a pair of brackets that comments stand in.

* Behind the opening bracket, balanced text and the next closing bracket belong to the comment, and
  the scan goes through and finds the comment first; if it is strict, what follows must let it.
* Text that nowhere closes the opening bracket belongs to the comment as a whole.

A bracket of the kind that comes in runs has to stand alone: the same bracket must not follow it at
once. -/
theorem embedded_comment_nests {o c : Char} (h : (o, c) ∈ commentBrackets) (i : Nat)
    (atLine strict : Bool) :
    (∀ b r, Balanced o c b → (o ∈ runOpeners → b.head? ≠ some o) →
      (strict = true → (scan {} strict i atLine (embedded o (b ++ c :: r))).fault? = none) →
      (scan {} strict i atLine (embedded o (b ++ c :: r))).fault? = none ∧
        (scan {} strict i atLine (embedded o (b ++ c :: r))).tokens.head? =
          some (Leaf.found .comment i (embedded o (b ++ [c])) none)) ∧
    (∀ s, (o ∈ runOpeners → s.head? ≠ some o) → (∀ b, Balanced o c b → ¬ b ++ [c] <+: s) →
      (scan {} strict i atLine (embedded o s)).fault? = none ∧
        (scan {} strict i atLine (embedded o s)).tokens =
          [Leaf.found .comment i (embedded o s) none]) := by
  obtain ⟨-, hne, -⟩ := commentBrackets_known h
  refine ⟨fun b r hb halone hthrough => ?_, fun s halone hopen => ?_⟩
  · have hsplit : b ++ c :: r = b ++ [c] ++ r := by rw [List.append_assoc]; rfl
    have hlength : embeddedLength o c 0 0 (b ++ [c] ++ r) = (b ++ [c]).length := by
      rw [← hsplit, embeddedLength_balanced hne hb, embeddedLength_last, List.length_append]
      rfl
    have halone' : o ∈ runOpeners → (b ++ [c] ++ r).head? ≠ some o := by
      intro hrun
      cases b with
      | nil => exact fun hhead => hne.symm (Option.some.inj hhead)
      | cons x b => exact halone hrun
    have hnone : (scan {} strict i atLine (embedded o (b ++ c :: r))).fault? = none := by
      cases strict with
      | false => exact scan_fault?_eq_none {} i atLine _
      | true => exact hthrough rfl
    obtain ⟨hfault, htokens⟩ := scan_embedded h halone' hlength strict i atLine
    rw [hsplit] at hnone ⊢
    refine ⟨hnone, ?_⟩
    rw [htokens (hfault.symm.trans hnone), List.head?_cons]
  · have hunclosed : embeddedLength o c 0 0 (s ++ []) = s.length := by
      rw [List.append_nil]
      refine embeddedLength_unclosed hne fun t ht hprefix => ?_
      obtain ⟨b, hb, rfl⟩ := ht.exists_balanced
      exact hopen b hb hprefix
    obtain ⟨hfault, htokens⟩ := scan_embedded h (r := []) (by rwa [List.append_nil]) hunclosed
      strict i atLine
    rw [List.append_nil, scanBehind, scan_nil] at hfault htokens
    exact ⟨hfault, htokens rfl⟩

/-- Parentheses in balanced text, with a line end, a `#` and another bracket in front. -/
theorem sampleBalanced : Balanced '(' ')' "a\n#[(b)".toList :=
  .other (by decide) (by decide) <| .other (by decide) (by decide) <|
    .other (by decide) (by decide) <| .other (by decide) (by decide) <|
      .pair (.other (by decide) (by decide) .nil) .nil

/-- Every beginning of `a (b) c` has as many opening as closing parentheses, or more. -/
theorem sampleUnclosed (b : Text) (hb : Balanced '(' ')' b) :
    ¬ b ++ [')'] <+: "a (b) c".toList := by
  intro hprefix
  have hle := hprefix.length_le
  have hcounts : ∀ n ≤ "a (b) c".toList.length,
      ("a (b) c".toList.take n).count ')' ≤ ("a (b) c".toList.take n).count '(' := by decide
  have hcount := hcounts _ hle
  rw [← List.prefix_iff_eq_take.mp hprefix, List.count_append, List.count_append,
    hb.count_eq (by decide)] at hcount
  exact absurd hcount (by simp)

/-- The first comment ends with its second closing parenthesis, the other one takes all of the text
since there is no second one. -/
theorem sample_comment_nests :
    ((scan {} false 3 false "#`(a\n#[(b)) c".toList).fault? = none ∧
      (scan {} false 3 false "#`(a\n#[(b)) c".toList).tokens.head? =
        some (Leaf.found .comment 3 "#`(a\n#[(b))".toList none)) ∧
    ((scan {} true 3 false "#`(a (b) c".toList).fault? = none ∧
      (scan {} true 3 false "#`(a (b) c".toList).tokens =
        [Leaf.found .comment 3 "#`(a (b) c".toList none]) := by
  have hbrackets : ('(', ')') ∈ commentBrackets := by decide
  exact ⟨(embedded_comment_nests hbrackets 3 false false).1 "a\n#[(b)".toList " c".toList
      sampleBalanced (by decide) (by decide),
    (embedded_comment_nests hbrackets 3 false true).2 "a (b) c".toList (by decide) sampleUnclosed⟩

end RakuTree.Layout
