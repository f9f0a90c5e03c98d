import RakuTree.Proofs.Standing

/-!
# RakuTree.Proofs.Keywords

The leftmost word that stands alone.

The search for a keyword goes through a window of the text and carries the character in front
along, since it has to know whether a name goes on there. What it comes to can be said about the
text itself: a word stands alone at an offset (`StandsAlone`) if it stands there, ends in the
window, and no name goes on in front of it or, within the window, behind it. The search tries one
offset after the other (`findFrom?_cases`), and at each of them one word after the other.
-/

namespace RakuTree.Text.Keyword

variable {words : List Text} {s w : Text} {start stop i : Nat}

/-! ### Words that stand alone -/

/-- Does a character that goes on with a name stand at offset `i`? -/
def nameCharAt (s : Text) (i : Nat) : Bool := s[i]?.any isNameChar

/-- A word stands alone at offset `i` of a text, for a search that ends at `stop`. -/
structure StandsAlone (s : Text) (stop i : Nat) (w : Text) : Prop where
  /-- The word `w` stands at `i`. -/
  stands : StandsAt s i w
  /-- The word `w` does not end behind `stop`, where the search does. -/
  fits : i + w.length ≤ stop
  /-- No name goes on in front of it (`nameCharAt`). -/
  opens : 0 < i → nameCharAt s (i - 1) = false
  /-- No name goes on behind it, as far as the search can see: up to `stop`. -/
  closes : i + w.length < stop → nameCharAt s (i + w.length) = false

instance (s : Text) (stop i : Nat) (w : Text) : Decidable (StandsAlone s stop i w) :=
  decidable_of_iff (StandsAt s i w ∧ i + w.length ≤ stop ∧ (0 < i → nameCharAt s (i - 1) = false) ∧
      (i + w.length < stop → nameCharAt s (i + w.length) = false))
    ⟨fun h => ⟨h.1, h.2.1, h.2.2.1, h.2.2.2⟩, fun h => ⟨h.1, h.2, h.3, h.4⟩⟩

/-- `w` is the first of `words` that stands alone at offset `i`. -/
def FirstAlone (words : List Text) (s : Text) (stop i : Nat) (w : Text) : Prop :=
  ∃ front back, words = front ++ w :: back ∧ StandsAlone s stop i w ∧
    ∀ v ∈ front, ¬StandsAlone s stop i v

theorem FirstAlone.mem (h : FirstAlone words s stop i w) : w ∈ words := by
  obtain ⟨front, back, rfl, -, -⟩ := h
  exact List.mem_append_right _ List.mem_cons_self

theorem FirstAlone.alone (h : FirstAlone words s stop i w) : StandsAlone s stop i w := by
  obtain ⟨_, _, -, halone, -⟩ := h
  exact halone

theorem firstAlone_iff : FirstAlone words s stop i w ↔
    words.find? (fun v => decide (StandsAlone s stop i v)) = some w := by
  rw [List.find?_eq_some_iff_append]
  constructor
  · rintro ⟨front, back, hwords, hw, hfront⟩
    exact ⟨decide_eq_true hw, front, back, hwords, fun v hv => by simpa using hfront v hv⟩
  · rintro ⟨hw, front, back, hwords, hfront⟩
    exact ⟨front, back, hwords, of_decide_eq_true hw, fun v hv => by simpa using hfront v hv⟩

/-- Only one word is `FirstAlone` at an offset. -/
theorem FirstAlone.unique {v : Text} (hw : FirstAlone words s stop i w)
    (hv : FirstAlone words s stop i v) : w = v :=
  Option.some.inj ((firstAlone_iff.mp hw).symm.trans (firstAlone_iff.mp hv))

/-- `i` is the first offset from `start` on at which one of `words` stands alone, and `w` the first
of them that does. -/
structure Leftmost (words : List Text) (s : Text) (start stop i : Nat) (w : Text) : Prop where
  /-- The offset is not in front of `start`, where the search begins. -/
  le : start ≤ i
  /-- The word `w` is the first of `words` there. -/
  first : FirstAlone words s stop i w
  /-- None of `words` stands alone anywhere in front of it. -/
  least : ∀ j, start ≤ j → j < i → ∀ v ∈ words, ¬StandsAlone s stop j v

/-- Only one word is `Leftmost`, and only one offset. -/
theorem Leftmost.unique {j : Nat} {v : Text} (hw : Leftmost words s start stop i w)
    (hv : Leftmost words s start stop j v) : i = j ∧ w = v := by
  have hfirst : ∀ {i j : Nat} {w v : Text}, Leftmost words s start stop i w →
      Leftmost words s start stop j v → ¬i < j := by
    intro i j w v hw hv hlt
    exact hv.least i hw.le hlt w hw.first.mem hw.first.alone
  obtain rfl : i = j :=
    Nat.le_antisymm (Nat.le_of_not_lt (hfirst hv hw)) (Nat.le_of_not_lt (hfirst hw hv))
  exact ⟨rfl, hw.first.unique hv.first⟩

/-! ### One offset -/

/-- The character in front of offset `i`, if there is one. -/
def charBefore (s : Text) (i : Nat) : Option Char := if i = 0 then none else s[i - 1]?

/-- The word that the search finds at offset `i`. -/
def aloneAt? (words : List Text) (s : Text) (stop i : Nat) : Option Text :=
  if opensAfter (charBefore s i) then wordAt? words ((s.take stop).drop i) else none

theorem opensAfter_charBefore (s : Text) (i : Nat) :
    opensAfter (charBefore s i) = true ↔ (0 < i → nameCharAt s (i - 1) = false) := by
  rw [charBefore, nameCharAt]
  cases i <;> simp [opensAfter]

theorem closesBefore_take (s : Text) (stop i : Nat) :
    closesBefore ((s.take stop).drop i) = true ↔ (i < stop → nameCharAt s i = false) := by
  rw [closesBefore, List.head?_drop, List.getElem?_take, nameCharAt]
  by_cases hi : i < stop <;> simp [hi]

/-- The word `w` stands alone at `i` exactly if the search finds what it asks for in front of it, at
it and behind it. -/
theorem standsAlone_iff (hi : i ≤ stop) :
    StandsAlone s stop i w ↔ opensAfter (charBefore s i) = true ∧
      (w.isPrefixOf ((s.take stop).drop i) &&
        closesBefore (((s.take stop).drop i).drop w.length)) = true := by
  have hstands : w.isPrefixOf ((s.take stop).drop i) = true ↔
      StandsAt s i w ∧ i + w.length ≤ stop := by
    rw [List.isPrefixOf_iff_prefix, List.drop_take, List.prefix_take_iff, StandsAt]
    exact and_congr_right fun _ => by omega
  rw [Bool.and_eq_true, hstands, List.drop_drop, closesBefore_take, opensAfter_charBefore]
  constructor
  · rintro ⟨hword, hfits, hopens, hcloses⟩
    exact ⟨hopens, ⟨hword, hfits⟩, hcloses⟩
  · rintro ⟨hopens, ⟨hword, hfits⟩, hcloses⟩
    exact ⟨hword, hfits, hopens, hcloses⟩

theorem aloneAt?_eq_some (hi : i ≤ stop) (h : aloneAt? words s stop i = some w) :
    FirstAlone words s stop i w := by
  rw [aloneAt?] at h
  split at h
  · rename_i hopens
    obtain ⟨hw, front, back, hwords, hfront⟩ := List.find?_eq_some_iff_append.mp h
    refine ⟨front, back, hwords, (standsAlone_iff hi).mpr ⟨hopens, hw⟩, fun v hv halone => ?_⟩
    have hnot := hfront v hv
    rw [((standsAlone_iff hi).mp halone).2] at hnot
    cases hnot
  · cases h

theorem aloneAt?_eq_none (hi : i ≤ stop) (h : aloneAt? words s stop i = none) :
    ∀ v ∈ words, ¬StandsAlone s stop i v := by
  intro v hv halone
  obtain ⟨hopens, hword⟩ := (standsAlone_iff hi).mp halone
  rw [aloneAt?, if_pos hopens] at h
  exact List.find?_eq_none.mp h v hv hword

/-! ### All offsets -/

/-- The search from offset `start` on. -/
def findFrom? (words : List Text) (s : Text) (stop start : Nat) : Option (Nat × Text) :=
  (search? words (charBefore s start) ((s.take stop).drop start)).map
    fun found => (start + found.1, found.2)

/-- If a word stands alone at `start`, the search ends there. -/
theorem findFrom?_of_some (h : aloneAt? words s stop start = some w) :
    findFrom? words s stop start = some (start, w) := by
  rw [aloneAt?] at h
  rw [findFrom?]
  cases hrest : (s.take stop).drop start with
  | nil =>
      rw [hrest] at h
      split at h
      · rename_i hopens
        rw [search?, if_pos hopens, h]
        rfl
      · cases h
  | cons c cs =>
      rw [hrest] at h
      rw [search?, h]
      rfl

/-- If no word stands alone at `start`, the search goes on to the next offset. -/
theorem findFrom?_of_none (hstop : stop ≤ s.length) (hstart : start < stop)
    (h : aloneAt? words s stop start = none) :
    findFrom? words s stop start = findFrom? words s stop (start + 1) := by
  have hlength : start < (s.take stop).length := by
    rw [List.length_take]
    omega
  have hrest := List.drop_eq_getElem_cons hlength
  have hbefore : charBefore s (start + 1) = some (s.take stop)[start] := by
    rw [charBefore, if_neg (Nat.succ_ne_zero start), Nat.add_sub_cancel, List.getElem_take,
      List.getElem?_eq_getElem]
  rw [aloneAt?, hrest] at h
  rw [findFrom?, hrest, search?, h, findFrom?, hbefore]
  simp only [Option.map_map]
  congr 1
  funext found
  simp only [Function.comp]
  rw [Nat.add_right_comm, Nat.add_assoc]

/-- At `stop`, if no word stands alone there, nothing is left to try. -/
theorem findFrom?_of_end (h : aloneAt? words s stop stop = none) :
    findFrom? words s stop stop = none := by
  have hrest : (s.take stop).drop stop = [] := List.drop_eq_nil_of_le (List.length_take_le _ _)
  rw [aloneAt?, hrest] at h
  rw [findFrom?, hrest, search?]
  split
  · rename_i hopens
    rw [if_pos hopens] at h
    rw [h]
    rfl
  · rfl

/-- What the search comes to: the `Leftmost` word, or none at all. -/
theorem findFrom?_cases (hstop : stop ≤ s.length) (hstart : start ≤ stop) :
    (∃ i w, findFrom? words s stop start = some (i, w) ∧ Leftmost words s start stop i w) ∨
    (findFrom? words s stop start = none ∧
      ∀ j, start ≤ j → ∀ v ∈ words, ¬StandsAlone s stop j v) := by
  induction hn : stop - start using Nat.strongRecOn generalizing start with
  | _ n ih =>
      cases h : aloneAt? words s stop start with
      | some w =>
          refine .inl ⟨start, w, findFrom?_of_some h, Nat.le_refl _, aloneAt?_eq_some hstart h, ?_⟩
          intro j hj hlt
          omega
      | none =>
          have hhere := aloneAt?_eq_none hstart h
          rcases Nat.eq_or_lt_of_le hstart with rfl | hlt
          · refine .inr ⟨findFrom?_of_end h, fun j hj v hv halone => ?_⟩
            -- no word fits in behind the end
            obtain rfl : j = start := by
              have hfits := halone.fits
              omega
            exact hhere v hv halone
          · have hnext : ∀ {j}, start ≤ j →
                (start + 1 ≤ j → ∀ v ∈ words, ¬StandsAlone s stop j v) →
                ∀ v ∈ words, ¬StandsAlone s stop j v := by
              intro j hj hbehind
              rcases Nat.eq_or_lt_of_le hj with rfl | hj
              · exact hhere
              · exact hbehind hj
            rw [findFrom?_of_none hstop hlt h]
            rcases ih (stop - (start + 1)) (by omega) hlt rfl with
              ⟨i, w, hfound, hleft⟩ | ⟨hfound, hnone⟩
            · have hleast : ∀ j, start ≤ j → j < i → ∀ v ∈ words, ¬StandsAlone s stop j v :=
                fun j hj hlt => hnext hj fun hj => hleft.least j hj hlt
              exact .inl ⟨i, w, hfound, Nat.le_of_succ_le hleft.le, hleft.first, hleast⟩
            · exact .inr ⟨hfound, fun j hj => hnext hj (hnone j)⟩

/-! ### The whole search -/

/-- The place that a bound `i` of the search stands for: a bound outside of the text is moved to its
nearer end. -/
def clamp (s : Text) (i : Int) : Nat := min i.toNat s.length

theorem find?_eq (hne : words ≠ []) (s : Text) (start stop : Int) :
    find? words s start stop = if clamp s start ≤ clamp s stop then
      findFrom? words s (clamp s stop) (clamp s start) else none := by
  have hempty : words.isEmpty = false := by simpa using hne
  simp only [find?, hempty, Bool.false_eq_true, if_false]
  rfl

theorem find?_cases (hne : words ≠ []) (s : Text) (start stop : Int) :
    (∃ i w, find? words s start stop = some (i, w) ∧
      Leftmost words s (clamp s start) (clamp s stop) i w) ∨
    (find? words s start stop = none ∧
      ∀ j, clamp s start ≤ j → ∀ w ∈ words, ¬StandsAlone s (clamp s stop) j w) := by
  rw [find?_eq hne]
  by_cases hle : clamp s start ≤ clamp s stop
  · rw [if_pos hle]
    exact findFrom?_cases (Nat.min_le_right _ _) hle
  · rw [if_neg hle]
    refine .inr ⟨rfl, fun j hj w _ halone => ?_⟩
    have hfits := halone.fits
    omega

/-- **The search finds the leftmost word that stands alone.** It finds a word at an offset exactly
if the offset is the first one, from where the search starts, at which any of the words stands
alone, and the word is the first of those that do. It finds none exactly if there is no such
offset. -/
theorem keyword_search_leftmost (hne : words ≠ []) (s : Text) (start stop : Int) :
    (∀ i w, find? words s start stop = some (i, w) ↔
      Leftmost words s (clamp s start) (clamp s stop) i w) ∧
    (find? words s start stop = none ↔
      ∀ j, clamp s start ≤ j → ∀ w ∈ words, ¬StandsAlone s (clamp s stop) j w) := by
  rcases find?_cases hne s start stop with ⟨i, w, hfound, hleft⟩ | ⟨hfound, hnone⟩
  · rw [hfound]
    refine ⟨fun j v => ⟨fun h => ?_, fun h => ?_⟩, ⟨fun h => ?_, fun h => ?_⟩⟩
    · cases h
      exact hleft
    · obtain ⟨rfl, rfl⟩ := hleft.unique h
      rfl
    · cases h
    · exact absurd hleft.first.alone (h i hleft.le w hleft.first.mem)
  · rw [hfound]
    refine ⟨fun j v => ⟨fun h => ?_, fun h => ?_⟩, ⟨fun _ => hnone, fun _ => rfl⟩⟩
    · cases h
    · exact absurd h.first.alone (hnone j h.le v h.first.mem)

/-- The first `else` is part of a name that begins in front of the search. Behind it stands a
longer name, of which a search that ends early sees `elsif` only. -/
theorem sample_search_leftmost :
    Leftmost ["else".toList, "elsif".toList] "or-else elsifs".toList 3 13 8 "elsif".toList ∧
    ∀ j, 3 ≤ j → ∀ w ∈ ["else".toList, "elsif".toList],
      ¬StandsAlone "or-else elsifs".toList 14 j w :=
  ⟨((keyword_search_leftmost (by decide) "or-else elsifs".toList 3 13).1 8 "elsif".toList).mp
      (by decide +kernel),
    (keyword_search_leftmost (by decide) "or-else elsifs".toList 3 100).2.mp (by decide +kernel)⟩

end RakuTree.Text.Keyword
