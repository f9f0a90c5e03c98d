import RakuTree.Proofs.Complete.Spacing
import RakuTree.Proofs.HereDocs

/-!
# RakuTree.Proofs.HereDocs.Lines

Bodies of here-docs by lines.

The body of a here-doc is found by going through the source character by character and trying
the terminator wherever a line begins. Here it is compared with what one would say of it: cut
the source behind the line of the quote into lines, and take them up to the first one that is
the terminator but for blanks around it.

A line that holds the terminator is a stretch of blanks, the terminator, and a stretch of blanks
(`Padded`). The two descriptions of such a line are reconciled first, for one line, and the
search is then an induction over the lines of a text (`findLine?_intercalate`).
-/

namespace RakuTree

/-! ### Lines -/

namespace Text

variable {s t line rest : Text}

/-- The text `s` without spaces and tabs at either end. -/
def trimBlanks (s : Text) : Text := ((s.dropWhile isBlank).reverse.dropWhile isBlank).reverse

/-- Whole `lines` in a row, each with its newline. -/
def unlines (lines : List Text) : Text := lines.flatMap (· ++ ['\n'])

/-- The line at `start` is the next one behind offset `i`: the newline in front of it is the
first one that stands at `i` or later. -/
def NextLine (src : Text) (i : Int) (start : Nat) : Prop :=
  ∃ n : Nat, start = n + 1 ∧ i ≤ n ∧ src[n]? = some '\n' ∧
    ∀ k : Nat, i ≤ k → k < n → src[k]? ≠ some '\n'

/-- A line is `t` with blanks around it. -/
def Padded (t line : Text) : Prop :=
  ∃ a b : Text, (∀ c ∈ a, isBlank c = true) ∧ (∀ c ∈ b, isBlank c = true) ∧ line = a ++ (t ++ b)

/-- Behind offset `i` stand the lines `before`, from `start` on, and then the first line that is
the terminator but for blanks around it. -/
structure Terminated (src : Text) (i : Int) (terminator : Text) (start : Nat)
    (before : List Text) (line : Text) : Prop where
  /-- The first of these lines is the next one behind `i`. -/
  next : NextLine src i start
  /-- The lines `before` and the `line` behind them stand in the source one after the other. -/
  split : ∃ after, (src.drop start).splitOn '\n' = before ++ line :: after
  /-- Without the blanks around it, `line` is the terminator. -/
  closed : trimBlanks line = terminator
  /-- None of the lines `before` is the terminator but for blanks. -/
  first : ∀ l ∈ before, trimBlanks l ≠ terminator

/-- The text is over, or the line is: `rest` is empty or begins with a newline. -/
def AtLineEnd (rest : Text) : Prop := rest = [] ∨ ∃ tail, rest = '\n' :: tail

theorem isSpace_of_isBlank {c : Char} (h : isBlank c = true) : isSpace c = true := by
  rw [isBlank, Bool.or_eq_true, beq_iff_eq, beq_iff_eq] at h
  rcases h with rfl | rfl
  · decide
  · decide

/-- What `trim` leaves alone has firm ends. -/
theorem firm_of_trim_eq (h : trim s = s) : s.Firm := by
  have hleft : trimLeft s = s := by
    have hinside : trim s <+: trimLeft s := trimRight_prefix _
    refine (List.dropWhile_suffix isSpace).eq_of_length (Nat.le_antisymm ?_ ?_)
    · exact (List.dropWhile_suffix isSpace).length_le
    · calc s.length = (trim s).length := by rw [h]
        _ ≤ (trimLeft s).length := hinside.length_le
  have hright : s.reverse.dropWhile isSpace = s.reverse := by
    rw [trim, hleft, trimRight] at h
    rw [← List.reverse_inj, h, List.reverse_reverse]
  -- a text that does not begin with what is dropped, forwards and backwards
  have hfirst : ∀ {u : Text}, u.dropWhile isSpace = u → ∀ c ∈ u.head?, isSpace c = false := by
    intro u hu c hc
    cases u with
    | nil => cases hc
    | cons d u =>
        obtain rfl := Option.some.inj hc
        by_contra hspace
        rw [Bool.not_eq_false] at hspace
        rw [List.dropWhile_cons_of_pos hspace] at hu
        have hlength := (List.dropWhile_suffix (l := u) isSpace).length_le
        rw [hu, List.length_cons] at hlength
        omega
  exact ⟨hfirst hleft, by simpa using hfirst hright⟩

/-- A text with firm ends does not begin with a blank, so `takeWhile isBlank` takes nothing of it.
-/
theorem Firm.takeWhile_isBlank (h : t.Firm) (hne : t ≠ []) (s : Text) :
    (t ++ s).takeWhile isBlank = [] ∧ (t ++ s).dropWhile isBlank = t ++ s := by
  cases t with
  | nil => exact absurd rfl hne
  | cons c t =>
      have hc : isBlank c ≠ true := by
        intro hblank
        have hspace := isSpace_of_isBlank hblank
        rw [h.head c rfl] at hspace
        cases hspace
      exact ⟨List.takeWhile_cons_of_neg hc, List.dropWhile_cons_of_neg hc⟩

theorem Firm.reverse (h : t.Firm) : Firm t.reverse :=
  ⟨by simpa using h.last, by simpa using h.head⟩

/-- A line is `t` without its blanks exactly if it is `t` with blanks put around it. -/
theorem trimBlanks_eq_iff (ht : t.Firm) (hne : t ≠ []) : trimBlanks line = t ↔ Padded t line := by
  constructor
  · intro h
    have hfront := List.takeWhile_append_dropWhile (p := isBlank) (l := line)
    have hback := List.takeWhile_append_dropWhile (p := isBlank)
      (l := (line.dropWhile isBlank).reverse)
    have hall : ∀ u : Text, ∀ c ∈ u.takeWhile isBlank, isBlank c = true := fun u c hc =>
      List.all_eq_true.mp List.all_takeWhile c hc
    refine ⟨line.takeWhile isBlank,
      ((line.dropWhile isBlank).reverse.takeWhile isBlank).reverse, hall line, ?_, ?_⟩
    · intro c hc
      exact hall _ c (List.mem_reverse.mp hc)
    · have hinside : line.dropWhile isBlank =
          t ++ ((line.dropWhile isBlank).reverse.takeWhile isBlank).reverse := by
        rw [← h, trimBlanks, ← List.reverse_append, hback, List.reverse_reverse]
      rw [← hinside, hfront]
  · rintro ⟨a, b, ha, hb, rfl⟩
    rw [trimBlanks, List.dropWhile_append_of_pos ha, (ht.takeWhile_isBlank hne b).2,
      List.reverse_append, List.dropWhile_append_of_pos (by simpa using hb)]
    have hback := (ht.reverse.takeWhile_isBlank (by simpa using hne) []).2
    rw [List.append_nil] at hback
    rw [hback, List.reverse_reverse]

/-- Blanks end with the line: there are none at the beginning of `rest`. -/
theorem AtLineEnd.takeWhile_isBlank (h : AtLineEnd rest) :
    rest.takeWhile isBlank = [] ∧ rest.dropWhile isBlank = rest := by
  rcases h with rfl | ⟨tail, rfl⟩
  · exact ⟨rfl, rfl⟩
  · exact ⟨rfl, rfl⟩

/-- A text is cut at the end of its first line in one way only, into `line` and `rest`. -/
theorem AtLineEnd.append_inj {line' rest' : Text} (h : AtLineEnd rest) (h' : AtLineEnd rest')
    (hline : '\n' ∉ line) (hline' : '\n' ∉ line') (heq : line ++ rest = line' ++ rest') :
    line = line' ∧ rest = rest' := by
  have hcut : ∀ {u v : Text}, AtLineEnd v → '\n' ∉ u → (u ++ v).takeWhile (· != '\n') = u := by
    intro u v hv hu
    rw [List.takeWhile_append_of_pos]
    · rcases hv with rfl | ⟨tail, rfl⟩
      · exact List.append_nil u
      · exact List.append_nil u
    · intro c hc
      simpa using fun hnewline : c = '\n' => hu (hnewline ▸ hc)
  have hfirst : line = line' := by
    rw [← hcut h hline, heq, hcut h' hline']
  subst hfirst
  exact ⟨rfl, List.append_cancel_left heq⟩

/-- No line of `s.splitOn '\n'` has a newline in it. -/
theorem newline_notMem_of_mem_splitOn (h : line ∈ s.splitOn '\n') : '\n' ∉ line := by
  rw [List.splitOn_eq_splitOnP] at h
  induction s generalizing line with
  | nil =>
      rw [List.splitOnP_nil, List.mem_singleton] at h
      rw [h]
      exact List.not_mem_nil
  | cons c s ih =>
      rw [List.splitOnP_cons_eq_if_modifyHead] at h
      split at h
      · rcases List.mem_cons.mp h with rfl | h
        · exact List.not_mem_nil
        · exact ih h
      · rename_i hc
        obtain ⟨first, others, hsplit⟩ := List.exists_cons_of_ne_nil
          (List.splitOnP_ne_nil (· == '\n') s)
        rw [hsplit] at h ih
        rcases List.mem_cons.mp h with rfl | h
        · rw [List.mem_cons, not_or]
          refine ⟨fun hnewline => hc ?_, ih List.mem_cons_self⟩
          rw [← hnewline]
          rfl
        · exact ih (List.mem_cons_of_mem _ h)

/-- Lines in a row, up to `line`, begin with `unlines before`. -/
theorem intercalate_eq_unlines (before after : List Text) (line : Text) :
    ∃ rest, ['\n'].intercalate (before ++ line :: after) = unlines before ++ (line ++ rest) := by
  induction before with
  | nil =>
      cases after with
      | nil => exact ⟨[], by simp [unlines]⟩
      | cons l after =>
          refine ⟨['\n'] ++ ['\n'].intercalate (l :: after), ?_⟩
          rw [List.nil_append, List.intercalate_cons_cons, List.append_assoc]
          rfl
  | cons l before ih =>
      obtain ⟨rest, hrest⟩ := ih
      refine ⟨rest, ?_⟩
      have hcons : before ++ line :: after ≠ [] := by simp
      obtain ⟨k, ks, hks⟩ := List.exists_cons_of_ne_nil hcons
      rw [List.cons_append, hks, List.intercalate_cons_cons, ← hks, hrest]
      simp [unlines]

theorem exists_terminated {src terminator : Text} {i : Int} {start : Nat}
    (hnext : NextLine src i start)
    (h : ((src.drop start).splitOn '\n').find? (fun l => trimBlanks l = terminator) = some line) :
    ∃ before, Terminated src i terminator start before line := by
  obtain ⟨hline, before, after, hlines, hbefore⟩ := List.find?_eq_some_iff_append.mp h
  exact ⟨before, hnext, ⟨after, hlines⟩, by simpa using hline, by simpa using hbefore⟩

/-- The lines up to the terminator stand in the source at `start`. -/
theorem Terminated.standsAt {src terminator : Text} {i : Int} {start : Nat} {before : List Text}
    (h : Terminated src i terminator start before line) :
    StandsAt src start (unlines before ++ line) := by
  obtain ⟨after, hlines⟩ := h.split
  obtain ⟨rest, hrest⟩ := intercalate_eq_unlines before after line
  rw [← hlines, List.intercalate_splitOn] at hrest
  exact ⟨rest, by rw [hrest, List.append_assoc]⟩

/-- Where the next line begins is found by looking for a newline from `i` on. -/
theorem nextLine_iff {src : Text} {i : Int} (hi : 0 ≤ i) {start : Nat} :
    NextLine src i start ↔ ∃ n, find? src ['\n'] i src.length = some n ∧ start = n + 1 := by
  obtain ⟨lo, rfl⟩ := Int.eq_ofNat_of_zero_le hi
  have hfirst : ∀ u : Text, first? ['\n'] u = u.findIdx? (· == '\n') := by
    intro u
    induction u with
    | nil => rfl
    | cons c u ih =>
        have hhead : ['\n'].isPrefixOf (c :: u) = (c == '\n') := by
          rw [List.isPrefixOf, BEq.comm, List.isPrefixOf, Bool.and_true]
        rw [first?, List.findIdx?_cons, ih, hhead]
  have hfind : ∀ n, find? src ['\n'] lo src.length = some n ↔
      ∃ k, (src.drop lo).findIdx? (· == '\n') = some k ∧ lo + k = n := by
    intro n
    simp only [find?, place_natCast, Nat.min_self, List.take_length]
    by_cases hlo : lo ≤ src.length
    · rw [if_pos hlo, hfirst, Option.map_eq_some_iff]
    · rw [if_neg hlo, List.drop_eq_nil_of_le (by omega)]
      simp
  simp only [hfind, List.findIdx?_eq_some_iff_getElem, NextLine]
  constructor
  · rintro ⟨n, rfl, hle, hn, hbefore⟩
    obtain ⟨k, rfl⟩ := Nat.exists_eq_add_of_le (Int.ofNat_le.mp hle)
    obtain ⟨hlt, hget⟩ := List.getElem?_eq_some_iff.mp hn
    refine ⟨lo + k, ⟨k, ⟨by rw [List.length_drop]; omega, ?_, ?_⟩, rfl⟩, rfl⟩
    · rw [List.getElem_drop, hget]
      rfl
    · intro j hj hnewline
      rw [List.getElem_drop, beq_iff_eq] at hnewline
      exact hbefore (lo + j) (by omega) (by omega)
        (List.getElem?_eq_some_iff.mpr ⟨by omega, hnewline⟩)
  · rintro ⟨n, ⟨k, ⟨hlt, hget, hbefore⟩, rfl⟩, rfl⟩
    rw [List.length_drop] at hlt
    rw [List.getElem_drop, beq_iff_eq] at hget
    refine ⟨lo + k, rfl, by omega, List.getElem?_eq_some_iff.mpr ⟨by omega, hget⟩, ?_⟩
    intro j hj hlt' hnewline
    obtain ⟨m, rfl⟩ := Nat.exists_eq_add_of_le (Int.ofNat_le.mp hj)
    obtain ⟨_, hget'⟩ := List.getElem?_eq_some_iff.mp hnewline
    refine hbefore m (by omega) ?_
    rw [List.getElem_drop, beq_iff_eq]
    exact hget'

end Text

/-! ### Searching for the terminator -/

namespace HereDocBody

open Text

variable {terminator text line rest : Text}

/-- What `terminatorLine?` takes for a terminator line: blanks, the terminator and blanks, up to the
end of a line. -/
theorem terminatorLine?_eq_some_iff (ht : terminator.Firm) (hne : terminator ≠ []) {n : Nat} :
    terminatorLine? terminator text = some n ↔
      ∃ a b rest : Text, (∀ c ∈ a, isBlank c = true) ∧ (∀ c ∈ b, isBlank c = true) ∧
        AtLineEnd rest ∧ text = a ++ (terminator ++ (b ++ rest)) ∧
        n = a.length + terminator.length + b.length := by
  have hall : ∀ u : Text, ∀ c ∈ u.takeWhile isBlank, isBlank c = true := fun u c hc =>
    List.all_eq_true.mp List.all_takeWhile c hc
  have hcut : ∀ u : Text, u.takeWhile isBlank ++ u.drop (u.takeWhile isBlank).length = u := by
    intro u
    obtain ⟨w, hw⟩ := List.takeWhile_prefix (l := u) isBlank
    generalize u.takeWhile isBlank = v at hw ⊢
    rw [← hw, List.drop_left]
  constructor
  · intro h
    simp only [terminatorLine?] at h
    split at h
    · rename_i hprefix
      obtain ⟨tail, htail⟩ := List.isPrefixOf_iff_prefix.mp hprefix
      rw [← htail, List.drop_left] at h
      have htext : text = text.takeWhile isBlank ++ (terminator ++ (tail.takeWhile isBlank ++
          tail.drop (tail.takeWhile isBlank).length)) := by
        rw [hcut tail, htail, hcut text]
      split at h
      · rename_i hnil
        exact ⟨_, _, _, hall text, hall tail, .inl hnil, htext, (Option.some.inj h).symm⟩
      · rename_i c behind hcons
        split at h
        · rename_i hnewline
          rw [beq_iff_eq] at hnewline
          subst hnewline
          exact ⟨_, _, _, hall text, hall tail, .inr ⟨_, hcons⟩, htext, (Option.some.inj h).symm⟩
        · cases h
    · cases h
  · rintro ⟨a, b, rest, ha, hb, hrest, rfl, rfl⟩
    have hindent : (a ++ (terminator ++ (b ++ rest))).takeWhile isBlank = a := by
      rw [List.takeWhile_append_of_pos ha, (ht.takeWhile_isBlank hne _).1, List.append_nil]
    have htrailing : (b ++ rest).takeWhile isBlank = b := by
      rw [List.takeWhile_append_of_pos hb, hrest.takeWhile_isBlank.1, List.append_nil]
    have hprefix : terminator.isPrefixOf (terminator ++ (b ++ rest)) = true :=
      List.isPrefixOf_iff_prefix.mpr (List.prefix_append _ _)
    simp only [terminatorLine?, hindent, List.drop_left, hprefix, if_true, htrailing]
    rcases hrest with rfl | ⟨tail, rfl⟩
    · rfl
    · rfl

section Terminator

variable (ht : terminator.Firm) (hne : terminator ≠ []) (hnewline : '\n' ∉ terminator)

include ht hne hnewline

/-- The first line of a text is tried as a whole: `terminatorLine?` accepts it if it is the
terminator but for blanks. -/
theorem terminatorLine?_append (hline : '\n' ∉ line) (hrest : AtLineEnd rest) :
    terminatorLine? terminator (line ++ rest) =
      if trimBlanks line = terminator then some line.length else none := by
  split
  · rename_i htrim
    obtain ⟨a, b, ha, hb, rfl⟩ := (trimBlanks_eq_iff ht hne).mp htrim
    refine (terminatorLine?_eq_some_iff ht hne).mpr ⟨a, b, rest, ha, hb, hrest, ?_, ?_⟩
    · simp only [List.append_assoc]
    · simp only [List.length_append]
      omega
  · rename_i htrim
    rw [Option.eq_none_iff_forall_ne_some]
    intro n hn
    obtain ⟨a, b, rest', ha, hb, hrest', heq, -⟩ := (terminatorLine?_eq_some_iff ht hne).mp hn
    refine htrim ((trimBlanks_eq_iff ht hne).mpr ⟨a, b, ha, hb, ?_⟩)
    have hblank : ∀ {u : Text}, (∀ c ∈ u, isBlank c = true) → '\n' ∉ u := by
      intro u hu hmem
      exact absurd (hu _ hmem) (by decide)
    refine (hrest.append_inj hrest' hline ?_ ?_).1
    · rw [List.mem_append, List.mem_append]
      exact not_or.mpr ⟨hblank ha, not_or.mpr ⟨hnewline, hblank hb⟩⟩
    · rw [heq]
      simp only [List.append_assoc]

omit ht hne hnewline in
/-- Inside a line, `findLine?` goes on to the next one. -/
theorem findLine?_inside (hline : '\n' ∉ line) :
    findLine? terminator false line = none ∧
      ∀ rest, findLine? terminator false (line ++ '\n' :: rest) =
        (findLine? terminator true rest).map
          fun found => (found.1 + (line.length + 1), found.2) := by
  induction line with
  | nil => exact ⟨rfl, fun rest => rfl⟩
  | cons c line ih =>
      rw [List.mem_cons, not_or] at hline
      obtain ⟨hnone, hsome⟩ := ih hline.2
      have hc : (c == '\n') = false := beq_false_of_ne fun h => hline.1 h.symm
      constructor
      · simp [findLine?, hc, hnone]
      · intro rest
        simp [findLine?, hc, hsome, Function.comp_def, Nat.add_assoc]

omit ht hnewline in
/-- Where a line begins, `findLine?` tries the terminator before it goes on. -/
theorem findLine?_atLine (text : Text) :
    findLine? terminator true text =
      ((terminatorLine? terminator text).map (Prod.mk 0)).or (findLine? terminator false text) := by
  cases text with
  | nil =>
      cases terminator with
      | nil => exact absurd rfl hne
      | cons c t => rfl
  | cons c text =>
      rw [findLine?, findLine?]
      cases terminatorLine? terminator (c :: text) with
      | none => rfl
      | some n => rfl

/-- Of some `lines` in a row, `findLine?` finds the first one that is the terminator but for blanks
around it. -/
theorem findLine?_intercalate {lines : List Text} (hlines : ∀ l ∈ lines, '\n' ∉ l)
    (hcons : lines ≠ []) :
    findLine? terminator true (['\n'].intercalate lines) =
      (lines.find? fun l => trimBlanks l = terminator).map fun line =>
        ((unlines (lines.takeWhile fun l => trimBlanks l ≠ terminator)).length, line.length) := by
  induction lines with
  | nil => exact absurd rfl hcons
  | cons l lines ih =>
      obtain ⟨hl, hrest⟩ := List.forall_mem_cons.mp hlines
      cases lines with
      | nil =>
          have hline := terminatorLine?_append ht hne hnewline hl (.inl rfl)
          rw [List.append_nil] at hline
          rw [List.intercalate_singleton, findLine?_atLine hne, hline,
            (findLine?_inside hl).1]
          by_cases htrim : trimBlanks l = terminator
          · simp [htrim, unlines]
          · simp [htrim]
      | cons m lines =>
          have hline := terminatorLine?_append ht hne hnewline hl
            (.inr ⟨['\n'].intercalate (m :: lines), rfl⟩)
          rw [List.intercalate_cons_cons, List.append_assoc, List.singleton_append,
            findLine?_atLine hne, hline, (findLine?_inside hl).2 _,
            ih hrest (List.cons_ne_nil _ _)]
          by_cases htrim : trimBlanks l = terminator
          · simp [htrim, unlines]
          · have hfind : (l :: m :: lines).find? (fun l => trimBlanks l = terminator) =
                (m :: lines).find? fun l => trimBlanks l = terminator :=
              List.find?_cons_of_neg (by simpa using htrim)
            have htake : (l :: m :: lines).takeWhile (fun l => trimBlanks l ≠ terminator) =
                l :: (m :: lines).takeWhile fun l => trimBlanks l ≠ terminator :=
              List.takeWhile_cons_of_pos (by simpa using htrim)
            rw [if_neg htrim, hfind, htake, Option.map_none, Option.none_or, Option.map_map]
            refine congrArg (Option.map · _) (funext fun line => ?_)
            simp only [Function.comp_apply, unlines, List.flatMap_cons, List.length_append,
              List.length_singleton, Prod.mk.injEq, and_true]
            omega

/-- Where lines are `Terminated`, `locate` finds the body that they make up. -/
theorem locate_eq_ok {src : Text} {i : Int} (hi : 0 ≤ i) {start : Nat} {before : List Text}
    (h : Terminated src i terminator start before line) :
    locate src i terminator = .ok ⟨start, start + (unlines before).length,
      start + (unlines before).length + line.length⟩ := by
  obtain ⟨hstart, ⟨after, hlines⟩, hline, hbefore⟩ := h
  obtain ⟨n, hfind, rfl⟩ := (nextLine_iff hi).mp hstart
  have hsearch := findLine?_intercalate ht hne hnewline
    (fun _ => newline_notMem_of_mem_splitOn (s := src.drop (n + 1)))
    (List.splitOn_ne_nil '\n' (src.drop (n + 1)))
  have hfirst : (before ++ line :: after).find? (fun l => trimBlanks l = terminator) =
      some line := by
    refine List.find?_eq_some_iff_append.mpr ⟨by simpa using hline, before, after, rfl, ?_⟩
    simpa using hbefore
  have htake : (before ++ line :: after).takeWhile (fun l => trimBlanks l ≠ terminator) =
      before := by
    rw [List.takeWhile_append_of_pos (by simpa using hbefore),
      List.takeWhile_cons_of_neg (by simpa using hline), List.append_nil]
  rw [List.intercalate_splitOn, hlines, hfirst, htake, Option.map_some] at hsearch
  have hterminator : ¬ terminator.isEmpty = true := by simpa using hne
  simp only [locate, if_neg hterminator, hfind, hsearch]

omit hne in
/-- Where `locate` finds a body, its lines are `Terminated`. -/
theorem terminated_of_locate {src : Text} {i : Int} (hi : 0 ≤ i) {b : HereDocBody}
    (h : locate src i terminator = .ok b) :
    terminator ≠ [] ∧ ∃ start before line, Terminated src i terminator start before line := by
  simp only [locate] at h
  split at h
  · cases h
  · rename_i hterminator
    have hne : terminator ≠ [] := by simpa using hterminator
    split at h
    · cases h
    · rename_i n hfind
      split at h
      · cases h
      · rename_i k m hsearch
        have hlines := findLine?_intercalate ht hne hnewline
          (fun _ => newline_notMem_of_mem_splitOn (s := src.drop (n + 1)))
          (List.splitOn_ne_nil '\n' (src.drop (n + 1)))
        rw [List.intercalate_splitOn, hsearch, eq_comm, Option.map_eq_some_iff] at hlines
        obtain ⟨line, hline, -⟩ := hlines
        have hnext := (nextLine_iff hi).mpr ⟨n, hfind, rfl⟩
        obtain ⟨before, hterminated⟩ := exists_terminated hnext hline
        exact ⟨hne, n + 1, before, line, hterminated⟩

end Terminator

end HereDocBody

/-! ### Claims -/

theorem Ledger.claim_of_locate_error {src terminator : Text} {l : Ledger} {quoteEnd : Int}
    {e : HereDocError}
    (h : HereDocBody.locate src (max quoteEnd l.tail) terminator = .error e) :
    l.claim src quoteEnd terminator = .error e := by
  rw [claim, h]
  rfl

namespace Plan

open Text

theorem claimHereDoc_ok {f : Frame} {s : BuildState} {terminator body : Text} {ledger : Ledger}
    (h : s.ledger.claim f.src f.self.stop terminator = .ok (body, ledger)) :
    (claimHereDoc f terminator).run s = .ok body { s with ledger } := by
  simp only [claimHereDoc, Build.run_bind, EStateM.run_get, h]
  rfl

theorem claimHereDoc_error {f : Frame} {s : BuildState} {terminator : Text} {e : HereDocError}
    (h : s.ledger.claim f.src f.self.stop terminator = .error e) :
    (claimHereDoc f terminator).run s =
      .error (.refused (f.refusal f.self (some e.note) true))
        { s with log := s.log ++ [.refused (f.refusal f.self (some e.note) true)] } := by
  simp only [claimHereDoc, Build.run_bind, EStateM.run_get, h]
  rfl

section Claimed

variable {f : Frame} {s : BuildState} {terminator body line : Text} (ht : terminator.Firm)
  (hnewline : '\n' ∉ terminator)

include ht hnewline

/-- What `claimHereDoc` comes to where lines are `Terminated`: it returns those before the
terminator, and records the body. -/
theorem claimHereDoc_of_terminated {start : Nat} {before : List Text} (hne : terminator ≠ [])
    (h : Terminated f.src (max f.self.stop s.ledger.tail) terminator start before line) :
    (claimHereDoc f terminator).run s = .ok (unlines before) { s with
      ledger := {
        hereDocs := s.ledger.hereDocs.record start
          ((start + (unlines before).length + line.length : Nat))
        tail := start + (unlines before).length + line.length } } := by
  refine claimHereDoc_ok ?_
  have hslice := (h.standsAt.shorten (List.prefix_append _ _)).slice_eq
  rw [← Int.natCast_add] at hslice
  rw [Ledger.claim, HereDocBody.locate_eq_ok ht hne hnewline (by omega) h]
  simp only [Except.map, HereDocBody.lines, hslice]

/-- Where `claimHereDoc` returns, lines are `Terminated`. -/
theorem terminated_of_claimHereDoc {t : BuildState}
    (h : (claimHereDoc f terminator).run s = .ok body t) :
    terminator ≠ [] ∧ ∃ start before line,
      Terminated f.src (max f.self.stop s.ledger.tail) terminator start before line := by
  cases hlocate : HereDocBody.locate f.src (max f.self.stop s.ledger.tail) terminator with
  | ok b => exact HereDocBody.terminated_of_locate ht hnewline (by omega) hlocate
  | error e =>
      rw [claimHereDoc_error (Ledger.claim_of_locate_error hlocate)] at h
      cases h

end Claimed

/-- **Here-docs by lines.** Let a quote claim the body of a here-doc, with a terminator that has
no whitespace at its ends and no newline. The search is for the first newline that stands neither
before the end of the quote nor before the end of the last body.

* It succeeds exactly when the terminator is not empty, there is such a newline, and one of the
  lines behind it is the terminator but for blanks around it.
* The lines before the first such line are the body. From where they start to where that line
  ends is recorded, and that is the body followed by the line.
* Otherwise the quote is refused as a here-doc, and nothing is recorded. -/
theorem here_doc_found_by_lines (f : Frame) (s : BuildState) {terminator : Text}
    (htrim : trim terminator = terminator) (hnewline : '\n' ∉ terminator) :
    ((∃ body t, (claimHereDoc f terminator).run s = .ok body t) ↔
      terminator ≠ [] ∧ ∃ start, NextLine f.src (max f.self.stop s.ledger.tail) start ∧
        ∃ line ∈ (f.src.drop start).splitOn '\n', trimBlanks line = terminator) ∧
    (∀ body t, (claimHereDoc f terminator).run s = .ok body t →
      ∃ (start stop : Nat) (before : List Text) (line : Text),
        Terminated f.src (max f.self.stop s.ledger.tail) terminator start before line ∧
        body = unlines before ∧ stop = start + body.length + line.length ∧
        slice f.src start stop = body ++ line ∧
        t = { s with
          ledger := { hereDocs := s.ledger.hereDocs.record start stop, tail := stop } }) ∧
    (∀ e t, (claimHereDoc f terminator).run s = .error e t →
      t.ledger = s.ledger ∧ ∃ r, e = .refused r ∧ r.hereDoc = true) := by
  have ht := firm_of_trim_eq htrim
  refine ⟨⟨?_, ?_⟩, ?_, ?_⟩
  · rintro ⟨body, t, hrun⟩
    obtain ⟨hne, start, before, line, h⟩ := terminated_of_claimHereDoc ht hnewline hrun
    obtain ⟨after, hlines⟩ := h.split
    refine ⟨hne, start, h.next, line, ?_, h.closed⟩
    rw [hlines]
    exact List.mem_append_right _ List.mem_cons_self
  · rintro ⟨hne, start, hnext, line, hmem, hline⟩
    have hsome : (((f.src.drop start).splitOn '\n').find?
        fun l => trimBlanks l = terminator).isSome = true :=
      List.find?_isSome.mpr ⟨line, hmem, decide_eq_true hline⟩
    obtain ⟨first, hfirst⟩ := Option.isSome_iff_exists.mp hsome
    obtain ⟨before, h⟩ := exists_terminated hnext hfirst
    exact ⟨_, _, claimHereDoc_of_terminated ht hnewline hne h⟩
  · intro body t hrun
    obtain ⟨hne, start, before, line, h⟩ := terminated_of_claimHereDoc ht hnewline hrun
    rw [claimHereDoc_of_terminated ht hnewline hne h] at hrun
    cases hrun
    refine ⟨start, _, before, line, h, rfl, rfl, ?_, rfl⟩
    have hslice := h.standsAt.slice_eq
    rw [List.length_append, ← Int.natCast_add, ← Nat.add_assoc] at hslice
    exact hslice
  · intro e t hrun
    cases hresult : s.ledger.claim f.src f.self.stop terminator with
    | ok found =>
        rw [claimHereDoc_ok hresult] at hrun
        cases hrun
    | error e' =>
        rw [claimHereDoc_error hresult] at hrun
        cases hrun
        exact ⟨rfl, _, rfl, rfl⟩

/-- A here-doc whose terminator `E` also begins a line of the body, and stands indented and with a
tab behind it before it stands alone. -/
def sampleHereDoc : Frame := ⟨"q:to/E/;\nEE\n E\t\nE\n".toList, .quote, .plain 0 7⟩

theorem sample_found_by_lines :
    (∃ body t, (claimHereDoc sampleHereDoc ['E']).run {} = .ok body t) ∧
    (claimHereDoc sampleHereDoc ['E']).run {} = .ok ['E', 'E', '\n']
      { ledger := { hereDocs := { entries := [(9, 15)] }, tail := 15 } } := by
  obtain ⟨hreturns, -⟩ := here_doc_found_by_lines sampleHereDoc {}
    (show trim ['E'] = ['E'] by decide) (by decide)
  have hnext : NextLine sampleHereDoc.src 7 9 := by
    refine ⟨8, rfl, by decide, by decide, fun k hk hlt => ?_⟩
    obtain rfl : k = 7 := by omega
    decide
  exact ⟨hreturns.mpr ⟨by decide, 9, hnext, [' ', 'E', '\t'], by decide, by decide⟩, rfl⟩

end Plan

end RakuTree
