import RakuTree.Text.Quoted

/-!
# RakuTree.Match.Basic

Grammar matches: a range of the source, named captures and operands.

A capture is a match, a list of matches, or nothing at all (`Capture.absent`): a
grammar may name an optional part that was not there. Offsets are integers
because nothing is promised about them.

`Match.Inner m` is a match somewhere inside `m`, with the proof that it is there.
Rules only ever descend into inner matches, and those are smaller, which is why
building ends.
-/

namespace RakuTree

mutual

/-- A grammar match: offsets into a source, without the source itself. -/
inductive Match
  /-- The range from `start` to `stop`, with named captures in the order they were
  made and operands in order; `rule` names the grammar rule when the match comes
  from a parse tree. -/
  | node (start stop : Int) (named : List (String × Capture)) (operands : List Match)
      (rule : Option String)

/-- What a match holds under one name of `Match.named`. -/
inductive Capture
  /-- An optional part that was not there. -/
  | absent
  /-- One match. -/
  | one (m : Match)
  /-- A repeated part, with its matches in order; there may be none. -/
  | many (ms : List Match)

end

instance : Inhabited Match := ⟨.node 0 0 [] [] none⟩

namespace Capture

/-- The matches of a capture: none if it is `absent`. -/
def toList : Capture → List Match
  | absent => []
  | one m => [m]
  | many ms => ms

end Capture

namespace Match

/-- Where the match starts. -/
def start : Match → Int
  | node a _ _ _ _ => a

/-- Where the match ends. This need not be behind its `start`. -/
def stop : Match → Int
  | node _ b _ _ _ => b

/-- The named captures in the order the grammar gives them. Where a name stands twice, the first one
counts (`captures`). -/
def named : Match → List (String × Capture)
  | node _ _ h _ _ => h

/-- The operands of an infix expression, which have no names. -/
def operands : Match → List Match
  | node _ _ _ l _ => l

/-- The grammar rule, for a match that comes from a parse tree. -/
def rule : Match → Option String
  | node _ _ _ _ r => r

/-- A match from `start` to `stop` without captures. -/
def plain (start stop : Int) : Match := node start stop [] [] none

/-- The text of a match in `src`, by `Text.slice`. -/
def text (src : Text) (m : Match) : Text := Text.slice src m.start m.stop

/-- Does the match cover anything, that is, does it end behind its `start`? -/
def isWide (m : Match) : Bool := m.start < m.stop

/-- All matches captured under `key`. -/
def captures (m : Match) (key : String) : List Match :=
  ((m.named.lookup key).map Capture.toList).getD []

/-- The first match captured under `key`. -/
def capture? (m : Match) (key : String) : Option Match := (m.captures key).head?

/-- The trimmed text of the first match captured under `key`; empty without one. -/
def textOf (src : Text) (m : Match) (key : String) : Text :=
  ((m.capture? key).map fun c => Text.trim (c.text src)).getD []

/-- How a message shows the match `m` of `src`. -/
def describe (src : Text) (m : Match) : String :=
  let range := toString m.start ++ ".." ++ toString m.stop ++ " " ++ Text.quoted (m.text src)
  match m.rule with
  | some name => "LarkMatch(" ++ name ++ " " ++ range ++ ")"
  | none =>
    let keys := (m.named.map Prod.fst).mergeSort fun a b => a ≤ b
    "MatchNode(" ++ range ++ " \x7b" ++ ",".intercalate keys ++ "\x7d)"

/-! ### Inner matches -/

/-- One match stands inside another: `Inside c m` if `c` is captured somewhere in `m`. -/
inductive Inside : Match → Match → Prop
  /-- A match inside the one that captures it under some `key`. -/
  | capture {m c : Match} {key : String} (h : c ∈ m.captures key) : Inside c m
  /-- A match inside the one that has it among its `operands`. -/
  | operand {m c : Match} (h : c ∈ m.operands) : Inside c m
  /-- Anything inside an inner match: `d` inside `c`, and `c` inside `m`. -/
  | trans {d c m : Match} (hd : Inside d c) (hc : Inside c m) : Inside d m

/-- A match inside `m`. -/
structure Inner (m : Match) where
  /-- The match itself. -/
  val : Match
  /-- The match `val` stands inside `m`. -/
  inside : val.Inside m

/-- A match captured under `key` is smaller than `m`. -/
theorem sizeOf_lt_of_mem_captures {m c : Match} {key : String} (h : c ∈ m.captures key) :
    sizeOf c < sizeOf m := by
  obtain ⟨a, b, named, operands, rule⟩ := m
  simp only [captures, Match.named] at h
  cases hk : named.lookup key with
  | none => simp [hk] at h
  | some v =>
    simp only [hk, Option.map_some, Option.getD_some] at h
    have hmem : (key, v) ∈ named := by
      have := List.lookup_eq_some_iff.1 hk
      obtain ⟨l₁, l₂, rfl, -⟩ := this
      simp
    have h₁ := List.sizeOf_lt_of_mem hmem
    have h₂ : sizeOf c ≤ sizeOf v := by
      cases v with
      | absent => simp [Capture.toList] at h
      | one m =>
        simp only [Capture.toList, List.mem_singleton] at h
        subst h
        simp only [Capture.one.sizeOf_spec]
        omega
      | many ms =>
        have := List.sizeOf_lt_of_mem (show c ∈ ms from h)
        simp only [Capture.many.sizeOf_spec]
        omega
    simp only [Match.node.sizeOf_spec]
    simp only [Prod.mk.sizeOf_spec] at h₁
    omega

/-- An operand is smaller than `m`. -/
theorem sizeOf_lt_of_mem_operands {m c : Match} (h : c ∈ m.operands) : sizeOf c < sizeOf m := by
  obtain ⟨a, b, named, operands, rule⟩ := m
  have := List.sizeOf_lt_of_mem (show c ∈ operands from h)
  simp only [Match.node.sizeOf_spec]
  omega

/-- A match inside another is smaller. Recursion over inner matches rests on this (`produce`). -/
theorem Inside.sizeOf_lt {c m : Match} (h : c.Inside m) : sizeOf c < sizeOf m := by
  induction h with
  | capture h => exact sizeOf_lt_of_mem_captures h
  | operand h => exact sizeOf_lt_of_mem_operands h
  | trans _ _ ihd ihc => exact Nat.lt_trans ihd ihc

/-- Induction over inner matches: what holds of `m` as soon as it holds of all matches inside it
holds of every match. -/
@[elab_as_elim]
theorem inner_induction {motive : Match → Prop}
    (step : ∀ m : Match, (∀ c : m.Inner, motive c.val) → motive m) (m : Match) : motive m :=
  step m fun c => inner_induction step c.val
termination_by sizeOf m
decreasing_by exact c.inside.sizeOf_lt

/-- All matches captured under `key`, as inner matches. -/
def inners (m : Match) (key : String) : List m.Inner :=
  (m.captures key).attach.map fun c => ⟨c.1, .capture c.2⟩

/-- The first match captured under `key`, as an inner match. -/
def inner? (m : Match) (key : String) : Option m.Inner := (m.inners key).head?

/-- The `operands`, as inner matches. -/
def innerOperands (m : Match) : List m.Inner :=
  m.operands.attach.map fun c => ⟨c.1, .operand c.2⟩

namespace Inner

/-- The first match captured under `key` by an inner match of `m`; it is an inner match of `m` as
well. -/
def inner? {m : Match} (c : m.Inner) (key : String) : Option m.Inner :=
  (c.val.inner? key).map fun d => ⟨d.val, .trans d.inside c.inside⟩

end Inner

@[simp] theorem map_val_inners (m : Match) (key : String) :
    (m.inners key).map Inner.val = m.captures key := by
  simp [inners, Function.comp_def]

theorem map_val_inner? (m : Match) (key : String) :
    (m.inner? key).map Inner.val = m.capture? key := by
  rw [inner?, capture?, ← List.head?_map, map_val_inners]

@[simp] theorem map_val_innerOperands (m : Match) :
    m.innerOperands.map Inner.val = m.operands := by
  simp [innerOperands, Function.comp_def]

/-! ### Source order -/

/-- The list with `p` put in front of the first match that starts no sooner. -/
def insertByStart {κ : Type} {m : Match} (p : κ × m.Inner) :
    List (κ × m.Inner) → List (κ × m.Inner)
  | [] => [p]
  | q :: qs => if p.2.val.start ≤ q.2.val.start then p :: q :: qs else q :: insertByStart p qs

/-- Labelled matches in the order they start; those that start together keep their order
(`insertByStart`). -/
def sortByStart {κ : Type} {m : Match} : List (κ × m.Inner) → List (κ × m.Inner)
  | [] => []
  | p :: ps => insertByStart p (sortByStart ps)

/-- The matches captured under the names of any of `keys`, each with its key, in
source order. -/
def inSourceOrder {κ : Type} (m : Match) (nameOf : κ → String) (keys : List κ) :
    List (κ × m.Inner) :=
  sortByStart (keys.flatMap fun key => (m.inners (nameOf key)).map fun c => (key, c))

end Match

end RakuTree
