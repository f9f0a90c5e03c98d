import RakuTree.Match.Sketch
import RakuTree.Proofs.Complete.Spacing

/-!
# RakuTree.Proofs.Complete.Surface

A small language of expressions, with its layout.

A program is a list of statements, each an expression and perhaps a semicolon. Its parts
carry the texts they are written with and the proof that these are of the right kind, so
every program can be written down (`Program.source`). What a grammar is to make of it is
a relation (`Expr.Captured`, `Program.Captured`): every construct is captured where it
stands. Only the list of statements inside parentheses has some leeway, since it may or
may not take in the layout around it.
-/

namespace RakuTree

/-! ### Programs -/

namespace Surface

/-- Layout in the middle of a line: what may stand between the parts of an `Expr`. -/
structure Spacing where
  /-- The text of a `Spacing`. -/
  text : Text
  /-- There is nothing but layout in `text`: a strict scan goes through it. -/
  accepted : Layout.Accepts false text

/-- Layout at the beginning of a line: what may stand in front of a `Program`. -/
structure Heading where
  /-- The text of a `Heading`. -/
  text : Text
  /-- There is nothing but layout in `text`: a strict scan from the start of a line goes through it.
  -/
  accepted : Layout.Accepts true text

/-- Whitespace: what may stand in front of a semicolon. -/
structure Blank where
  /-- The text of a `Blank`. -/
  text : Text
  /-- There is nothing but whitespace in `text`. -/
  space : text.all Text.isSpace = true

/-- Decimal digits of a `number`. -/
structure Digits where
  /-- The text of the `Digits`. -/
  text : Text
  /-- There is at least one digit in `text`. -/
  ne_nil : text ≠ []
  /-- There is nothing but digits in `text`. -/
  digit : text.all Char.isDigit = true

/-- The name of a `scalar` without its sigil. It may be empty. -/
structure Name where
  /-- The text of a `Name`. -/
  text : Text
  /-- No whitespace is in `text`. -/
  solid : text.any Text.isSpace = false

/-- The text of an operator between two operands of a `binary`. -/
structure Operator where
  /-- The text of an `Operator`. -/
  text : Text
  /-- The `text` is not empty. -/
  ne_nil : text ≠ []
  /-- No whitespace is in `text`. -/
  solid : text.any Text.isSpace = false

/-- An expression with the layout inside it (`render`). -/
inductive Expr
  /-- An integer, such as `12`. -/
  | number (digits : Digits)
  /-- A variable with the sigil of a scalar, such as `$x`. -/
  | scalar (name : Name)
  /-- An expression in parentheses, with layout on both sides of `inner`. -/
  | paren (before : Spacing) (inner : Expr) (behind : Spacing)
  /-- Two expressions joined by `operator`, with layout on both sides of it. -/
  | binary (left : Expr) (before : Spacing) (operator : Operator) (behind : Spacing) (right : Expr)

/-- The text of an expression, layout and all. -/
def Expr.render : Expr → Text
  | number digits => digits.text
  | scalar name => ['$'] ++ name.text
  | paren before inner behind => ['('] ++ before.text ++ inner.render ++ behind.text ++ [')']
  | binary left before operator behind right =>
    left.render ++ before.text ++ operator.text ++ behind.text ++ right.render

/-- A statement with the layout behind it (`render`). -/
structure Statement where
  /-- The expression the statement consists of. -/
  expr : Expr
  /-- The whitespace in front of the semicolon; `none` if there is no semicolon. -/
  closing : Option Blank
  /-- The layout behind the statement. -/
  behind : Spacing

/-- The semicolon of the statement `s` with the whitespace in front of it; empty if there is none.
-/
def Statement.closingText (s : Statement) : Text :=
  match s.closing with
  | some blank => blank.text ++ [';']
  | none => []

/-- The text of the statement `s` up to and including its semicolon. -/
def Statement.core (s : Statement) : Text := s.expr.render ++ s.closingText

/-- The text of the statement `s` with the layout `behind` it. -/
def Statement.render (s : Statement) : Text := s.core ++ s.behind.text

/-- A program: statements in a row, with layout in front of the first one (`source`). -/
structure Program where
  /-- The layout in front of the first of `statements`. -/
  lead : Heading
  /-- The statements. Any of them may lack its semicolon. -/
  statements : List Statement

/-- The text of the program `p`. -/
def Program.source (p : Program) : Text := p.lead.text ++ p.statements.flatMap Statement.render

/-! ### Captures -/

/-- A chain of matches over the same range: the innermost holds `captures`, and each
further one holds the one before it under the next of `keys`. -/
def nested (start stop : Int) (captures : Sketch.Captures) (keys : List String) : Match :=
  keys.foldl (fun m key => Sketch.span start stop [(key, .one m)] [])
    (Sketch.span start stop captures [])

/-- A grammar captures an expression that stands at an offset, as a match. `Captured e i m` leaves
open only where the list in parentheses starts and ends. -/
inductive Expr.Captured : Expr → Nat → Match → Prop
  /-- All matches of a `number` cover it. -/
  | number (digits : Digits) (i : Nat) :
      Captured (.number digits) i
        (nested i (i + (Expr.number digits).render.length) []
          ["decint", "integer", "numish", "number", "value"])
  /-- A `scalar` captures its sigil and its name. -/
  | scalar (name : Name) (i : Nat) :
      Captured (.scalar name) i
        (nested i (i + (Expr.scalar name).render.length)
          [("sigil", .one (Sketch.span i (i + 1) [] [])),
           ("desigilname", .one (Sketch.span (i + 1) (i + (Expr.scalar name).render.length) [] []))]
          ["variable"])
  /-- A `paren` holds a list of one statement, which lies between the parentheses, from `lo` to
  `hi`. -/
  | paren {before behind : Spacing} {inner : Expr} {i : Nat} {m : Match} (lo hi : Nat)
      (hm : inner.Captured (i + 1 + before.text.length) m)
      (hlo : i + 1 ≤ lo ∧ lo ≤ i + 1 + before.text.length)
      (hhi : i + 1 + before.text.length + inner.render.length ≤ hi ∧
        hi ≤ i + 1 + before.text.length + inner.render.length + behind.text.length) :
      Captured (.paren before inner behind) i
        (nested i (i + (Expr.paren before inner behind).render.length)
          [("semilist", .one (Sketch.span lo hi
            [("statement", .many [Sketch.statement m []])] []))]
          ["circumfix"])
  /-- The operator of a `binary` is captured between its operands, at `j`. -/
  | binary {left right : Expr} {before behind : Spacing} {operator : Operator} {i j k : Nat}
      {m n : Match} (hm : left.Captured i m)
      (hj : j = i + left.render.length + before.text.length)
      (hk : k = j + operator.text.length + behind.text.length) (hn : right.Captured k n) :
      Captured (.binary left before operator behind right) i
        (Sketch.span i (i + (Expr.binary left before operator behind right).render.length)
          [("infix", .one (Sketch.span j (j + operator.text.length) [] [])),
           ("OPER", .one (Sketch.span j (j + operator.text.length) [] []))] [m, n])

/-- A grammar captures statements that stand in a row from an offset on, as `Sketch.statement`
without modifiers. -/
inductive CapturedAll : List Statement → Nat → List Match → Prop
  /-- There are no statements, and no matches. -/
  | nil {i : Nat} : CapturedAll [] i []
  /-- A grammar captures the statement `s`, and those in `rest` behind it. -/
  | cons {s : Statement} {rest : List Statement} {i : Nat} {m : Match} {ms : List Match}
      (hm : s.expr.Captured i m) (hrest : CapturedAll rest (i + s.render.length) ms) :
      CapturedAll (s :: rest) i (Sketch.statement m [] :: ms)

/-- A grammar captures the program `p` as the match `m`. -/
def Program.Captured (p : Program) (m : Match) : Prop :=
  ∃ ms, CapturedAll p.statements p.lead.text.length ms ∧ m = Sketch.document p.source ms

/-! ### Small facts -/

theorem Digits.solid (d : Digits) : d.text.any Text.isSpace = false := by
  refine List.any_eq_false.mpr fun c hc => ?_
  have hdigit := List.all_eq_true.mp d.digit c hc
  simp only [Char.isDigit, Bool.and_eq_true, decide_eq_true_eq, ge_iff_le,
    UInt32.le_iff_toNat_le] at hdigit
  have hlo : 48 ≤ c.toNat := hdigit.1
  have hhi : c.toNat ≤ 57 := hdigit.2
  simp [Text.isSpace]
  omega

namespace Expr

theorem render_ne_nil (e : Expr) : e.render ≠ [] := by
  induction e with
  | number digits => exact digits.ne_nil
  | scalar name => simp [render]
  | paren before inner behind _ => simp [render]
  | binary left before operator behind right ih _ => simp [render, ih]

/-- The text of an expression has no layout at its ends: it is `Firm`. -/
theorem render_firm (e : Expr) : e.render.Firm := by
  induction e with
  | number digits => exact Text.firm_of_any digits.solid
  | scalar name => exact Text.firm_of_any name.solid
  | paren before inner behind _ =>
      have hfront : Text.Firm ['('] := Text.firm_of_any rfl
      have hback : Text.Firm [')'] := Text.firm_of_any rfl
      have h := hfront.join (u := before.text ++ inner.render ++ behind.text) hback
        (by simp) (by simp)
      simpa [render] using h
  | binary left before operator behind right ihl ihr =>
      have h := ihl.join (u := before.text ++ operator.text ++ behind.text) ihr left.render_ne_nil
        right.render_ne_nil
      simpa [render] using h

/-- A match that `Captured` allows has the range of the expression. -/
theorem Captured.range {e : Expr} {i : Nat} {m : Match} (h : e.Captured i m) :
    m.start = i ∧ m.stop = i + e.render.length := by
  cases h with
  | number => exact ⟨rfl, rfl⟩
  | scalar => exact ⟨rfl, rfl⟩
  | paren => exact ⟨rfl, rfl⟩
  | binary => exact ⟨rfl, rfl⟩

theorem Captured.isWide {e : Expr} {i : Nat} {m : Match} (h : e.Captured i m) :
    m.isWide = true := by
  have hpos : 0 < e.render.length := List.length_pos_iff.mpr e.render_ne_nil
  rw [Match.isWide, h.range.1, h.range.2]
  exact decide_eq_true (by omega)

end Expr

theorem Statement.core_ne_nil (s : Statement) : s.core ≠ [] := by
  simp [core, s.expr.render_ne_nil]

end Surface

end RakuTree
