import RakuTree.Proofs.Complete.Plans
import RakuTree.Proofs.Complete.Surface

/-!
# RakuTree.Proofs.Complete.Expressions

Rules build every captured expression.

Each rule that takes part is followed once, from the shape of the match it is given to
the row it comes to. The expression rules come to leaves, a statement to its expression
and the semicolon behind it, and parentheses to a branch around the statement inside.
That the grammar captures an expression at its place is then enough to build it
(`Expr.Captured.builds`), by induction on the captures.
-/

namespace RakuTree

open Element Surface Text

variable {src : Text} {options : Options} {f : Frame}
  {B : Production → Match → List Element → Prop}

/-! ### Matches that capture one thing -/

theorem Frame.shape_one {key : String} {c : Capture} {start stop : Int} {operands : List Match}
    (hself : f.self = Sketch.span start stop [(key, c)] operands) (hkey : key ≠ "O")
    (hc : c.hasContent = true) : f.shape = ⟨[key], []⟩ := by
  simp [shape, hself, Shape.of, Sketch.span, Match.named, Shape.ignored, hkey, hc, Shape.sorted,
    Shape.insertSorted]

theorem Match.captures_self (key : String) (c : Capture) (start stop : Int)
    (others : Sketch.Captures) (operands : List Match) :
    (Sketch.span start stop ((key, c) :: others) operands).captures key = c.toList := by
  simp [captures, Sketch.span, named]

theorem Frame.captures_first {key : String} {c : Capture} {start stop : Int}
    {others : Sketch.Captures} {operands : List Match}
    (hself : f.self = Sketch.span start stop ((key, c) :: others) operands) :
    f.self.captures key = c.toList := by
  rw [hself, Match.captures_self]

theorem isWide_of_lt {start stop : Int} (h : start < stop) (captures : Sketch.Captures)
    (operands : List Match) : (Sketch.span start stop captures operands).isWide = true := by
  show decide (start < stop) = true
  exact decide_eq_true h

theorem isWide_span {i : Nat} {s : Text} (hs : s ≠ []) (captures : Sketch.Captures)
    (operands : List Match) : (Sketch.span i (i + s.length) captures operands).isWide = true := by
  have hpos : 0 < s.length := List.length_pos_iff.mpr hs
  exact isWide_of_lt (by omega) captures operands

/-- Pairs `(p, q)` of productions such that `p` hands its match on to `q`, if the only capture is
that of `q`. -/
def passing : List (Production × Production) :=
  [(.expr, .value), (.expr, .variableUse), (.expr, .circumfix), (.value, .number),
   (.number, .numish), (.numish, .integer), (.top, .statementlist)]

theorem passing_rule {p q : Production} (h : (p, q) ∈ passing)
    (hshape : f.shape = ⟨[q.key], []⟩) : p.rule f = f.buildKey q := by
  simp only [passing, List.mem_cons, Prod.mk.injEq, List.not_mem_nil, or_false] at h
  rcases h with ⟨rfl, rfl⟩ | ⟨rfl, rfl⟩ | ⟨rfl, rfl⟩ | ⟨rfl, rfl⟩ | ⟨rfl, rfl⟩ | ⟨rfl, rfl⟩ |
      ⟨rfl, rfl⟩ <;>
    simp [Production.rule, Rule.expr, Rule.hyperPostfix, Rule.term, Rule.terms, Rule.value,
      Rule.number, Rule.numish, Rule.top, Frame.buildOnly, hshape, Shape.fits,
      Shape.has, Shape.is, Production.key]

/-- What the only capture of a match comes to, by `q`, the match comes to, by `p`. -/
theorem passing_builds {p q : Production} (h : (p, q) ∈ passing) {m : Match} (hm : m.isWide = true)
    {es : List Element} (hes : Builds src options q m es) (start stop : Int) :
    Builds src options p (Sketch.span start stop [(q.key, .one m)] []) es := by
  have hkey : q.key ≠ "O" := by
    simp only [passing, List.mem_cons, Prod.mk.injEq, List.not_mem_nil, or_false] at h
    rcases h with ⟨-, rfl⟩ | ⟨-, rfl⟩ | ⟨-, rfl⟩ | ⟨-, rfl⟩ | ⟨-, rfl⟩ | ⟨-, rfl⟩ | ⟨-, rfl⟩ <;>
      decide
  apply builds_of_reaches
  rw [passing_rule h (Frame.shape_one (c := .one m) rfl hkey hm)]
  exact Frame.buildKey_reaches (Match.captures_self _ _ _ _ _ _) hes

/-! ### Numbers -/

theorem integer_rule (h : f.shape = ⟨["decint"], []⟩) :
    ∃ cls, Production.integer.rule f = f.trimmed cls f.self := by
  simp only [Production.rule, Rule.integer, h]
  exact ⟨_, rfl⟩

/-- An `integer` is one leaf. -/
theorem integer_reaches {i : Nat} {s : Text} {m : Match} (hs : StandsAt f.src i s)
    (hfirm : s.Firm) (hm : m.isWide = true)
    (hself : f.self = Sketch.span i (i + s.length) [("decint", .one m)] []) :
    ∃ cls, (Production.integer.rule f).Reaches B [.leaf (Leaf.found cls i s f.origin)] := by
  obtain ⟨cls, hcls⟩ := integer_rule (Frame.shape_one (c := .one m) hself (by decide) hm)
  rw [hcls, hself]
  exact ⟨cls, Frame.trimmed_reaches hs hfirm rfl rfl⟩

/-- The productions of a number hand its leaf on, up to `expr`. -/
theorem number_builds (digits : Digits) {i : Nat} (hs : StandsAt src i digits.text) :
    ∃ es, Builds src options .expr
        (nested i (i + digits.text.length) []
          ["decint", "integer", "numish", "number", "value"]) es ∧
      Row src i digits.text es := by
  have hfirm : digits.text.Firm := (Expr.number digits).render_firm
  have hwide := fun captures => isWide_span (i := i) digits.ne_nil captures []
  obtain ⟨cls, hcls⟩ := integer_reaches (f := ⟨src, .integer, _⟩) (B := Builds src options) hs hfirm
    (hwide []) rfl
  have hinteger := builds_of_reaches hcls
  have hnumish := passing_builds (p := .numish) (by decide) (hwide _) hinteger i
    (i + digits.text.length)
  have hnumber := passing_builds (p := .number) (by decide) (hwide _) hnumish i
    (i + digits.text.length)
  have hvalue := passing_builds (p := .value) (by decide) (hwide _) hnumber i
    (i + digits.text.length)
  exact ⟨_, passing_builds (by decide) (hwide _) hvalue _ _, Row.leaf cls _ hs hfirm digits.ne_nil⟩

/-! ### Variables -/

/-- The shape of a variable with a `name`, and of a sigil alone. -/
theorem variable_shape {start stop : Int} {sigil name : Match}
    (hself : f.self = Sketch.span start stop
      [("sigil", .one sigil), ("desigilname", .one name)] []) (hsigil : sigil.isWide = true) :
    f.shape =
      if name.isWide then ⟨["desigilname", "sigil"], []⟩ else ⟨["sigil"], ["desigilname"]⟩ := by
  have horder : ¬ "sigil" ≤ "desigilname" := by decide
  by_cases hname : name.isWide = true <;>
    simp [Frame.shape, hself, Shape.of, Sketch.span, Match.named, Shape.ignored,
      Capture.hasContent, hsigil, hname, Shape.sorted, Shape.insertSorted, horder]

theorem variable_rule (h : f.shape = ⟨["desigilname", "sigil"], []⟩) :
    Production.variableUse.rule f =
      Rule.variableLeaf f (f.textOf "sigil") [] (f.textOf "desigilname") := by
  simp [Production.rule, Rule.variableUse, h, Shape.is, Shape.fits, Shape.has]

theorem sigil_rule (h : f.shape = ⟨["sigil"], ["desigilname"]⟩) :
    Production.variableUse.rule f = Rule.wholeVariable f (f.textOf "sigil") [] := by
  simp [Production.rule, Rule.variableUse, h, Shape.is, Shape.fits, Shape.has]

/-- A `scalar` variable is one leaf. -/
theorem variable_reaches (name : Name) {i : Nat} {j : Int}
    (hs : StandsAt f.src i (['$'] ++ name.text)) (hj : j = i + (['$'] ++ name.text).length)
    (hself : f.self = Sketch.span i j [("sigil", .one (Sketch.span i (i + 1) [] [])),
      ("desigilname", .one (Sketch.span (i + 1) j [] []))] []) :
    ∃ cls, (Production.variableUse.rule f).Reaches B
      [.leaf (Leaf.found cls i (['$'] ++ name.text) f.origin)] := by
  obtain ⟨c, hc⟩ : ∃ c, VariableClass.ofText? ['$'] = some c := ⟨_, rfl⟩
  have hfirm : Firm (['$'] ++ name.text) := (Expr.scalar name).render_firm
  obtain ⟨hdollar, hname⟩ := standsAt_append.mp hs
  have hshape := variable_shape hself (isWide_span (s := ['$']) (by simp) [] [])
  have hsigil : f.textOf "sigil" = ['$'] :=
    Frame.textOf_eq (Frame.captures_first hself) hdollar (firm_of_any rfl) rfl rfl
  have hclass : Rule.variableClass f ['$'] [] = .done (.var c) := by
    rw [Rule.variableClass, List.append_nil, hc]
    rfl
  refine ⟨.var c, ?_⟩
  by_cases hempty : name.text = []
  · -- a sigil alone covers the match
    have hnarrow : (Sketch.span (i + 1) j [] []).isWide = false := by
      simp [Match.isWide, Sketch.span, Match.start, Match.stop, hj, hempty]
    rw [hnarrow] at hshape
    rw [sigil_rule hshape, hsigil, Rule.wholeVariable, hclass]
    exact Frame.trimmed_reaches hs hfirm (by rw [hself]; rfl) (by rw [hself]; exact hj)
  · have hwide : (Sketch.span (i + 1) j [] []).isWide = true := by
      have h := isWide_span (i := i + 1) hempty [] []
      rw [hj]
      simpa [Int.add_assoc, Int.add_comm, Int.add_left_comm] using h
    rw [hwide] at hshape
    have hdesigil : f.textOf "desigilname" = name.text := by
      refine Frame.textOf_eq (m := Sketch.span (i + 1) j [] []) ?_ hname
        (firm_of_any name.solid) rfl ?_
      · rw [hself]
        rfl
      · rw [hj]
        simp [Sketch.span, Match.stop]
        omega
    have htext : f.text = ['$'] ++ name.text := by
      rw [Frame.text, Match.text, hself]
      simp only [Sketch.span, Match.start, Match.stop, hj]
      exact hs.slice_eq
    rw [variable_rule hshape, hsigil, hdesigil, Rule.variableLeaf, hclass, htext,
      hfirm.leadingSpace_eq, hself]
    exact (Frame.leafAt_reaches f (.var c) i (['$'] ++ name.text)).bind rfl

/-! ### Operators -/

/-- The shape of a match with the operator `op`. -/
theorem infix_shape {start stop : Int} {op : Match} {operands : List Match}
    (hself : f.self = Sketch.span start stop [("infix", .one op), ("OPER", .one op)] operands)
    (hop : op.isWide = true) : f.shape = ⟨["OPER", "infix"], []⟩ := by
  have horder : ¬ "infix" ≤ "OPER" := by decide
  simp [Frame.shape, hself, Shape.of, Sketch.span, Match.named, Shape.ignored,
    Capture.hasContent, hop, Shape.sorted, Shape.insertSorted, horder]

/-- An operator without captures of its own starts an `infixChain`. -/
theorem infix_rule (h : f.shape = ⟨["OPER", "infix"], []⟩) {start stop : Int}
    (hop : f.self.captures "infix" = [Sketch.span start stop [] []]) :
    Production.expr.rule f = Rule.infixChain f .infixOperator
      ["infix_prefix_meta_operator", "infix", "infix_postfix_meta_operator"] := by
  obtain ⟨c, hget, hc⟩ := Frame.exists_get? hop
  have hplain : (Shape.of c.val).content = [] := by
    rw [hc]
    rfl
  simp [Production.rule, Rule.expr, h, Shape.fits, Shape.has, hget, hplain]

/-- An operator by itself, an `infixOp`, is one leaf. -/
theorem infixOp_reaches {i : Nat} {s : Text} (hs : StandsAt f.src i s) (hfirm : s.Firm)
    (hself : f.self = Sketch.span i (i + s.length) [] []) :
    (Production.infixOp.rule f).Reaches B [.leaf (Leaf.found .infixOperator i s f.origin)] := by
  have hshape : f.shape = ⟨[], []⟩ := by
    rw [Frame.shape, hself]
    rfl
  have hrule : Production.infixOp.rule f = f.trimmed .infixOperator f.self := by
    simp [Production.rule, Rule.infixOp, hshape, Shape.fits]
  rw [hrule, hself]
  exact Frame.trimmed_reaches hs hfirm rfl rfl

/-- A search by `find?` finds nothing in an empty stretch. -/
theorem find?_self {s : Text} (hs : s ≠ []) (i : Nat) : Text.find? src s i i = none := by
  have hstretch : (src.take (min i src.length)).drop i = [] :=
    List.drop_eq_nil_of_le (by rw [List.length_take]; omega)
  simp only [Text.find?, place_natCast, hstretch, first?]
  simp [hs]

theorem operandOf_reaches {c : f.self.Inner} {es : List Element} (hes : B .expr c.val es)
    (hne : es ≠ []) (i : Nat) : (Rule.operandOf f i (some c)).Reaches B es := by
  refine ⟨es, hes, ?_⟩
  have hfull : es.isEmpty = false := by simpa using hne
  simp only [Plan.bind, hfull]
  exact rfl

theorem exists_operands {m n : Match} (h : f.self.operands = [m, n]) :
    ∃ c d, f.self.innerOperands = [c, d] ∧ c.val = m ∧ d.val = n := by
  have hmap : f.self.innerOperands.map Match.Inner.val = [m, n] := by
    rw [Match.map_val_innerOperands, h]
  obtain ⟨c, rest, hcd, hc, hrest⟩ := List.map_eq_cons_iff.mp hmap
  obtain ⟨d, rest', rfl, hd, hnil⟩ := List.map_eq_cons_iff.mp hrest
  rw [List.map_eq_nil_iff.mp hnil] at hcd
  exact ⟨c, d, hcd, hc, hd⟩

/-- Two operands are joined by the operator `op` that was captured between them. -/
theorem joinOperands_reaches {i k : Nat} {l r : Text} {c d : f.self.Inner} {es ls : List Element}
    (op : Leaf) (hes : Row f.src i l es) (hls : Row f.src k r ls)
    (hfront : (i + l.length : Int) ≤ op.span.start) (hback : op.span.stop ≤ k)
    (hc : B .expr c.val es) (hd : B .expr d.val ls) :
    (Rule.joinOperands f .infixOperator op 0 [] [c, d]).Reaches B (es ++ .leaf op :: ls) := by
  have hplace : Rule.placeOperator f .infixOperator op es ls = .done op := by
    rw [Rule.placeOperator, hes.last, hls.first]
    exact if_pos ⟨hfront, hback⟩
  rw [Rule.joinOperands]
  refine (operandOf_reaches hc hes.ne_nil 0).bind ?_
  rw [if_pos rfl, Rule.joinOperands]
  refine (operandOf_reaches hd hls.ne_nil 1).bind ?_
  rw [if_neg (by omega), List.nil_append, hplace]
  exact rfl

theorem endOf_reaches {es : List Element} (hne : es ≠ []) (a : Int) :
    (f.endOf es).Reaches B (lastEnd a es) := by
  cases es with
  | nil => exact absurd rfl hne
  | cons e es =>
      rw [lastEnd_cons]
      exact rfl

/-- An `infixChain` of two operands has nothing behind the second one. -/
theorem infixChain_reaches {i j k : Nat} {l r s : Text} {m n op : Match} {es ls : List Element}
    {o : Option String} (hes : Row f.src i l es) (hls : Row f.src k r ls) (hs : s ≠ [])
    (hij : i + l.length ≤ j) (hjk : j + s.length ≤ k)
    (hself : f.self = Sketch.span i ((k + r.length : Nat) : Int)
      [("infix", .one op), ("OPER", .one op)] [m, n])
    (hwide : op.isWide = true) (hm : B .expr m es) (hn : B .expr n ls)
    (hop : B .infixOp op [.leaf (Leaf.found .infixOperator j s o)]) (keys : List String) :
    (Rule.infixChain f .infixOperator keys).Reaches B
      (es ++ .leaf (Leaf.found .infixOperator j s o) :: ls) := by
  have hfits : f.shape.fits ["infix"] ["OPER"] = true := by
    rw [infix_shape hself hwide]
    decide
  have hkey : (f.buildKey .infixOp).Reaches B [.leaf (Leaf.found .infixOperator j s o)] :=
    Frame.buildKey_reaches (Frame.captures_first hself) hop
  have hfirst : (Rule.firstLeaf f [.leaf (Leaf.found .infixOperator j s o)]).Reaches B
      (Leaf.found .infixOperator j s o) := rfl
  obtain ⟨c, d, hcd, rfl, rfl⟩ := exists_operands (f := f) (m := m) (n := n) (by rw [hself]; rfl)
  have hjoin := joinOperands_reaches (Leaf.found .infixOperator j s o) hes hls
    (by simp only [Leaf.found, Span.ofText]; omega) (by simp only [Leaf.found, Span.ofText]; omega)
    hm hn
  have hlast : lastEnd 0 (es ++ .leaf (Leaf.found .infixOperator j s o) :: ls) =
      ((k + r.length : Nat) : Int) := by
    rw [lastEnd_append, lastEnd_cons, hls.last]
    rfl
  -- the operands end where the match ends
  have hnone :
      f.find? .infixOperator ((k + r.length : Nat) : Int) f.self.stop (.text s) = none := by
    have hstop : f.self.stop = ((k + r.length : Nat) : Int) := by
      rw [hself]
      rfl
    rw [hstop, Frame.find?, Token.find?, find?_self hs]
    rfl
  have hsome : f.self.operands.isEmpty = false := by
    rw [hself]
    rfl
  rw [Rule.infixChain, if_pos ⟨rfl, hfits⟩]
  refine hkey.bind (hfirst.bind ?_)
  simp only [hsome, Bool.false_eq_true, if_false, hcd]
  refine hjoin.bind ((endOf_reaches (by simp) 0).bind ?_)
  rw [hlast]
  simp only [Leaf.found, hnone, Option.map_none, Option.toList_none, List.append_nil]
  exact rfl

/-! ### Statements -/

/-- No semicolon is found by `semicolonAt?` in layout. -/
theorem semicolonAt?_none {i : Nat} {w : Text} {limit : Int} (hs : StandsAt src i w)
    (hw : Layout.Accepts false w) (hlimit : limit ≤ i + w.length) :
    Rule.semicolonAt? src i limit = none := by
  have hwindow : window src i (max limit i) = w.take (limit - i).toNat := by
    obtain ⟨rest, hrest⟩ := hs
    have hwidth : (max limit i).toNat - i = (limit - i).toNat := by omega
    rw [window, Int.toNat_natCast, List.drop_take, hwidth, ← hrest,
      List.take_append_of_le_length (by omega)]
  rw [Rule.semicolonAt?, hwindow]
  split
  · rename_i rest hrest
    exact absurd hrest (hw.trimLeft_take_ne _ rest)
  · rfl

/-- A semicolon is found by `semicolonAt?` behind whitespace. -/
theorem semicolonAt?_some {i : Nat} {w : Text} {limit : Int} (hs : StandsAt src i (w ++ [';']))
    (hw : w.all isSpace = true) (hlimit : i + (w ++ [';']).length ≤ limit) :
    Rule.semicolonAt? src i limit = some (i + w.length) := by
  obtain ⟨rest, hrest⟩ := hs
  have hwidth : ∃ n, (max limit i).toNat - i = (w ++ [';']).length + n :=
    ⟨(limit - i).toNat - (w ++ [';']).length, by omega⟩
  obtain ⟨n, hn⟩ := hwidth
  have hwindow : window src i (max limit i) = w ++ ';' :: rest.take n := by
    rw [window, Int.toNat_natCast, List.drop_take, hn, ← hrest, List.take_length_add_append]
    simp
  have htrim : trimLeft (w ++ ';' :: rest.take n) = ';' :: rest.take n := by
    rw [trimLeft, List.dropWhile_append_of_pos (List.all_eq_true.mp hw)]
    rfl
  have hlead : leadingSpace (w ++ ';' :: rest.take n) = w.length := by
    rw [leadingSpace, List.takeWhile_append_of_pos (List.all_eq_true.mp hw)]
    simp [isSpace]
  rw [Rule.semicolonAt?, hwindow]
  simp only [htrim, hlead, Int.toNat_natCast]

/-- The expression of the statement `st`, and the semicolon that is found behind it, are a `Row`. -/
theorem Element.Row.closing {st : Surface.Statement} {i : Nat} {limit : Int} {es : List Element}
    (hs : StandsAt src i st.render) (hes : Row src i st.expr.render es)
    (hlo : i + st.core.length ≤ limit) (hhi : limit ≤ i + st.render.length) (o : Option String) :
    Row src i st.core (es ++
      ((Rule.semicolonAt? src (i + st.expr.render.length) limit).map fun k =>
        Element.leaf (Leaf.found .semicolon k [';'] o)).toList) := by
  obtain ⟨hcore, hbehind⟩ := standsAt_append.mp hs
  obtain ⟨-, hclosing⟩ := standsAt_append.mp hcore
  obtain ⟨e, closing, behind⟩ := st
  cases closing with
  | none =>
      simp only [Statement.core, Statement.closingText, Statement.render, List.append_nil,
        List.length_append] at *
      rw [← Int.natCast_add, semicolonAt?_none hbehind behind.accepted (by omega)]
      simpa using hes
  | some blank =>
      simp only [Statement.core, Statement.closingText] at *
      obtain ⟨hblank, hsemi⟩ := standsAt_append.mp hclosing
      have hlimit : ((i + e.render.length : Nat) : Int) + (blank.text ++ [';']).length ≤ limit := by
        rw [List.length_append] at hlo
        omega
      rw [← Int.natCast_add, semicolonAt?_some hclosing blank.space hlimit]
      have hleaf := Row.leaf .semicolon o hsemi (firm_of_any rfl) (by simp)
      rw [← List.append_assoc]
      exact hes.append (Layout.accepts_of_space blank.space false) hblank hleaf

/-- The statement `st` becomes a branch of its expression and its semicolon. -/
theorem statements_reaches {st : Surface.Statement} {i : Nat} {stop limit : Int}
    {c : f.self.Inner} {cs : List f.self.Inner} {es bs : List Element}
    (hs : StandsAt f.src i st.render) (hes : Row f.src i st.expr.render es)
    (hc : B .statement c.val es) (hcs : (Rule.statements f stop cs).Reaches B bs)
    (hlimit : ((cs.head?).map (·.val.start)).getD stop = limit)
    (hlo : i + st.core.length ≤ limit) (hhi : limit ≤ i + st.render.length) :
    ∃ ks, (Rule.statements f stop (c :: cs)).Reaches B
        (.branch .statement (Span.ofText i st.core) f.origin ks :: bs) ∧
      Row f.src i st.core ks := by
  have hall := hes.closing hs hlo hhi f.origin
  generalize htail : Option.toList _ = tail at hall
  refine ⟨es ++ tail, ?_, hall⟩
  have hfull : (es ++ tail).isEmpty = false := by simp [hes.ne_nil]
  have hbranch : (f.branch .statement (es ++ tail)).Reaches B
      (.branch .statement (Span.ofText i st.core) f.origin (es ++ tail)) := by
    rw [Frame.branch, hall.spanning]
    exact rfl
  rw [Rule.statements]
  refine Plan.Reaches.bind (x := f.build .statement (some c)) ⟨es, hc, rfl⟩ ?_
  simp only [hes.last, hlimit, htail, hfull, Bool.false_eq_true, if_false]
  exact hbranch.bind (hcs.bind rfl)

/-- The `statements` of a match are built from its captures, in a list inside brackets and in that
of a document. -/
theorem statements_rule {p : Production} {stop : Int} (hp : p = .semilist ∧ stop = f.self.stop ∨
    p = .statementlist ∧ stop = f.src.length) (h : f.shape = ⟨["statement"], []⟩) :
    p.rule f = Rule.statements f stop (f.each "statement") := by
  rcases hp with ⟨rfl, rfl⟩ | ⟨rfl, rfl⟩ <;>
    simp [Production.rule, Rule.semilist, Rule.statementlist, h, Shape.is, Shape.fits, Shape.has]

/-- A `statement` without modifiers hands its expression on. -/
theorem statement_rule (h : f.shape = ⟨["EXPR"], []⟩)
    (hcond : f.self.captures "statement_mod_cond" = [])
    (hloop : f.self.captures "statement_mod_loop" = []) :
    Production.statement.rule f = f.buildKey .expr := by
  have hinners : ∀ key, f.self.captures key = [] → f.self.inners key = [] := by
    intro key hkey
    rw [← Match.map_val_inners] at hkey
    exact List.map_eq_nil_iff.mp hkey
  have hmods : f.buildInOrder [.statementModCond, .statementModLoop] = .done [] := by
    simp [Frame.buildInOrder, Match.inSourceOrder, Production.key, hinners _ hcond, hinners _ hloop,
      Match.sortByStart, Frame.buildParts]
  simp [Production.rule, Rule.statement, h, Shape.is, Shape.fits, Shape.has, hmods, Plan.bind]

theorem statement_builds {m : Match} {es : List Element} (hm : m.isWide = true)
    (hes : Builds src options .expr m es) :
    Builds src options .statement (Sketch.statement m []) es := by
  apply builds_of_reaches
  rw [statement_rule (Frame.shape_one (c := .one m) rfl (by decide) hm) rfl rfl]
  exact Frame.buildKey_reaches (Match.captures_self _ _ _ _ _ _) hes

/-! ### Parentheses -/

theorem last?_append (c : Char) (s : Text) : last? [c] (s ++ [c]) = some s.length := by
  induction s with
  | nil => simp [last?]
  | cons d s ih => simp [last?, ih]

theorem delimited_eq (i : Nat) (a b : Char) (s : Text) (c : BranchClass) (ks : List Element)
    (o : Option String) :
    delimited c i (i + ([a] ++ s ++ [b]).length) [a] [b] ks .plain o =
      .ok (.branch c (Span.ofText i ([a] ++ s ++ [b])) o
        (.leaf (Leaf.found .balancedEnter i [a] o) :: ks ++
          [.leaf (Leaf.found .balancedExit (i + 1 + s.length) [b] o)])) := by
  have hback : (i + ([a] ++ s ++ [b]).length : Int) - ([b] : Text).length =
      ((i + 1 + s.length : Nat) : Int) := by
    simp only [List.length_append, List.length_cons, List.length_nil]
    omega
  rw [delimited, hback, Brackets.plain, Leaf.placed_natCast, Leaf.placed_natCast]
  exact makeBranch_natCast c i _ _ o

/-- The delimiters that `balanced` finds in a match are its first and its last character. -/
theorem balanced_eq {i : Nat} {a b : Char} {s : Text} (hs : StandsAt src i ([a] ++ s ++ [b]))
    (hfirm : Firm ([a] ++ s ++ [b])) (c : BranchClass) (ks : List Element) (o : Option String) :
    balanced c src i (i + ([a] ++ s ++ [b]).length) none ks .plain o =
      .ok (.branch c (Span.ofText i ([a] ++ s ++ [b])) o
        (.leaf (Leaf.found .balancedEnter i [a] o) :: ks ++
          [.leaf (Leaf.found .balancedExit (i + 1 + s.length) [b] o)])) := by
  have hfirst : first? [a] ([a] ++ s ++ [b]) = some 0 := by simp [first?]
  have hlast : last? [b] ([a] ++ s ++ [b]) = some ([a] ++ s).length := last?_append b ([a] ++ s)
  have hhead : ([a] ++ s ++ [b]).head? = some a := rfl
  have hend : ([a] ++ s ++ [b]).getLast? = some b := List.getLast?_concat
  have hstop : (i + ([a] ++ s).length + ([b] : Text).length : Int) =
      i + ([a] ++ s ++ [b]).length := by
    simp only [List.length_append, List.length_cons, List.length_nil]
    omega
  rw [balanced, hs.slice_eq]
  simp only [hfirm.trim_eq, hhead, hend, hfirst, hlast]
  rw [if_pos (by simp), hstop, Int.natCast_zero, Int.add_zero, delimited_eq]

theorem circumfix_rule (h : f.shape = ⟨["semilist"], []⟩) (hopen : (trim f.text).take 1 = ['(']) :
    Production.circumfix.rule f =
      f.buildKey .semilist >>= f.balanced .circumfixOperator none .plain := by
  simp [Production.rule, Rule.circumfix, h, hopen, Shape.fits, Frame.buildIf, Shape.has,
    Production.key]

/-- Parentheses come to a branch around `ks`, the statement inside. -/
theorem circumfix_reaches {i : Nat} {s : Text} {m : Match} {ks : List Element}
    (hs : StandsAt f.src i (['('] ++ s ++ [')'])) (hfirm : Firm (['('] ++ s ++ [')']))
    (hself : f.self = Sketch.span i (i + (['('] ++ s ++ [')']).length) [("semilist", .one m)] [])
    (hm : m.isWide = true) (hks : B .semilist m ks) :
    (Production.circumfix.rule f).Reaches B
      [.branch .circumfixOperator (Span.ofText i (['('] ++ s ++ [')'])) f.origin
        (.leaf (Leaf.found .balancedEnter i ['('] f.origin) :: ks ++
          [.leaf (Leaf.found .balancedExit (i + 1 + s.length) [')'] f.origin)])] := by
  have hopen : (trim f.text).take 1 = ['('] := by
    have htext : f.text = ['('] ++ s ++ [')'] := by
      rw [Frame.text, Match.text, hself]
      exact hs.slice_eq
    rw [htext, hfirm.trim_eq]
    rfl
  have hkey : (f.buildKey .semilist).Reaches B ks :=
    Frame.buildKey_reaches (Frame.captures_first hself) hks
  rw [circumfix_rule (Frame.shape_one (c := .one m) hself (by decide) hm) hopen]
  refine hkey.bind ?_
  rw [Frame.balanced, hself]
  simp only [Sketch.span, Match.start, Match.stop, balanced_eq hs hfirm]
  exact rfl

/-- A list of one statement `st` comes to that statement. -/
theorem semilist_reaches (st : Surface.Statement) {i lo hi : Nat} {m : Match} {es : List Element}
    (hself : f.self = Sketch.span lo hi [("statement", .many [m])] [])
    (hs : StandsAt f.src i st.render) (hes : Row f.src i st.expr.render es)
    (hm : B .statement m es) (hlo : i + st.core.length ≤ hi) (hhi : hi ≤ i + st.render.length) :
    ∃ ks, (Production.semilist.rule f).Reaches B ks ∧ Row f.src i st.core ks := by
  have hcaptures : f.self.captures "statement" = [m] := Frame.captures_first hself
  obtain ⟨c, cs, hcs, rfl, hnil⟩ := Frame.exists_each hcaptures
  obtain rfl := List.map_eq_nil_iff.mp hnil
  have hstop : f.self.stop = hi := by
    rw [hself]
    rfl
  have hnone : (Rule.statements f f.self.stop []).Reaches B [] := rfl
  obtain ⟨ks, hks, hrow⟩ := statements_reaches hs hes hm hnone hstop (by omega) (by omega)
  rw [statements_rule (.inl ⟨rfl, rfl⟩)
    (Frame.shape_one (c := .many [_]) hself (by decide) rfl), hcs]
  exact ⟨_, hks, hrow.branch .statement _⟩

/-- The `semilist` inside parentheses is built. The layout in front of the closing one may belong to
it, and there is no semicolon in it. -/
theorem semilist_builds {inner : Expr} {behind : Spacing} {i hi : Nat} {m : Match}
    {es : List Element} (hm : Builds src options .expr m es) (hwide : m.isWide = true)
    (hes : Row src i inner.render es)
    (hbehind : StandsAt src (i + inner.render.length) behind.text)
    (hlo : i + inner.render.length ≤ hi)
    (hhi : hi ≤ i + inner.render.length + behind.text.length) (lo : Nat) :
    ∃ ks, Builds src options .semilist
        (Sketch.span lo hi [("statement", .many [Sketch.statement m []])] []) ks ∧
      Row src i inner.render ks := by
  have hcore : (⟨inner, none, behind⟩ : Surface.Statement).core = inner.render := by
    simp [Statement.core, Statement.closingText]
  have hrender : (⟨inner, none, behind⟩ : Surface.Statement).render =
      inner.render ++ behind.text := by
    rw [Statement.render, hcore]
  obtain ⟨ks, hks, hrow⟩ := semilist_reaches (B := Builds src options)
    (f := ⟨src, .semilist, Sketch.span lo hi [("statement", .many [Sketch.statement m []])] []⟩)
    ⟨inner, none, behind⟩ rfl (hrender ▸ hes.stands.append hbehind) hes (statement_builds hwide hm)
    (hcore.symm ▸ hlo) (by rw [hrender, List.length_append]; omega)
  exact ⟨ks, builds_of_reaches hks, hcore ▸ hrow⟩

/-- Where the parts of a `paren` stand. -/
theorem standsAt_paren {before behind : Spacing} {inner : Expr} {i : Nat}
    (hs : StandsAt src i (Expr.paren before inner behind).render) :
    StandsAt src i ['('] ∧ StandsAt src (i + 1) before.text ∧
      StandsAt src (i + 1 + before.text.length) inner.render ∧
      StandsAt src (i + 1 + before.text.length + inner.render.length) behind.text ∧
      StandsAt src (i + 1 + before.text.length + inner.render.length + behind.text.length)
        [')'] := by
  simp only [Expr.render, standsAt_append, List.length_append, List.length_singleton,
    ← Nat.add_assoc] at hs
  obtain ⟨⟨⟨⟨hopen, hbefore⟩, hinner⟩, hbehind⟩, hclose⟩ := hs
  exact ⟨hopen, hbefore, hinner, hbehind, hclose⟩

/-- An expression with parentheses around it is a `Row`, if the expression is. -/
theorem paren_row {before behind : Spacing} {inner : Expr} {i : Nat} {ks : List Element}
    (hs : StandsAt src i (Expr.paren before inner behind).render)
    (hks : Row src (i + 1 + before.text.length) inner.render ks) (o : Option String) :
    Row src i (Expr.paren before inner behind).render
      (.leaf (Leaf.found .balancedEnter i ['('] o) :: ks ++
        [.leaf (Leaf.found .balancedExit
          (i + 1 + (before.text ++ inner.render ++ behind.text).length) [')'] o)]) := by
  obtain ⟨hopen, hbefore, -, hbehind, hclose⟩ := standsAt_paren hs
  have hmiddle : i + (['('] ++ before.text ++ inner.render).length =
      i + 1 + before.text.length + inner.render.length := by
    simp only [List.length_append, List.length_singleton, ← Nat.add_assoc]
  have hend : i + 1 + (before.text ++ inner.render ++ behind.text).length =
      i + 1 + before.text.length + inner.render.length + behind.text.length := by
    simp only [List.length_append, ← Nat.add_assoc]
  rw [hend, ← hmiddle]
  rw [← hmiddle] at hbehind hclose
  have hfront := Row.leaf .balancedEnter o hopen (firm_of_any rfl) (by simp)
  have hback := Row.leaf .balancedExit o hclose (firm_of_any rfl) (by simp)
  have hinner := hfront.append before.accepted hbefore hks
  exact hinner.append behind.accepted hbehind hback

/-- A `paren` around an expression that is built is built. -/
theorem paren_builds {before behind : Spacing} {inner : Expr} {i lo hi : Nat} {m : Match}
    {es : List Element} (hs : StandsAt src i (Expr.paren before inner behind).render)
    (hm : Builds src options .expr m es) (hwide : m.isWide = true)
    (hes : Row src (i + 1 + before.text.length) inner.render es)
    (hlo : lo ≤ i + 1 + before.text.length)
    (hhi : i + 1 + before.text.length + inner.render.length ≤ hi ∧
      hi ≤ i + 1 + before.text.length + inner.render.length + behind.text.length) :
    ∃ ks, Builds src options .expr
        (nested i (i + (Expr.paren before inner behind).render.length)
          [("semilist", .one (Sketch.span lo hi
            [("statement", .many [Sketch.statement m []])] []))] ["circumfix"]) ks ∧
      Row src i (Expr.paren before inner behind).render ks := by
  have hrender : (Expr.paren before inner behind).render =
      ['('] ++ (before.text ++ inner.render ++ behind.text) ++ [')'] := by simp [Expr.render]
  obtain ⟨-, -, -, hbehind, -⟩ := standsAt_paren hs
  obtain ⟨ks, hks, hrow⟩ := semilist_builds hm hwide hes hbehind hhi.1 hhi.2 lo
  have hsemi :
      (Sketch.span lo hi [("statement", .many [Sketch.statement m []])] []).isWide = true := by
    have hpos : 0 < inner.render.length := List.length_pos_iff.mpr inner.render_ne_nil
    exact isWide_of_lt (by omega) _ _
  have hcircumfix := circumfix_reaches (f := ⟨src, .circumfix, _⟩) (hrender ▸ hs)
    (hrender ▸ (Expr.paren before inner behind).render_firm) rfl hsemi hks
  have hbranch := (paren_row hs hrow (some Production.circumfix.key)).branch .circumfixOperator
    (some Production.circumfix.key)
  rw [← hrender] at hcircumfix
  have hwide := isWide_span (i := i) (Expr.paren before inner behind).render_ne_nil
  exact ⟨_, passing_builds (by decide) (hwide _ _) (builds_of_reaches hcircumfix) _ _, hbranch⟩

/-- Where the parts of a `binary` stand. -/
theorem standsAt_binary {left right : Expr} {before behind : Spacing} {operator : Operator}
    {i j k : Nat} (hs : StandsAt src i (Expr.binary left before operator behind right).render)
    (hj : j = i + left.render.length + before.text.length)
    (hk : k = j + operator.text.length + behind.text.length) :
    StandsAt src i left.render ∧ StandsAt src (i + left.render.length) before.text ∧
      StandsAt src j operator.text ∧ StandsAt src (j + operator.text.length) behind.text ∧
      StandsAt src k right.render := by
  subst hk hj
  simp only [Expr.render, standsAt_append, List.length_append, ← Nat.add_assoc] at hs
  obtain ⟨⟨⟨⟨hleft, hbefore⟩, hop⟩, hbehind⟩, hright⟩ := hs
  exact ⟨hleft, hbefore, hop, hbehind, hright⟩

theorem binary_builds {left right : Expr} {before behind : Spacing} {operator : Operator}
    {i j k : Nat} {m n : Match} {es ls : List Element}
    (hs : StandsAt src i (Expr.binary left before operator behind right).render)
    (hj : j = i + left.render.length + before.text.length)
    (hk : k = j + operator.text.length + behind.text.length)
    (hm : Builds src options .expr m es) (hes : Row src i left.render es)
    (hn : Builds src options .expr n ls) (hls : Row src k right.render ls) :
    ∃ ks, Builds src options .expr
        (Sketch.span i (i + (Expr.binary left before operator behind right).render.length)
          [("infix", .one (Sketch.span j (j + operator.text.length) [] [])),
           ("OPER", .one (Sketch.span j (j + operator.text.length) [] []))] [m, n]) ks ∧
      Row src i (Expr.binary left before operator behind right).render ks := by
  have hfirm : operator.text.Firm := firm_of_any operator.solid
  have hwide := isWide_span (i := j) operator.ne_nil [] []
  have hstop : (i + (Expr.binary left before operator behind right).render.length : Int) =
      ((k + right.render.length : Nat) : Int) := by
    simp only [Expr.render, List.length_append]
    omega
  obtain ⟨-, hbefore, hop, hbehind, -⟩ := standsAt_binary hs hj hk
  have hleaf : Builds src options .infixOp (Sketch.span j (j + operator.text.length) [] [])
      [.leaf (Leaf.found .infixOperator j operator.text (some Production.infixOp.key))] :=
    builds_of_reaches (infixOp_reaches hop hfirm rfl)
  refine ⟨es ++
      .leaf (Leaf.found .infixOperator j operator.text (some Production.infixOp.key)) :: ls,
    builds_of_reaches ?_, ?_⟩
  · rw [hstop, infix_rule (infix_shape rfl hwide) rfl]
    exact infixChain_reaches hes hls operator.ne_nil (by omega) (by omega) rfl hwide hm hn hleaf _
  · have hrow := Row.leaf .infixOperator (some Production.infixOp.key) hop hfirm operator.ne_nil
    have hmiddle : i + (left.render ++ before.text ++ operator.text).length =
        j + operator.text.length := by
      simp only [List.length_append]
      omega
    subst hk hj
    have hfront := hes.append before.accepted hbefore hrow
    rw [← hmiddle] at hbehind hls
    have hall := hfront.append behind.accepted hbehind hls
    rwa [List.append_assoc es, List.singleton_append] at hall

/-! ### Expressions -/

/-- **Captured expressions are built.** What a grammar captures of an expression that stands in the
source comes to a `Row` of elements over its text. -/
theorem Surface.Expr.Captured.builds {e : Expr} {i : Nat} {m : Match} (h : e.Captured i m)
    (hs : StandsAt src i e.render) :
    ∃ es, Builds src options .expr m es ∧ Row src i e.render es := by
  induction h with
  | number digits i => exact number_builds digits hs
  | scalar name i =>
      obtain ⟨cls, hcls⟩ := variable_reaches (B := Builds src options)
        (f := ⟨src, .variableUse, _⟩) name hs rfl rfl
      have hwide := isWide_span (i := i) (Expr.scalar name).render_ne_nil
      exact ⟨_, passing_builds (by decide) (hwide _ _) (builds_of_reaches hcls) _ _,
        Row.leaf cls _ hs (Expr.scalar name).render_firm (Expr.scalar name).render_ne_nil⟩
  | @paren before behind inner i m lo hi hm hlo hhi ih =>
      obtain ⟨-, -, hinner, -, -⟩ := standsAt_paren hs
      obtain ⟨es, hes, hrow⟩ := ih hinner
      exact paren_builds hs hes hm.isWide hrow hlo.2 hhi
  | @binary left right before behind operator i j k m n hm hj hk hn ihm ihn =>
      obtain ⟨hleft, -, -, -, hright⟩ := standsAt_binary hs hj hk
      obtain ⟨es, hes, hrow⟩ := ihm hleft
      obtain ⟨ls, hls, hrow'⟩ := ihn hright
      exact binary_builds hs hj hk hes hrow hls hrow'

end RakuTree
