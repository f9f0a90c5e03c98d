import RakuTree.Rule.Quote
import RakuTree.Proofs.Complete.Surface

/-!
# RakuTree.Proofs.Quotes

Quotes are taken apart as they were put together.

No grammar takes a quote apart: adverbs, whitespace and delimiters are read off its text. A
`Surface.Quotation` is a quote with all of its parts, and says what keeps them apart from each
other: a word is not followed by more of a word or by parentheses that are not its own, and the body
does not make a single angle into a double one. What is read off the text of such a quote is what it
was put together from, whatever its body holds (`Quote.parts_render`).
-/

namespace RakuTree

/-! ### Quotes -/

namespace Surface

/-- The text `rest` can stand behind a word that has no arguments: it begins neither with a
character of a word nor with a parenthesis. -/
def Detached (rest : Text) : Prop := ∀ c ∈ rest.head?, Text.isWord c = false ∧ c ≠ '('

/-- The arguments of an `Adverb`. -/
structure Arguments where
  /-- The text between the parentheses. -/
  text : Text
  /-- The `text` does not close the parentheses: there is no `)` in it. -/
  unclosed : text.contains ')' = false

/-- An adverb of a quote, as in `q:to`. `Quote.adverb?` reads its text (`render`) as a whole. -/
structure Adverb where
  /-- Is there an exclamation mark in front of the word? -/
  negated : Bool
  /-- The word behind the colon and the mark. -/
  word : Text
  /-- The `word` is not empty. -/
  ne_nil : word ≠ []
  /-- The `word` holds characters of words only. -/
  isWord : word.all Text.isWord = true
  /-- The arguments, if it has any. -/
  arguments : Option Arguments

namespace Adverb

variable (a : Adverb)

/-- The exclamation mark, if the adverb is `negated`. -/
def mark : Text := if a.negated then ['!'] else []

/-- The `arguments` in their parentheses, if there are any. -/
def argumentsText : Text := (a.arguments.map fun x => '(' :: x.text ++ [')']).getD []

/-- The text of the adverb `a`, from its colon on. -/
def render : Text := ':' :: a.mark ++ a.word ++ a.argumentsText

end Adverb

/-- The opening delimiter of a `Quotation`. -/
inductive Opener
  /-- A double angle, `<<`. -/
  | angles
  /-- A single character `c`, which is neither whitespace nor the beginning of an adverb. -/
  | single (c : Char) (solid : Text.isSpace c = false) (ne_colon : c ≠ ':')

/-- The text of an opening delimiter. -/
def Opener.text : Opener → Text
  | angles => ['<', '<']
  | single c _ _ => [c]

/-- A quote with its parts, as `Quote.parts` is to find them in its text (`render`). -/
structure Quotation where
  /-- The quoting word, such as `qq`; it may be empty. -/
  lexeme : Text
  /-- The adverbs, each with the whitespace in front of it. -/
  adverbs : List (Blank × Adverb)
  /-- The whitespace in front of `opener`. -/
  lead : Blank
  /-- The opening delimiter. -/
  opener : Opener
  /-- The text between the delimiters; the closing one is that of `opener`, by `closerFor`. -/
  body : Text
  /-- The opening delimiter is not taken for a part of the adverb that it follows directly: it is
  `Detached`. -/
  apart : ∀ p ∈ adverbs.getLast?, p.2.arguments = none → lead.text = [] → Detached opener.text
  /-- A single angle is not taken for a double one: no other angle begins `body`. -/
  single : opener.text = ['<'] → body.head? ≠ some '<'

namespace Quotation

variable (q : Quotation)

/-- The text of the adverbs, and whitespace in front of each. -/
def adverbsText : Text := q.adverbs.flatMap fun p => p.1.text ++ p.2.render

/-- The text of the quote `q` from its opening delimiter on. -/
def inside : Text := q.opener.text ++ (q.body ++ closerFor q.opener.text)

/-- The text of the quote `q`. -/
def render : Text := q.lexeme ++ (q.adverbsText ++ (q.lead.text ++ q.inside))

end Quotation

end Surface

/-! ### Whitespace and words -/

namespace Text

/-- The code points of whitespace, of which there are few enough to try (`isWord_of_isSpace`). -/
def spaces : List Nat :=
  List.range' 0x09 5 ++ List.range' 0x1c 5 ++ List.range' 0x2000 11 ++
    [0x85, 0xa0, 0x1680, 0x2028, 0x2029, 0x202f, 0x205f, 0x3000]

theorem toNat_mem_spaces {c : Char} (h : isSpace c = true) : c.toNat ∈ spaces := by
  simp only [isSpace, Bool.or_eq_true, Bool.and_eq_true, decide_eq_true_eq, beq_iff_eq] at h
  simp only [spaces, List.mem_append, List.mem_range'_1, List.mem_cons, List.not_mem_nil, or_false]
  omega

/-- Whitespace, by `isSpace`, is no part of a word. -/
theorem isWord_of_isSpace {c : Char} (h : isSpace c = true) : isWord c = false := by
  have hall : ∀ n ∈ spaces, isWord (Char.ofNat n) = false := by decide +kernel
  have hc := hall c.toNat (toNat_mem_spaces h)
  rwa [Char.ofNat_toNat] at hc

end Text

/-! ### Reading adverbs -/

namespace Quote

open Surface

variable {rest : Text}

theorem takeWhile_append_of_head? {p : Char → Bool} {s : Text} (hs : s.all p = true)
    (hrest : ∀ c ∈ rest.head?, p c = false) : (s ++ rest).takeWhile p = s := by
  rw [List.takeWhile_append_of_pos (List.all_eq_true.mp hs)]
  cases rest with
  | nil => rw [List.takeWhile_nil, List.append_nil]
  | cons c rest =>
      rw [List.takeWhile_cons_of_neg (by simp [hrest c rfl]), List.append_nil]

theorem arguments_of_head? (h : rest.head? ≠ some '(') : arguments rest = [] := by
  unfold arguments
  split
  · exact absurd rfl h
  · rfl

/-- Arguments are read up to the parenthesis that closes them, by `Quote.arguments`. -/
theorem arguments_render (a : Adverb) (h : a.arguments = none → Detached rest) :
    arguments (a.argumentsText ++ rest) = a.argumentsText := by
  rw [Adverb.argumentsText]
  cases hx : a.arguments with
  | none =>
      refine arguments_of_head? fun hparen => ?_
      exact (h hx '(' hparen).2 rfl
  | some x =>
      have hinside : x.text.all (· != ')') = true := by
        have hx := x.unclosed
        simp only [List.contains_eq_mem, decide_eq_false_iff_not] at hx
        simp only [List.all_eq_true, bne_iff_ne]
        exact fun c hc heq => hx (heq ▸ hc)
      have htake : (x.text ++ ')' :: rest).takeWhile (· != ')') = x.text :=
        takeWhile_append_of_head? hinside fun c hc => by
          cases hc
          rfl
      simp only [Option.map_some, Option.getD_some, List.cons_append, List.append_assoc,
        List.nil_append, arguments, htake]
      rw [if_pos]
      rw [List.length_append, List.length_cons]
      omega

/-- The word of the adverb `a` ends where its arguments or what is behind it begin. -/
theorem takeWhile_word (a : Adverb) (h : a.arguments = none → Detached rest) :
    (a.word ++ (a.argumentsText ++ rest)).takeWhile Text.isWord = a.word := by
  refine takeWhile_append_of_head? a.isWord fun c hc => ?_
  rw [Adverb.argumentsText] at hc
  cases hx : a.arguments with
  | none =>
      rw [hx] at hc
      exact (h hx c hc).1
  | some x =>
      rw [hx] at hc
      obtain rfl : '(' = c := Option.some.inj hc
      decide

/-- The exclamation mark of `a` is not taken for a part of its word, nor the other way round. -/
theorem mark_render (a : Adverb) (rest : Text) :
    (if (a.mark ++ (a.word ++ rest)).head? = some '!' then ['!'] else []) = a.mark := by
  rw [Adverb.mark]
  cases a.negated with
  | true => rfl
  | false =>
      obtain ⟨c, word, hword⟩ := List.exists_cons_of_ne_nil a.ne_nil
      have hc : Text.isWord c = true := by
        have hall := a.isWord
        rw [hword, List.all_cons, Bool.and_eq_true] at hall
        exact hall.1
      refine if_neg fun hhead => ?_
      rw [hword] at hhead
      obtain rfl : c = '!' := Option.some.inj hhead
      exact absurd hc (by decide)

/-- The adverb `a` is read as a whole, and nothing behind it, by `Quote.adverb?`. -/
theorem adverb?_render (a : Adverb) (h : a.arguments = none → Detached rest) :
    adverb? (a.render ++ rest) = some a.render := by
  have htext : a.render ++ rest = ':' :: (a.mark ++ (a.word ++ (a.argumentsText ++ rest))) := by
    simp only [Adverb.render, List.cons_append, List.append_assoc]
  have hword : a.word.isEmpty = false := by
    rw [List.isEmpty_eq_false_iff]
    exact a.ne_nil
  rw [htext]
  simp only [adverb?, mark_render, List.drop_left, takeWhile_word a h, arguments_render a h, hword,
    Bool.false_eq_true, if_false]
  rfl

/-- Whitespace `b` in front is passed over. -/
theorem trimLeft_append (b : Blank) {s : Text} (hs : ∀ c ∈ s.head?, Text.isSpace c = false) :
    Text.trimLeft (b.text ++ s) = s := by
  rw [Text.trimLeft, List.dropWhile_append_of_pos (List.all_eq_true.mp b.space)]
  cases s with
  | nil => rfl
  | cons c s => rw [List.dropWhile_cons_of_neg (by simp [hs c rfl])]

/-- What does not begin with a colon is no adverb, for `Quote.adverb?`. -/
theorem adverb?_of_head? {s : Text} (h : s.head? ≠ some ':') : adverb? s = none := by
  unfold adverb?
  split
  · exact absurd rfl h
  · rfl

/-- Whitespace can stand behind a word, with anything behind it: it is `Detached`. -/
theorem detached_append (b : Blank) (h : b.text = [] → Detached rest) :
    Detached (b.text ++ rest) := by
  intro c hc
  cases hb : b.text with
  | nil =>
      rw [hb] at hc
      exact h hb c hc
  | cons d s =>
      rw [hb] at hc
      obtain rfl : d = c := Option.some.inj hc
      have hall := b.space
      rw [hb, List.all_cons, Bool.and_eq_true] at hall
      refine ⟨Text.isWord_of_isSpace hall.1, ?_⟩
      rintro rfl
      exact absurd hall.1 (by decide)

theorem detached_render (a : Adverb) (rest : Text) : Detached (a.render ++ rest) := by
  intro c hc
  obtain rfl : ':' = c := Option.some.inj hc
  decide

theorem adverbs_of_none (h : adverb? (Text.trimLeft rest) = none) : adverbs rest = ([], rest) := by
  rw [adverbs]
  split
  · rfl
  · next a ha =>
      rw [h] at ha
      cases ha

theorem adverbs_of_some {a : Text} (h : adverb? (Text.trimLeft rest) = some a) :
    adverbs rest = (a :: (adverbs ((Text.trimLeft rest).drop a.length)).1,
      (adverbs ((Text.trimLeft rest).drop a.length)).2) := by
  rw [adverbs]
  split
  · next hnone =>
      rw [h] at hnone
      cases hnone
  · next b hb =>
      obtain rfl : a = b := Option.some.inj (h.symm.trans hb)
      rfl

/-- Adverbs are read one after the other by `Quote.adverbs`, up to what is none. -/
theorem adverbs_render (as : List (Blank × Adverb))
    (hlast : ∀ p ∈ as.getLast?, p.2.arguments = none → Detached rest)
    (hrest : adverb? (Text.trimLeft rest) = none) :
    adverbs ((as.flatMap fun p => p.1.text ++ p.2.render) ++ rest) =
      (as.map fun p => p.2.render, rest) := by
  induction as with
  | nil => exact adverbs_of_none hrest
  | cons p as ih =>
      obtain ⟨b, a⟩ := p
      have hbehind : a.arguments = none →
          Detached ((as.flatMap fun p => p.1.text ++ p.2.render) ++ rest) := by
        intro hnone
        cases as with
        | nil => exact hlast (b, a) rfl hnone
        | cons q as =>
            rw [List.flatMap_cons, List.append_assoc, List.append_assoc]
            exact detached_append q.1 fun _ => detached_render q.2 _
      have htail : ∀ p ∈ as.getLast?, p.2.arguments = none → Detached rest := by
        intro p hp
        refine hlast p ?_
        rw [List.getLast?_cons, Option.mem_def.mp hp]
        rfl
      have htrim : Text.trimLeft (((b, a) :: as).flatMap (fun p => p.1.text ++ p.2.render) ++ rest)
          = a.render ++ ((as.flatMap fun p => p.1.text ++ p.2.render) ++ rest) := by
        rw [List.flatMap_cons, List.append_assoc, List.append_assoc]
        refine trimLeft_append b fun c hc => ?_
        obtain rfl : ':' = c := Option.some.inj hc
        decide
      rw [adverbs_of_some (a := a.render) (by rw [htrim, adverb?_render a hbehind]), htrim,
        List.drop_left, ih htail]
      rfl

/-! ### Reading quotes -/

/-- Only a double angle begins like one: a single angle is followed by `body`, which begins with no
other angle, or by its closing delimiter. -/
theorem opener_render (q : Quotation) :
    (if ['<', '<'].isPrefixOf q.inside then ['<', '<'] else q.inside.take 1) = q.opener.text := by
  rw [Quotation.inside]
  cases ho : q.opener with
  | angles => rfl
  | single c solid ne_colon =>
      refine if_neg fun hangles => ?_
      obtain ⟨t, ht⟩ := List.isPrefixOf_iff_prefix.mp hangles
      obtain ⟨rfl, hbehind⟩ := List.cons.inj ht
      have hbody := q.single (by rw [ho]; rfl)
      cases hb : q.body with
      | nil =>
          rw [hb] at hbehind
          cases hbehind
      | cons d body =>
          rw [hb] at hbehind hbody
          obtain ⟨rfl, -⟩ := List.cons.inj hbehind
          exact hbody rfl

/-- The first character of `inside` is neither whitespace nor the beginning of an adverb. -/
theorem head?_inside (q : Quotation) :
    ∃ c, q.inside.head? = some c ∧ Text.isSpace c = false ∧ c ≠ ':' := by
  rw [Quotation.inside]
  cases q.opener with
  | angles => exact ⟨'<', rfl, by decide, by decide⟩
  | single c solid ne_colon => exact ⟨c, rfl, solid, ne_colon⟩

/-- What stands behind the adverbs of `q` does not continue the last one: it is `Detached`. -/
theorem detached_inside (q : Quotation) :
    ∀ p ∈ q.adverbs.getLast?, p.2.arguments = none → Detached (q.lead.text ++ q.inside) := by
  intro p hp hnone
  refine detached_append q.lead fun hlead c hc => ?_
  refine q.apart p hp hnone hlead c ?_
  rw [Quotation.inside] at hc
  cases ho : q.opener with
  | angles =>
      rw [ho] at hc
      exact hc
  | single d solid ne_colon =>
      rw [ho] at hc
      exact hc

/-- A quote is taken apart by `Quote.parts` into what it was put together from. -/
theorem parts_render (q : Quotation) :
    parts q.render q.lexeme =
      { adverbs := q.adverbs.map fun p => p.2.render, opener := q.opener.text,
        closer := closerFor q.opener.text, body := q.body } := by
  obtain ⟨c, hhead, hsolid, hcolon⟩ := head?_inside q
  have htrim : Text.trimLeft (q.lead.text ++ q.inside) = q.inside := by
    refine trimLeft_append q.lead fun d hd => ?_
    obtain rfl : c = d := Option.some.inj (hhead.symm.trans hd)
    exact hsolid
  have hnone : adverb? (Text.trimLeft (q.lead.text ++ q.inside)) = none := by
    rw [htrim]
    refine adverb?_of_head? fun h => hcolon ?_
    exact Option.some.inj (hhead.symm.trans h)
  have hadverbs : adverbs (q.render.drop q.lexeme.length) =
      (q.adverbs.map fun p => p.2.render, q.lead.text ++ q.inside) := by
    rw [Quotation.render, List.drop_left]
    exact adverbs_render q.adverbs (detached_inside q) hnone
  have hbehind : q.inside.drop q.opener.text.length = q.body ++ closerFor q.opener.text := by
    rw [Quotation.inside, List.drop_left]
  have hcloser : (closerFor q.opener.text).isSuffixOf (q.body ++ closerFor q.opener.text) = true :=
    List.isSuffixOf_iff_suffix.mpr (List.suffix_append _ _)
  have hlength : (q.body ++ closerFor q.opener.text).length - (closerFor q.opener.text).length =
      q.body.length := by
    rw [List.length_append, Nat.add_sub_cancel]
  simp only [parts, hadverbs, htrim, opener_render, hbehind, hcloser, hlength, List.take_left,
    if_true]

end Quote

namespace Rule

open Surface

/-- Where no adverb is in `Quote.hereDocAdverbs`, a quote comes to a leaf over its match or to
nothing. -/
theorem quoted_eq_leaf (f : Frame) (cls : StringClass) (lexeme : Text)
    (hdoc : (Quote.parts f.text lexeme).adverbs.any Quote.hereDocAdverbs.contains = false) :
    quoted f cls lexeme [] =
      (f.leaf (.string cls) f.self {
        lexeme, opener := (Quote.parts f.text lexeme).opener,
        closer := (Quote.parts f.text lexeme).closer,
        adverbs := (Quote.parts f.text lexeme).adverbs,
        body := (Quote.parts f.text lexeme).body }).bind fun l => pure [.leaf l] := by
  simp only [quoted, List.isEmpty_nil, if_true, hdoc, Bool.false_eq_true, if_false]
  rfl

/-- A quote that `q` renders, without here-doc, becomes one leaf, which stands where its match
stands and has the parts of `q`. Only a match whose range no node can have, because it is below zero
or out of order, becomes none, whatever its text. -/
theorem quoted_render (f : Frame) (cls : StringClass) (q : Quotation) (htext : f.text = q.render)
    (hdoc : ∀ p ∈ q.adverbs, p.2.render ∉ Quote.hereDocAdverbs) :
    (∀ (nonneg : 0 ≤ f.self.start) (ordered : f.self.start ≤ f.self.stop),
      quoted f cls q.lexeme [] = pure [.leaf {
        cls := .string cls, span := ⟨f.self.start, f.self.stop, nonneg, ordered⟩,
        content := q.render, origin := f.origin,
        quoting := {
          lexeme := q.lexeme, opener := q.opener.text, closer := closerFor q.opener.text,
          adverbs := q.adverbs.map fun p => p.2.render, body := q.body, hereDoc := none } }]) ∧
    (¬ (0 ≤ f.self.start ∧ f.self.start ≤ f.self.stop) →
      quoted f cls q.lexeme [] =
        .fail (.element (.invalidRange (.leaf (.string cls)) f.self.start f.self.stop))) := by
  have hparts : Quote.parts f.text q.lexeme = _ := htext ▸ Quote.parts_render q
  have hadverbs :
      (Quote.parts f.text q.lexeme).adverbs.any Quote.hereDocAdverbs.contains = false := by
    rw [hparts, List.any_map, List.any_eq_false]
    intro p hp hcontains
    exact hdoc p hp (List.contains_iff_mem.mp hcontains)
  have hslice : Text.slice f.src f.self.start f.self.stop = q.render := htext
  rw [quoted_eq_leaf f cls q.lexeme hadverbs, hparts, Frame.leaf, Leaf.covering, Leaf.make,
    Span.make, Span.of?, hslice]
  refine ⟨fun nonneg ordered => ?_, fun hrange => ?_⟩
  · rw [dif_pos ⟨nonneg, ordered⟩]
    rfl
  · rw [dif_neg hrange]
    rfl

/-- The adverb `:!s(a:b)`. -/
def sampleNegated : Adverb where
  negated := true
  word := ['s']
  ne_nil := List.cons_ne_nil _ _
  isWord := rfl
  arguments := some ⟨['a', ':', 'b'], rfl⟩

/-- The adverb `:w`. -/
def sampleWord : Adverb where
  negated := false
  word := ['w']
  ne_nil := List.cons_ne_nil _ _
  isWord := rfl
  arguments := none

theorem detached_angle : Detached ['<'] := by
  intro c hc
  obtain rfl : '<' = c := Option.some.inj hc
  decide

/-- The quote `q:!s(a:b) :w<x > y>>`. -/
def sampleQuotation : Quotation where
  lexeme := ['q']
  adverbs := [(⟨[], rfl⟩, sampleNegated), (⟨[' '], rfl⟩, sampleWord)]
  lead := ⟨[], rfl⟩
  opener := .single '<' rfl (by decide)
  body := ['x', ' ', '>', ' ', 'y', '>']
  apart _ _ _ _ := detached_angle
  single _ := by decide

/-- The quote `sampleQuotation` in a statement. -/
def sampleQuoted : Frame :=
  ⟨['s', 'a', 'y', ' '] ++ sampleQuotation.render ++ [';'], .quote, .plain 4 24⟩

theorem sampleQuoted_render :
    (sampleQuoted.text = "q:!s(a:b) :w<x > y>>".toList ∧
      sampleQuoted.text = sampleQuotation.render ∧
      (∀ p ∈ sampleQuotation.adverbs, p.2.render ∉ Quote.hereDocAdverbs)) ∧
    quoted sampleQuoted .escaping ['q'] [] = pure [.leaf {
      cls := .string .escaping, span := ⟨4, 24, by decide, by decide⟩,
      content := "q:!s(a:b) :w<x > y>>".toList, origin := some "quote",
      quoting := {
        lexeme := ['q'], opener := ['<'], closer := ['>'],
        adverbs := [":!s(a:b)".toList, ":w".toList], body := "x > y>".toList } }] := by
  have htext : sampleQuoted.text = sampleQuotation.render := by decide
  have hdoc : ∀ p ∈ sampleQuotation.adverbs, p.2.render ∉ Quote.hereDocAdverbs := by
    intro p hp
    rcases List.mem_cons.mp hp with rfl | hp
    · decide
    · obtain rfl := List.mem_singleton.mp hp
      decide
  refine ⟨⟨by decide, htext, hdoc⟩, ?_⟩
  exact (quoted_render sampleQuoted .escaping sampleQuotation htext hdoc).1 (by decide) (by decide)

/-- The quote `'a'`. -/
def sampleBare : Quotation where
  lexeme := []
  adverbs := []
  lead := ⟨[], rfl⟩
  opener := .single '\'' rfl (by decide)
  body := ['a']
  apart _ hp := by cases hp
  single h := by cases h

/-- The quote `sampleBare`, by a match that counts from the end of its source. -/
def sampleBelowZero : Frame := ⟨sampleBare.render, .quote, .plain (-3) 3⟩

/-- The match has the text of a quote, but no node stands below zero. -/
theorem quoted_below_zero :
    sampleBelowZero.text = sampleBare.render ∧
      ∀ es, quoted sampleBelowZero .escaping sampleBare.lexeme [] ≠ pure es := by
  have htext : sampleBelowZero.text = sampleBare.render := by decide
  refine ⟨htext, fun es h => ?_⟩
  rw [quoted_eq_leaf sampleBelowZero .escaping sampleBare.lexeme
    (by rw [htext, Quote.parts_render]; rfl)] at h
  cases h

end Rule

end RakuTree
