import RakuTree.Frame

/-!
# RakuTree.Rule.Quote

Quotes. A quote is one leaf. Its class comes from the quoting word (`q` and the
modifier `w` make `qw`) or, for bare quotes, from the opening delimiter.

The text of a quote is taken apart without help from the grammar (`Quote.parts`):
the quoting word, adverbs, whitespace, the opening delimiter, the body, the closing
delimiter. A here-doc is looked up as soon as its quote is seen.
-/

namespace RakuTree

/-! ### Taking quotes apart -/

namespace Quote

/-- Quoting words with the class of their quotes, in code point order, `q` and `qq` among them. -/
def wordClasses : List (Text × StringClass) :=
  [(['Q'], .literal), (['Q', 'w'], .literalWords), (['Q', 'x'], .literalShell),
   (['q'], .escaping), (['q', 'q'], .interpolating), (['q', 'q', 'w'], .interpolatingWords),
   (['q', 'q', 'w', 'w'], .interpolatingWordsProtected), (['q', 'q', 'x'], .interpolatingShell),
   (['q', 'w'], .escapingWords), (['q', 'w', 'w'], .escapingWordsProtected),
   (['q', 'x'], .escapingShell)]

/-- Opening delimiters of bare quotes with the class of their quotes, in code point order. -/
def delimiterClasses : List (Text × StringClass) :=
  [(['"'], .interpolating), (['\''], .escaping), (['/'], .regex), (['‘'], .escaping),
   (['“'], .interpolating), (['｢'], .literal)]

/-- Quoting words of regexes with the class of their quotes, in code point order, such as `rx`. -/
def regexClasses : List (Text × StringClass) :=
  [(['S'], .substitution), (['T', 'R'], .transliteration), (['m'], .regex), (['m', 's'], .regex),
   (['r', 'x'], .regex), (['s'], .substitution), (['s', 's'], .substitution),
   (['t', 'r'], .transliteration)]

/-- Adverbs that make a quote a here-doc, as in `q:to`. -/
def hereDocAdverbs : List Text := [[':', 't', 'o'], ":heredoc".toList]

/-- Arguments in parentheses at the beginning of `rest`, up to the first closing
parenthesis; empty when there are none. -/
def arguments : Text → Text
  | '(' :: rest =>
    let inside := rest.takeWhile (· != ')')
    if inside.length < rest.length then '(' :: inside ++ [')'] else []
  | _ => []

/-- The adverb at the beginning of `rest`: a colon, perhaps an exclamation mark, a
word, perhaps arguments. -/
def adverb? : Text → Option Text
  | ':' :: rest =>
    let mark := if rest.head? = some '!' then ['!'] else []
    let tail := rest.drop mark.length
    let word := tail.takeWhile Text.isWord
    if word.isEmpty then none
    else some (':' :: mark ++ word ++ arguments (tail.drop word.length))
  | _ => none

/-- An adverb that `adverb?` finds takes at least one character. -/
theorem length_adverb? {s a : Text} (h : adverb? s = some a) : 0 < a.length ∧ 0 < s.length := by
  unfold adverb? at h
  split at h
  · simp only [Option.ite_none_left_eq_some, Option.some.injEq] at h
    obtain ⟨-, rfl⟩ := h
    simp
  · simp at h

/-- Trimming never makes a text longer. -/
theorem length_trimLeft_le (s : Text) : (Text.trimLeft s).length ≤ s.length :=
  (List.dropWhile_suffix Text.isSpace).length_le

/-- The adverbs at the beginning of `rest`, each with whitespace in front, and what
follows them. -/
def adverbs (rest : Text) : List Text × Text :=
  match _h : adverb? (Text.trimLeft rest) with
  | none => ([], rest)
  | some a =>
    let (as, behind) := adverbs ((Text.trimLeft rest).drop a.length)
    (a :: as, behind)
termination_by rest.length
decreasing_by
  have := length_adverb? _h
  have := length_trimLeft_le rest
  simp only [List.length_drop]
  omega

/-- The parts of a quote, as `Quote.parts` finds them in its text. -/
structure Parts where
  /-- Adverbs between the quoting word and the opening delimiter. -/
  adverbs : List Text
  /-- The opening delimiter. -/
  opener : Text
  /-- The closing delimiter. -/
  closer : Text
  /-- The text between the delimiters. -/
  body : Text
  deriving Repr, DecidableEq

/-- Takes the text of a quote apart, its quoting word being `lexeme`. The closing
delimiter is only cut off where it does not overlap the opening one. -/
def parts (text lexeme : Text) : Parts :=
  let (adverbs, rest) := adverbs (text.drop lexeme.length)
  let quote := Text.trimLeft rest
  let opener := if ['<', '<'].isPrefixOf quote then ['<', '<'] else quote.take 1
  let closer := closerFor opener
  let inside := quote.drop opener.length
  let body :=
    if closer.isSuffixOf inside then inside.take (inside.length - closer.length) else inside
  { adverbs, opener, closer, body }

end Quote

/-! ### Rules -/

namespace Rule

/-- A quote as one leaf. Adverbs that the grammar `captured` win over those in the text. -/
def quoted (f : Frame) (cls : StringClass) (lexeme : Text) (captured : List Text) :
    Plan f (List Element) := do
  let parts := Quote.parts f.text lexeme
  let adverbs := if captured.isEmpty then parts.adverbs else captured
  let hereDoc ←
    if adverbs.any Quote.hereDocAdverbs.contains then
      Plan.hereDoc (Text.trim parts.body) fun lines => pure (some lines)
    else pure none
  return [.leaf (← f.leaf (.string cls) f.self
    { lexeme, opener := parts.opener, closer := parts.closer, adverbs, body := parts.body,
      hereDoc })]

/-- A quote of any form: one of the quoting words, or a bare delimiter (`quoted`). -/
def quote : Rule := fun f => do
  let s := f.shape
  let sym := f.textOf "sym"
  if s.fits [] ["nibble"] then
    match Quote.delimiterClasses.lookup (f.text.take 1) with
    | some cls => quoted f cls [] []
    | none => f.refuse ("unknown quote delimiter " ++ Text.quoted (f.text.take 1))
  else if s.fits ["sym", "quibble"] ["quote_mod"] && (Quote.regexClasses.lookup sym).isNone then
    let lexeme := sym ++ f.textOf "quote_mod"
    match Quote.wordClasses.lookup lexeme with
    | some cls =>
      let adverbs ← f.buildKey .quibble
      quoted f cls lexeme (adverbs.filterMap Element.content?)
    | none => f.refuse ("unknown quoting lexeme " ++ Text.quoted lexeme)
  else
    match Quote.regexClasses.lookup sym with
    | some cls =>
      if s.fits ["sym", "quibble"] ["rx_adverbs"] || s.fits ["sym", "sibble"] ["rx_adverbs"] ||
          s.fits ["sym", "tribble"] ["rx_adverbs"] then
        quoted f cls sym []
      else f.unhandled
    | none => f.unhandled

/-- The inside of a quote: its adverbs, as `babble` has them. -/
def quibble : Rule := fun f =>
  if f.shape.fits ["babble"] ["nibble"] then f.buildKey .babble
  else if f.shape.fits [] ["nibble"] then pure []
  else f.unhandled

/-- The adverbs of a quote, one after the other (`quotepair`). -/
def babble : Rule := fun f =>
  if f.shape.fits ["quotepair"] ["B"] then f.buildAll .quotepair (f.each "quotepair")
  else if f.shape.fits [] ["B"] then pure []
  else f.unhandled

/-- One adverb, such as `:to`. -/
def quotepair : Rule := fun f =>
  if f.shape.fits ["identifier"] ["circumfix", "num"] then f.trimmed .adverb f.self
  else f.unhandled

/-- The words of a text with their offsets. `word` is the part of a word that was
read before `rest`, reversed, and `i` the offset of `rest`. -/
def wordsFrom (i : Nat) (word : Text) : Text → List (Nat × Text)
  | [] => if word.isEmpty then [] else [(i - word.length, word.reverse)]
  | c :: cs =>
    if Text.isSpace c then
      if word.isEmpty then wordsFrom (i + 1) [] cs
      else (i - word.length, word.reverse) :: wordsFrom (i + 1) [] cs
    else wordsFrom (i + 1) (c :: word) cs

/-- One bareword for each word, with its offset in the match. -/
def barewords (f : Frame) : List (Nat × Text) → Plan f (List Element)
  | [] => pure []
  | (i, word) :: ws => do
    let l ← f.leafAt .bareword (f.self.start + i) word
    return .leaf l :: (← barewords f ws)

/-- The inside of a word list, split at whitespace into `barewords`, or of a regex. -/
def nibble : Rule := fun f =>
  if f.shape.is ["termseq"] then f.buildKey .termseq
  else if f.shape.is [] then barewords f (wordsFrom 0 [] f.text)
  else f.unhandled

end Rule

end RakuTree
