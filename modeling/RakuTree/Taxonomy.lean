import RakuTree.Text.Basic

/-!
# RakuTree.Taxonomy

The closed set of node classes a document tree is made of.

* Every class belongs to at most one **kind**: a leaf has text, a branch has
  children, a contextualizer (`$( … )`) has both.
* Variables are not listed one by one: a sigil and an optional twigil name the
  class, so `$*x` is of class `ScalarDynamic`.
* A class may refine others (`Class.parents`); `Class.ancestors` closes this up.
-/

namespace RakuTree

/-! ### Kinds -/

/-- What a node has: text, children, or both. -/
inductive Kind
  /-- Text and no children. -/
  | leaf
  /-- Children and no text. -/
  | branch
  /-- Text followed by children. -/
  | contextualizer
  deriving Repr, DecidableEq

/-- The name of a `Kind`. -/
def Kind.name : Kind → String
  | leaf => "LEAF"
  | branch => "BRANCH"
  | contextualizer => "CONTEXTUALIZER"

/-! ### Variables -/

/-- The first character of a variable, as in `$x`. -/
inductive Sigil
  /-- `$` -/
  | scalar
  /-- `@` -/
  | array
  /-- `%` -/
  | hash
  /-- `&` -/
  | callable
  deriving Repr, DecidableEq

namespace Sigil

/-- All sigils. -/
def all : List Sigil := [scalar, array, hash, callable]

/-- The character of a sigil, from which `ofText?` reads it. -/
def char : Sigil → Char
  | scalar => '$'
  | array => '@'
  | hash => '%'
  | callable => '&'

/-- The name of the `VariableClass` of variables with this sigil and no twigil. -/
def name : Sigil → String
  | scalar => "Scalar"
  | array => "Array"
  | hash => "Hash"
  | callable => "Callable"

/-- The sigil that `s` spells, if it is one. -/
def ofText? (s : Text) : Option Sigil := all.find? fun g => s == [g.char]

end Sigil

/-- The second character of a variable with a special scope, as in `$*x`. -/
inductive Twigil
  /-- `*`: looked up in the caller. -/
  | dynamic
  /-- `!`: a private attribute. -/
  | privateAttribute
  /-- `.`: an attribute with an accessor. -/
  | accessor
  /-- `?`: known at compile time. -/
  | compileTime
  /-- `<`: a capture of the last match. -/
  | matchIndex
  /-- `^`: a positional placeholder. -/
  | positional
  /-- `:`: a named placeholder. -/
  | named
  /-- `=`: a documentation block. -/
  | pod
  /-- `~`: a language braided into this one. -/
  | subLanguage
  deriving Repr, DecidableEq

namespace Twigil

/-- All twigils. -/
def all : List Twigil :=
  [dynamic, privateAttribute, accessor, compileTime, matchIndex, positional, named, pod, subLanguage]

/-- The character of a twigil, behind that of the sigil. -/
def char : Twigil → Char
  | dynamic => '*'
  | privateAttribute => '!'
  | accessor => '.'
  | compileTime => '?'
  | matchIndex => '<'
  | positional => '^'
  | named => ':'
  | pod => '='
  | subLanguage => '~'

/-- What a twigil adds to the name of a `VariableClass`. -/
def name : Twigil → String
  | dynamic => "Dynamic"
  | privateAttribute => "Attribute"
  | accessor => "Accessor"
  | compileTime => "CompileTime"
  | matchIndex => "MatchIndex"
  | positional => "Positional"
  | named => "Named"
  | pod => "Pod"
  | subLanguage => "SubLanguage"

end Twigil

/-- The classes of variables, a family for each `Sigil`. -/
inductive VariableClass
  /-- A variable of no particular sigil. -/
  | plain
  /-- A variable with a `sigil` and perhaps a `twigil`. -/
  | sigiled (sigil : Sigil) (twigil : Option Twigil)
  deriving Repr, DecidableEq

namespace VariableClass

/-- The classes with a sigil, a family for each of `Sigil.all`. -/
def sigiledClasses : List VariableClass :=
  Sigil.all.flatMap fun s => sigiled s none :: Twigil.all.map fun t => sigiled s (some t)

/-- All classes of variables. -/
def all : List VariableClass := plain :: sigiledClasses

/-- The name of a `VariableClass`. -/
def name : VariableClass → String
  | plain => "Variable"
  | sigiled s none => s.name
  | sigiled s (some t) => s.name ++ t.name

/-- The sigil as text; empty for `plain`. -/
def sigilText : VariableClass → Text
  | plain => []
  | sigiled s _ => [s.char]

/-- The twigil as text; empty without one. -/
def twigilText : VariableClass → Text
  | plain => []
  | sigiled _ t => (t.map Twigil.char).toList

/-- The class for a spelled sigil and twigil, e.g. `@!`. -/
def ofText? (s : Text) : Option VariableClass :=
  sigiledClasses.find? fun c => c.sigilText ++ c.twigilText == s

end VariableClass

/-! ### Numbers and strings -/

/-- The classes of numbers, one for each notation. -/
inductive NumberClass
  /-- A number of no particular notation. -/
  | number
  /-- `0b101` -/
  | binary
  /-- `0o17` -/
  | octal
  /-- `42` -/
  | decimal
  /-- `0d42` -/
  | explicitDecimal
  /-- `0xff` -/
  | hexadecimal
  /-- `:36<zz>` -/
  | radix
  /-- `1e5` -/
  | floatingPoint
  /-- `2i` -/
  | imaginary
  /-- `NaN` -/
  | nan
  /-- `Inf` -/
  | infinity
  deriving Repr, DecidableEq

namespace NumberClass

/-- All classes of numbers. -/
def all : List NumberClass :=
  [number, binary, octal, decimal, explicitDecimal, hexadecimal, radix, floatingPoint, imaginary,
   nan, infinity]

/-- The name of a `NumberClass`. -/
def name : NumberClass → String
  | number => "Number"
  | binary => "BinaryNumber"
  | octal => "OctalNumber"
  | decimal => "DecimalNumber"
  | explicitDecimal => "ExplicitDecimalNumber"
  | hexadecimal => "HexadecimalNumber"
  | radix => "RadixNumber"
  | floatingPoint => "FloatingPointNumber"
  | imaginary => "ImaginaryNumber"
  | nan => "NaNNumber"
  | infinity => "InfinityNumber"

/-- The base the notation fixes; `radix` leaves it open. -/
def base? : NumberClass → Option Nat
  | binary => some 2
  | octal => some 8
  | decimal | explicitDecimal | floatingPoint => some 10
  | hexadecimal => some 16
  | _ => none

/-- The class that this `NumberClass` refines, if there is one among the numbers. -/
def parent? : NumberClass → Option NumberClass
  | number => none
  | explicitDecimal => some decimal
  | _ => some number

end NumberClass

/-- The classes of quoted strings, quoted regexes included. -/
inductive StringClass
  /-- A string of no particular quoting. -/
  | string
  /-- `q` and `'…'`: backslash escapes only. -/
  | escaping
  /-- `qw` and `<…>`: a list of words. -/
  | escapingWords
  /-- `qww`: a list of words that keeps quotes together. -/
  | escapingWordsProtected
  /-- `qx`: run by the shell. -/
  | escapingShell
  /-- `qq` and `"…"`: variables are filled in. -/
  | interpolating
  /-- `qqw` and `«…»` -/
  | interpolatingWords
  /-- `qqww` -/
  | interpolatingWordsProtected
  /-- `qqx` -/
  | interpolatingShell
  /-- `Q` and `｢…｣`: no escapes at all. -/
  | literal
  /-- `Qw` -/
  | literalWords
  /-- `Qx` -/
  | literalShell
  /-- `rx`, `m`, `ms` and `/…/` -/
  | regex
  /-- `s`, `S`, `ss` -/
  | substitution
  /-- `tr`, `TR` -/
  | transliteration
  deriving Repr, DecidableEq

namespace StringClass

/-- All classes of strings. -/
def all : List StringClass :=
  [string, escaping, escapingWords, escapingWordsProtected, escapingShell, interpolating,
   interpolatingWords, interpolatingWordsProtected, interpolatingShell, literal, literalWords,
   literalShell, regex, substitution, transliteration]

/-- The name of a `StringClass`. -/
def name : StringClass → String
  | string => "String"
  | escaping => "EscapingString"
  | escapingWords => "EscapingWordQuoting"
  | escapingWordsProtected => "EscapingWordQuotingQuoteProtection"
  | escapingShell => "EscapingShell"
  | interpolating => "InterpolatingString"
  | interpolatingWords => "InterpolatingWordQuoting"
  | interpolatingWordsProtected => "InterpolatingWordQuotingQuoteProtection"
  | interpolatingShell => "InterpolatingShell"
  | literal => "LiteralString"
  | literalWords => "LiteralWordQuoting"
  | literalShell => "LiteralShell"
  | regex => "Regex"
  | substitution => "Substitution"
  | transliteration => "Transliteration"

/-- The class that this `StringClass` refines, if there is one among the strings. -/
def parent? : StringClass → Option StringClass
  | string => none
  | escaping | interpolating | literal | regex => some string
  | escapingWords | escapingShell => some escaping
  | escapingWordsProtected => some escapingWords
  | interpolatingWords | interpolatingShell => some interpolating
  | interpolatingWordsProtected => some interpolatingWords
  | literalWords | literalShell => some literal
  | substitution | transliteration => some regex

end StringClass

/-! ### Leaves and branches -/

/-- The classes of leaves: those of layout, operators, words, numbers, strings, regexes and
variables. -/
inductive LeafClass
  /-- A leaf of no particular class. -/
  | leaf
  /-- `;` -/
  | semicolon
  /-- Opening delimiter of a bracketed construct. -/
  | balancedEnter
  /-- Closing delimiter of a bracketed construct. -/
  | balancedExit
  /-- `{` of a block. -/
  | blockEnter
  /-- `}` of a block. -/
  | blockExit
  /-- Whitespace. -/
  | ws
  /-- A comment, to the end of the line or embedded. -/
  | comment
  /-- A documentation block. -/
  | pod
  /-- The lines of a here-doc, terminator included. They stand wherever the body
  stands in the source, so this leaf only keeps the token chain without gaps. -/
  | hereDocBody
  /-- An operator before its operand, as in `-$x`. -/
  | prefixOperator
  /-- An operator between operands, as in `1 + 2`. -/
  | infixOperator
  /-- An operator behind its operand, as in `$i++`. -/
  | postfixOperator
  /-- An operator made of other operators. -/
  | hyperOperator
  /-- A plain word. -/
  | bareword
  /-- A name with `::` in it. -/
  | packageName
  /-- A word with a colon in front, as in `:name`. -/
  | colonBareword
  /-- A colon modifier of a quote, as in `q:to`. -/
  | adverb
  /-- A statement label, as in `NEXT:`. -/
  | label
  /-- A version literal, as in `v6.c`. -/
  | version
  /-- A number, of the `NumberClass` for its notation. -/
  | number (c : NumberClass)
  /-- A quoted string or regex, of the `StringClass` for its quoting. -/
  | string (c : StringClass)
  /-- Literal text in a regex. -/
  | regexLiteral
  /-- A metacharacter in a regex. -/
  | regexMetachar
  /-- A bracketed character class in a regex. -/
  | regexCharClass
  /-- A variable, of the `VariableClass` for its sigil and twigil. -/
  | var (c : VariableClass)
  deriving Repr, DecidableEq

namespace LeafClass

/-- All classes of leaves, for the search by name in `Class.ofName?`. -/
def all : List LeafClass :=
  [leaf, semicolon, balancedEnter, balancedExit, blockEnter, blockExit, ws, comment, pod,
   hereDocBody, prefixOperator, infixOperator, postfixOperator, hyperOperator, bareword,
   packageName, colonBareword, adverb, label, version, regexLiteral, regexMetachar,
   regexCharClass] ++
  NumberClass.all.map number ++ StringClass.all.map string ++ VariableClass.all.map var

/-- The name of a `LeafClass`. -/
def name : LeafClass → String
  | leaf => "Leaf"
  | semicolon => "Semicolon"
  | balancedEnter => "BalancedEnter"
  | balancedExit => "BalancedExit"
  | blockEnter => "BlockEnter"
  | blockExit => "BlockExit"
  | ws => "WS"
  | comment => "Comment"
  | pod => "Pod"
  | hereDocBody => "HereDocBody"
  | prefixOperator => "PrefixOperator"
  | infixOperator => "InfixOperator"
  | postfixOperator => "PostfixOperator"
  | hyperOperator => "HyperOperator"
  | bareword => "Bareword"
  | packageName => "PackageName"
  | colonBareword => "ColonBareword"
  | adverb => "Adverb"
  | label => "Label"
  | version => "Version"
  | number c => c.name
  | string c => c.name
  | regexLiteral => "RegexLiteral"
  | regexMetachar => "RegexMetachar"
  | regexCharClass => "RegexCharClass"
  | var c => c.name

/-- Does the class show in the program? Whitespace, comments and documentation do not: `ws`,
`comment`, `pod`. -/
def isVisible : LeafClass → Bool
  | ws | comment | pod => false
  | _ => true

/-- Does the class take part in the meaning of the program? A `hereDocBody` is in the tree for
completeness of ranges only. -/
def isSemantic : LeafClass → Bool
  | hereDocBody => false
  | _ => true

end LeafClass

/-- The classes of branches. -/
inductive BranchClass
  /-- A branch of no particular class. -/
  | branch
  /-- The root of a document, made by `Document.build`. -/
  | document
  /-- A statement with its semicolon. -/
  | statement
  /-- A block with its braces, a `blockEnter` and a `blockExit`. -/
  | block
  /-- `my`, `our`, `has`, … and what is declared, without the initializer. -/
  | scopeDeclarator
  /-- A parameter list with its parentheses. -/
  | signature
  /-- A bracketed term, as in `(1, 2)`. -/
  | circumfixOperator
  /-- A bracketed subscript or argument list, as in `@a[1]`. -/
  | postCircumfixOperator
  /-- `<…>` in a regex. -/
  | regexAssertion
  deriving Repr, DecidableEq

namespace BranchClass

/-- All classes of branches, for the search by name in `Class.ofName?`. -/
def all : List BranchClass :=
  [branch, document, statement, block, scopeDeclarator, signature, circumfixOperator,
   postCircumfixOperator, regexAssertion]

/-- The name of a `BranchClass`. -/
def name : BranchClass → String
  | branch => "Branch"
  | document => "Document"
  | statement => "Statement"
  | block => "Block"
  | scopeDeclarator => "ScopeDeclarator"
  | signature => "Signature"
  | circumfixOperator => "CircumfixOperator"
  | postCircumfixOperator => "PostCircumfixOperator"
  | regexAssertion => "RegexAssertion"

end BranchClass

/-! ### The taxonomy as a whole -/

/-- A class of the taxonomy: one that nodes have, or `operator`. -/
inductive Class
  /-- The class of all nodes. A node of this class itself is of no `Kind`. -/
  | element
  /-- What all operators have in common. -/
  | operator
  /-- A class of leaves, of `Kind.leaf`. -/
  | leaf (c : LeafClass)
  /-- A class of branches, of `Kind.branch`. -/
  | branch (c : BranchClass)
  /-- Contextualizers, of one `sigil` or of any. -/
  | contextualizer (sigil : Option Sigil)
  deriving Repr, DecidableEq

namespace Class

/-- All classes, for the search by name in `ofName?`. -/
def all : List Class :=
  element :: operator :: LeafClass.all.map leaf ++ BranchClass.all.map branch ++
    contextualizer none :: Sigil.all.map fun s => contextualizer (some s)

/-- The name of a `Class`. -/
def name : Class → String
  | element => "Element"
  | operator => "Operator"
  | leaf c => c.name
  | branch c => c.name
  | contextualizer none => "Contextualizer"
  | contextualizer (some s) => s.name ++ "Contextualizer"

/-- The class with the name `s`, if there is one. -/
def ofName? (s : String) : Option Class := all.find? fun c => c.name == s

/-- The `Kind` that all nodes of a class share; there is none for `element` and `operator`. -/
def kind? : Class → Option Kind
  | element | operator => none
  | leaf _ => some .leaf
  | branch _ => some .branch
  | contextualizer _ => some .contextualizer

/-- The classes that a class refines directly. -/
def parents : Class → List Class
  | element | operator => []
  | leaf .leaf | branch .branch | contextualizer none => [element]
  | leaf .blockEnter => [leaf .balancedEnter]
  | leaf .blockExit => [leaf .balancedExit]
  | leaf .colonBareword => [leaf .bareword]
  | leaf .prefixOperator | leaf .infixOperator | leaf .postfixOperator | leaf .hyperOperator =>
    [operator, leaf .leaf]
  | leaf (.number c) => [(c.parent?.map fun p => leaf (.number p)).getD (leaf .leaf)]
  | leaf (.string c) => [(c.parent?.map fun p => leaf (.string p)).getD (leaf .leaf)]
  | leaf (.var .plain) => [leaf .leaf]
  | leaf (.var (.sigiled _ none)) => [leaf (.var .plain)]
  | leaf (.var (.sigiled s (some _))) => [leaf (.var (.sigiled s none))]
  | leaf _ => [leaf .leaf]
  | branch .circumfixOperator | branch .postCircumfixOperator => [operator, branch .branch]
  | branch _ => [branch .branch]
  | contextualizer (some _) => [contextualizer none]

/-- The classes reached from a class in at most `depth` refinements. -/
def ancestorsWithin : Nat → Class → List Class
  | 0, _ => []
  | depth + 1, c => c.parents ++ c.parents.flatMap (ancestorsWithin depth)

/-- The longest chain of refinements by `parents`: from a protected word quote up to the class of
all nodes. -/
def maxDepth : Nat := 5

/-- Everything a class refines, directly by `parents` or not. -/
def ancestors (c : Class) : List Class := (ancestorsWithin maxDepth c).eraseDups

/-- Does the class take part in the meaning of the program? The class `operator`, which only marks
others, says nothing on it. -/
def isSemantic? : Class → Option Bool
  | operator => none
  | leaf c => some c.isSemantic
  | _ => some true

/-- Does the class show in the program, as opposed to layout? The class `operator` says nothing on
it. -/
def isVisible? : Class → Option Bool
  | operator => none
  | leaf c => some c.isVisible
  | _ => some true

/-- The base of a class of numbers, `NumberClass.base?`. -/
def base? : Class → Option Nat
  | leaf (.number c) => c.base?
  | _ => none

/-- The sigil of a class of variables or contextualizers, as text (`Sigil.char`). -/
def sigil? : Class → Option Text
  | leaf (.var c) => some c.sigilText
  | contextualizer s => some (s.map Sigil.char).toList
  | _ => none

/-- The twigil of a class of variables, as text (`Twigil.char`). -/
def twigil? : Class → Option Text
  | leaf (.var c) => some c.twigilText
  | _ => none

end Class

/-! ### Delimiters -/

/-- Opening delimiters and what closes them, in code point order. -/
def closers : List (Text × Text) :=
  [(['('], [')']), (['<'], ['>']), (['<', '<'], ['>', '>']), (['['], [']']),
   (['\x7b'], ['\x7d']), (['«'], ['»']), (['‘'], ['’']), (['“'], ['”']), (['｢'], ['｣'])]

/-- What closes the delimiter `opener`; one that is not in `closers` closes itself. -/
def closerFor (opener : Text) : Text := (closers.lookup opener).getD opener

end RakuTree
