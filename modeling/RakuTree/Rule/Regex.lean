import RakuTree.Frame

/-!
# RakuTree.Rule.Regex

Declared regexes: `regex`, `token` and `rule`. Alternations and conjunctions of all
levels (`||`, `&&`, `|`, `&`) come out flat, with an operator leaf between the items
that is searched for in the source. Quoted regexes are strings and not taken apart.
-/

namespace RakuTree.Rule

/-! ### Declarations -/

/-- `regex`, `token` or `rule` and what follows. -/
def regexDeclarator : Rule := fun f => do
  if f.shape.is ["sym", "regex_def"] then
    let sym ← f.trimmedKey .bareword "sym"
    return sym ++ (← f.buildKey .regexDef)
  else f.unhandled

/-- Name, signature and traits of a regex in source order. The signature gets a `signature` branch.
-/
def regexHead (f : Frame) : List (Production × f.self.Inner) → Plan f (List Element)
  | [] => pure []
  | (p, c) :: cs => do
    let es ←
      if p = .signature then do
        let children ← f.build .signature (some c)
        f.balancedAround .signature c.val ['('] children
      else f.build p (some c)
    return es ++ (← regexHead f cs)

/-- A regex with its body in braces, as behind `token` or `rule`. -/
def regexDef : Rule := fun f => do
  if f.shape.fits [] ["deflongname", "signature", "trait", "nibble"] then
    let nodes ← regexHead f
      (f.self.inSourceOrder Production.key [.deflongname, .signature, .trait])
    let nibble := f.get? "nibble"
    let stop := (nibble.map (·.val.start)).getD f.self.stop
    match Text.findLast? f.src ['\x7b'] (Element.lastEnd f.self.start nodes) stop with
    | none => f.refuse "regex body braces not found"
    | some opening =>
      match Text.findLast? f.src ['\x7d'] (opening + 1) f.self.stop with
      | none => f.refuse "regex body braces not found"
      | some closing =>
        let body ← match nibble with
          | some c => f.build .nibble (some c)
          | none => pure []
        return nodes ++ [← f.delimited .block opening (closing + 1) 1 .block body]
  else f.unhandled

/-! ### Sequences -/

/-- The inside of a bracketed group, a `termseq` if there is anything in it. -/
def nibbler : Rule := fun f =>
  if f.shape.is ["termseq"] then f.buildKey .termseq
  else if f.shape.is [] then pure []
  else f.unhandled

/-- A sequence of terms, of which `termaltseq` is the outermost level. -/
def termseq : Rule := fun f =>
  if f.shape.is ["termaltseq"] then f.buildKey .termaltseq
  else if f.shape.is [] then pure []
  else f.unhandled

/-- Items by production `p` with `separator` between them, from item `i` on;
`cursor` is where the search for the next separator starts. A separator before the
first item is kept, one before any other item has to be there. -/
def separatedFrom (f : Frame) (p : Production) (separator : Text) (i : Nat) (cursor : Int) :
    List f.self.Inner → Plan f (List Element)
  | [] => pure []
  | c :: cs => do
    let found := f.find? .infixOperator cursor c.val.start (.text separator)
    if found.isNone && i != 0 then
      f.refuse ("expected " ++ Text.quoted separator ++ " before item " ++ toString i)
    else
      let behind := (found.map (·.span.stop)).getD cursor
      let built ← f.build p (some c)
      let stop := Element.lastEnd c.val.stop built
      let rest ← separatedFrom f p separator (i + 1) (max behind stop) cs
      return (found.map Element.leaf).toList ++ built ++ rest

/-- Items under the name of a production with `separator` between them. -/
def separated (f : Frame) (p : Production) (separator : Text) : Plan f (List Element) :=
  separatedFrom f p separator 0 f.self.start (f.each p.key)

/-- Alternatives tried in order, with `||` between them. -/
def termaltseq : Rule := fun f =>
  if f.shape.fits [] ["termconjseq"] then separated f .termconjseq ['|', '|'] else f.unhandled

/-- Conjunctions tried in order, with `&&` between them. -/
def termconjseq : Rule := fun f =>
  if f.shape.fits [] ["termalt"] then separated f .termalt ['&', '&'] else f.unhandled

/-- Alternatives tried together, with `|` between them. -/
def termalt : Rule := fun f =>
  if f.shape.fits [] ["termconj"] then separated f .termconj ['|'] else f.unhandled

/-- Conjunctions tried together, with `&` between them. -/
def termconj : Rule := fun f =>
  if f.shape.fits [] ["termish"] then separated f .termish ['&'] else f.unhandled

/-- Atoms in a row, each a `quantifiedAtom`. -/
def termish : Rule := fun f =>
  if f.shape.fits [] ["noun"] then f.buildAll .quantifiedAtom (f.each "noun") else f.unhandled

/-! ### Quantifiers -/

/-- An atom with its quantifier and separator, as in `a+ % b`. -/
def quantifiedAtom : Rule := fun f =>
  if f.shape.fits ["atom"] ["quantifier", "backmod", "separator", "sigfinal"] then
    f.buildInOrder [.atom, .quantifier, .backmod, .separator]
  else f.unhandled

/-- `%` or `%%` and what stands between repetitions. -/
def separator : Rule := fun f => do
  if f.shape.is ["septype", "quantified_atom"] then
    let sign ← f.trimmedKey .infixOperator "septype"
    return sign ++ (← f.buildKey .quantifiedAtom)
  else f.unhandled

/-- A quantifier, `** 2..5` included, as one leaf. -/
def quantifier : Rule := fun f =>
  if f.shape.fits [] ["sym", "backmod", "min", "max", "from", "upto", "quantified_atom", "codeblock",
      "normspace"] && !(Text.trim f.text).isEmpty then
    f.trimmed .postfixOperator f.self
  else f.unhandled

/-- A modifier of backtracking, such as `?` in `a+?`; without text, it comes to nothing. -/
def backmod : Rule := fun f =>
  if f.shape.is [] then
    if (Text.trim f.text).isEmpty then pure [] else f.trimmed .postfixOperator f.self
  else f.unhandled

end RakuTree.Rule
