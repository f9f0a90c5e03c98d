import RakuTree.Frame

/-!
# RakuTree.Rule.Metachar

What a regex is made of: literals, metacharacters, bindings, assertions and
character classes.
-/

namespace RakuTree.Rule

/-- A leaf over the match, or nothing when `Text.trim` leaves no text of it. -/
def trimmedIfAny (f : Frame) (cls : LeafClass) : Plan f (List Element) :=
  if (Text.trim f.text).isEmpty then pure [] else f.trimmed cls f.self

/-- The smallest part of a regex: a `metachar`, or literal text. -/
def atom : Rule := fun f =>
  if f.shape.is ["metachar"] then f.buildKey .metachar
  else if f.shape.is [] then trimmedIfAny f .regexLiteral
  else f.unhandled

/-! ### Metacharacters -/

/-- `target = atom`, or just the target when nothing is bound to it. -/
def binding (f : Frame) (target : List Element) : Plan f (List Element) := do
  match f.get? "quantified_atom" with
  | none => return target
  | some atom =>
    if atom.val.isWide then
      let equals ← f.expect .infixOperator (← f.endOf target) atom.val.start (.text ['='])
      return target ++ .leaf equals :: (← f.build .quantifiedAtom (some atom))
    else return target

/-- `$<name>` and what is bound to it. -/
def namedBinding (f : Frame) : Plan f (List Element) := do
  let name ← f.need .stop (f.get? "name")
  match Text.find? f.src ['>'] name.stop f.self.stop with
  | none => f.refuse "unterminated capture name"
  | some closing =>
    let target ← f.leafOver (.var (.sigiled .scalar (some .matchIndex))) f.self.start (closing + 1)
    binding f [.leaf target]

/-- `:my $x = 1;` in a regex. -/
def embeddedStatement (f : Frame) : Plan f (List Element) := do
  let statement ← f.need .start (f.get? "statement")
  let head ← f.expect .bareword f.self.start statement.start (.text [':', 'm', 'y'])
  let built ← f.buildKey .statement
  let nodes := .leaf head :: built
  let semi := f.find? .semicolon (← f.endOf nodes) f.self.stop (.text [';'])
  return nodes ++ (semi.map Element.leaf).toList

/-- A metacharacter or a bracketed part of a regex, such as `^` or `[a]`. -/
def metachar : Rule := fun f => do
  let s := f.shape
  if s.is [] || s.is ["sym"] then trimmedIfAny f .regexMetachar
  else if s.is ["backslash"] then f.buildKey .backslash
  else if s.is ["assertion"] then
    f.balanced .regexAssertion (some (['<'], ['>'])) .plain (← f.buildKey .assertion)
  else if s.is ["nibbler"] then f.balanced .circumfixOperator none .plain (← f.buildKey .nibbler)
  else if s.is ["quote"] then f.buildKey .quote
  else if s.is ["codeblock"] then f.buildKey .codeblock
  else if s.fits ["var"] ["quantified_atom"] then
    binding f (← f.build .variableUse (f.get? "var"))
  else if s.fits ["name"] ["quantified_atom"] then namedBinding f
  else if s.is ["statement"] then embeddedStatement f
  else f.unhandled

/-- A backslash sequence, such as `\n`. -/
def backslash : Rule := fun f =>
  if f.shape.fits [] ["sym", "charspec", "hexint", "octint", "charnames"] then
    f.trimmed .regexMetachar f.self
  else f.unhandled

/-! ### Assertions -/

/-- The arguments of a named assertion, behind the elements `nodes` of its name: in
parentheses, or behind a colon. -/
def assertionArguments (f : Frame) (nodes : List Element) : Plan f (List Element) := do
  let args ← f.buildKey .arglist
  let longname ← f.need .stop (f.get? "longname")
  let arglist ← f.need .start (f.get? "arglist")
  match Text.find? f.src ['('] longname.stop (arglist.start + 1) with
  | some opening =>
    match Text.find? f.src [')'] (Element.lastEnd (opening + 1) args) f.src.length with
    | none => f.refuse "unterminated assertion arguments"
    | some closing =>
      return nodes ++ [← f.delimited .circumfixOperator opening (closing + 1) 1 .plain args]
  | none =>
    let colon ← f.between .infixOperator nodes args (.text [':'])
    return nodes ++ .leaf colon :: args

/-- `<name>` with arguments, a regex, or an assertion it names. -/
def namedAssertion (f : Frame) : Plan f (List Element) := do
  let nodes ← f.buildKey .longname
  let nodes ← if f.shape.has "arglist" then assertionArguments f nodes else pure nodes
  let nodes := nodes ++ (← f.buildIf .nibbler)
  if f.shape.has "assertion" then
    let inner ← f.need .start (f.get? "assertion")
    let equals ← f.expect .infixOperator (← f.endOf nodes) inner.start (.text ['='])
    return nodes ++ .leaf equals :: (← f.buildKey .assertion)
  else return nodes

/-- The inside of `<…>`. -/
def assertion : Rule := fun f => do
  let s := f.shape
  if s.is ["assertion"] then
    let inner ← f.need .start (f.get? "assertion")
    let sign ← f.leafOver .prefixOperator f.self.start inner.start
    return .leaf sign :: (← f.buildKey .assertion)
  else if s.fits ["longname"] ["arglist", "nibbler", "assertion"] then namedAssertion f
  else if s.fits ["cclass_elem"] [] then f.buildAll .cclassElem (f.each "cclass_elem")
  else if s.is ["codeblock"] then
    let nodes ← f.buildKey .codeblock
    let text := Text.trimLeft f.text
    match text with
    | c :: _ =>
      if c == '?' || c == '!' then
        return .leaf (← f.leafAt .prefixOperator (f.self.stop - text.length) [c]) :: nodes
      else return nodes
    | [] => return nodes
  else if s.is [] then
    let text := Text.trim f.text
    if text.isEmpty then return []
    else if text = ['?'] ∨ text = ['!'] then f.trimmed .prefixOperator f.self
    else f.trimmed .regexMetachar f.self
  else f.unhandled

/-! ### Character classes -/

/-- The sign of a character class, if it has one, as in `<+alpha>`. -/
def classSign (f : Frame) : Plan f (List Element) :=
  match f.get? "sign" with
  | some sign =>
    if (Text.trim (sign.val.text f.src)).isEmpty then pure []
    else f.trimmed .prefixOperator sign.val
  | none => pure []

/-- One element of a character class: a name, a property, or characters in brackets, as in
`<[a..z]>`. -/
def cclassElem : Rule := fun f => do
  let s := f.shape
  if s.fits [] ["sign", "charspec", "name", "uniprop", "invert"] then
    let sign ← classSign f
    let start := Element.lastEnd f.self.start sign
    if s.has "name" then return sign ++ (← f.trimmedKey .bareword "name")
    else if s.has "uniprop" then
      let colon ← f.expect .bareword start f.self.stop (.text [':'])
      let property ← f.need .stop (f.get? "uniprop")
      return sign ++ [.leaf (← f.leafOver .bareword colon.span.start property.stop)]
    else
      match Text.find? f.src ['['] start f.self.stop,
          Text.findLast? f.src [']'] start f.self.stop with
      | some opening, some closing =>
        if opening ≤ closing then
          return sign ++ [.leaf (← f.leafOver .regexCharClass opening (closing + 1))]
        else f.refuse "character class brackets not found"
      | _, _ => f.refuse "character class brackets not found"
  else f.unhandled

end RakuTree.Rule
