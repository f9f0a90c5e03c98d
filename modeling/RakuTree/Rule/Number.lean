import RakuTree.Frame

/-!
# RakuTree.Rule.Number

Literal values: numbers of all notations, versions, and the way down to quotes.
-/

namespace RakuTree.Rule

/-- A literal: a `number`, a `quote` or a `version`. -/
def value : Rule := fun f => f.buildOnly f.unhandled [.number, .quote, .version]

/-- A number, in whatever notation (`numish`). -/
def number : Rule := fun f =>
  if f.shape.is ["numish"] then f.buildKey .numish else f.unhandled

/-- A number in one of its notations, or one of the named values such as `Inf`. -/
def numish : Rule := fun f =>
  f.buildOnly
    (let text := Text.trim f.text
     if f.shape.is [] && text == ['N', 'a', 'N'] then f.trimmed (.number .nan) f.self
     else if f.shape.is [] && (text == ['I', 'n', 'f'] || text == ['∞']) then
       f.trimmed (.number .infinity) f.self
     else f.unhandled)
    [.integer, .decNumber, .radNumber]

/-- An integer. `0d` makes a decimal explicit. -/
def integer : Rule := fun f =>
  let s := f.shape
  if s.fits ["binint"] ["VALUE"] then f.trimmed (.number .binary) f.self
  else if s.fits ["octint"] ["VALUE"] then f.trimmed (.number .octal) f.self
  else if s.fits ["hexint"] ["VALUE"] then f.trimmed (.number .hexadecimal) f.self
  else if s.fits ["decint"] ["VALUE"] then
    let isExplicit := ['0', 'd'].isPrefixOf (Text.trim f.text)
    f.trimmed (.number (if isExplicit then .explicitDecimal else .decimal)) f.self
  else f.unhandled

/-- A decimal fraction; with an exponent (`escale`) it is a floating point number. -/
def decNumber : Rule := fun f =>
  if f.shape.fits ["coeff"] ["int", "frac", "escale"] then
    f.trimmed (.number (if f.shape.has "escale" then .floatingPoint else .decimal)) f.self
  else f.unhandled

/-- A number with an explicit radix, as in `:16<FF>`. -/
def radNumber : Rule := fun f =>
  if f.shape.fits ["radix"] ["circumfix", "bracket", "intpart", "fracpart", "base", "exp"] then
    f.trimmed (.number .radix) f.self
  else f.unhandled

/-- A version, such as `v6.c`. -/
def version : Rule := fun f =>
  if f.shape.fits ["vstr"] ["vnum"] then f.trimmed .version f.self else f.unhandled

end RakuTree.Rule
