/-!
# RakuTree.Production

The productions of the grammar that rules exist for, and their names in matches.
-/

namespace RakuTree

/-- A production of the grammar. Each has one `Rule` (`Production.rule`). -/
inductive Production
  | args | arglist | assertion | atom | babble | backmod | backslash | block | blockoid | blorst
  | capterm | cclassElem | circumfix | codeblock | coercee | coloncircumfix | colonpair
  | contextualizer | decNumber | declarator | defaultValue | deflongname | defterm | dotty
  | dottyop | expr | fakesignature | fatarrow | identifier | infixOp | initializer | integer
  | label | longname | metachar | methodDef | methodop | modifierExpr | moduleName
  | multiDeclarator | multisig | name | namedParam | nibble | nibbler | number | numish
  | packageDeclarator | packageDef | paramVar | parameter | pblock | postConstraint
  | postcircumfix | postfixOp | postop | prefixOp | quantifiedAtom | quantifier | quibble | quote
  | quotepair | radNumber | regexDeclarator | regexDef | routineDeclarator | routineDef
  | scopeDeclarator | scopedDecl | semiarglist | semilist | separator | shape | signature | sigterm
  | smexpr | statement | statementControl | statementModCond | statementModLoop
  | statementPrefix | statementlist | termalt | termaltseq | termconj | termconjseq | termish
  | termseq | top | trait | traitMod | typeConstraint | typeDeclarator | typename | value
  | variableUse | variableDeclarator | version | xblock
  deriving Repr, DecidableEq

namespace Production

/-- All productions, for the search by name in `ofKey?`. -/
def all : List Production :=
  [args, arglist, assertion, atom, babble, backmod, backslash, block, blockoid, blorst, capterm,
   cclassElem, circumfix, codeblock, coercee, coloncircumfix, colonpair, contextualizer, decNumber,
   declarator, defaultValue, deflongname, defterm, dotty, dottyop, expr, fakesignature, fatarrow,
   identifier, infixOp, initializer, integer, label, longname, metachar, methodDef, methodop,
   modifierExpr, moduleName, multiDeclarator, multisig, name, namedParam, nibble, nibbler, number,
   numish, packageDeclarator, packageDef, paramVar, parameter, pblock, postConstraint,
   postcircumfix, postfixOp, postop, prefixOp, quantifiedAtom, quantifier, quibble, quote,
   quotepair, radNumber, regexDeclarator, regexDef, routineDeclarator, routineDef, scopeDeclarator,
   scopedDecl, semiarglist, semilist, separator, shape, signature, sigterm, smexpr, statement,
   statementControl, statementModCond, statementModLoop, statementPrefix, statementlist, termalt,
   termaltseq, termconj, termconjseq, termish, termseq, top, trait, traitMod, typeConstraint,
   typeDeclarator, typename, value, variableUse, variableDeclarator, version, xblock]

/-- The name of a production, under which matches capture what it builds (`Frame.buildKey`). -/
def key : Production → String
  | args => "args"
  | arglist => "arglist"
  | assertion => "assertion"
  | atom => "atom"
  | babble => "babble"
  | backmod => "backmod"
  | backslash => "backslash"
  | block => "block"
  | blockoid => "blockoid"
  | blorst => "blorst"
  | capterm => "capterm"
  | cclassElem => "cclass_elem"
  | circumfix => "circumfix"
  | codeblock => "codeblock"
  | coercee => "coercee"
  | coloncircumfix => "coloncircumfix"
  | colonpair => "colonpair"
  | contextualizer => "contextualizer"
  | decNumber => "dec_number"
  | declarator => "declarator"
  | defaultValue => "default_value"
  | deflongname => "deflongname"
  | defterm => "defterm"
  | dotty => "dotty"
  | dottyop => "dottyop"
  | expr => "EXPR"
  | fakesignature => "fakesignature"
  | fatarrow => "fatarrow"
  | identifier => "identifier"
  | infixOp => "infix"
  | initializer => "initializer"
  | integer => "integer"
  | label => "label"
  | longname => "longname"
  | metachar => "metachar"
  | methodDef => "method_def"
  | methodop => "methodop"
  | modifierExpr => "modifier_expr"
  | moduleName => "module_name"
  | multiDeclarator => "multi_declarator"
  | multisig => "multisig"
  | name => "name"
  | namedParam => "named_param"
  | nibble => "nibble"
  | nibbler => "nibbler"
  | number => "number"
  | numish => "numish"
  | packageDeclarator => "package_declarator"
  | packageDef => "package_def"
  | paramVar => "param_var"
  | parameter => "parameter"
  | pblock => "pblock"
  | postConstraint => "post_constraint"
  | postcircumfix => "postcircumfix"
  | postfixOp => "postfix"
  | postop => "postop"
  | prefixOp => "prefix"
  | quantifiedAtom => "quantified_atom"
  | quantifier => "quantifier"
  | quibble => "quibble"
  | quote => "quote"
  | quotepair => "quotepair"
  | radNumber => "rad_number"
  | regexDeclarator => "regex_declarator"
  | regexDef => "regex_def"
  | routineDeclarator => "routine_declarator"
  | routineDef => "routine_def"
  | scopeDeclarator => "scope_declarator"
  | scopedDecl => "scoped"
  | semiarglist => "semiarglist"
  | semilist => "semilist"
  | separator => "separator"
  | shape => "shape"
  | signature => "signature"
  | sigterm => "sigterm"
  | smexpr => "smexpr"
  | statement => "statement"
  | statementControl => "statement_control"
  | statementModCond => "statement_mod_cond"
  | statementModLoop => "statement_mod_loop"
  | statementPrefix => "statement_prefix"
  | statementlist => "statementlist"
  | termalt => "termalt"
  | termaltseq => "termaltseq"
  | termconj => "termconj"
  | termconjseq => "termconjseq"
  | termish => "termish"
  | termseq => "termseq"
  | top => "TOP"
  | trait => "trait"
  | traitMod => "trait_mod"
  | typeConstraint => "type_constraint"
  | typeDeclarator => "type_declarator"
  | typename => "typename"
  | value => "value"
  | variableUse => "variable"
  | variableDeclarator => "variable_declarator"
  | version => "version"
  | xblock => "xblock"

/-- The production with the key `s`, if there is one. -/
def ofKey? (s : String) : Option Production := all.find? fun p => p.key == s

end Production

end RakuTree
