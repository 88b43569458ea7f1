/-!
# Kinds of token

The kinds of token of a Java source text, in one fixed order. The order is what a set of kinds is
listed in, so the end of the text comes first. Every kind has a symbolic name; a kind that is
written in one way only also has a spelling.
-/

namespace Callscope

inductive Kind where
  | eof | kwAbstract | kwAssert | kwBoolean | kwBreak | kwByte | kwCase | kwCatch | kwChar
  | kwClass | kwConst | kwContinue | kwDefault | kwDo | kwDouble | kwElse | kwEnum | kwExtends
  | kwFinal | kwFinally | kwFloat | kwFor | kwIf | kwGoto | kwImplements | kwImport
  | kwInstanceof | kwInt | kwInterface | kwLong | kwNative | kwNew | kwPackage | kwPrivate
  | kwProtected | kwPublic | kwReturn | kwShort | kwStatic | kwStrictfp | kwSuper | kwSwitch
  | kwSynchronized | kwThis | kwThrow | kwThrows | kwTransient | kwTry | kwVoid | kwVolatile
  | kwWhile | kwModule | kwOpen | kwRequires | kwExports | kwOpens | kwTo | kwUses | kwProvides
  | kwWith | kwTransitive | kwVar | kwYield | kwRecord | kwSealed | kwPermits | kwNonSealed
  | decimalLiteral | hexLiteral | octLiteral | binaryLiteral | floatLiteral | hexFloatLiteral
  | boolLiteral | charLiteral | stringLiteral | textBlock | nullLiteral | lparen | rparen
  | lbrace | rbrace | lbrack | rbrack | semi | comma | dot | assign | gt | lt | bang | tilde
  | question | colon | equal | le | ge | notEqual | andAnd | orOr | inc | dec | add | sub | mul
  | div | bitAnd | bitOr | caret | mod | addAssign | subAssign | mulAssign | divAssign
  | andAssign | orAssign | xorAssign | modAssign | lshiftAssign | rshiftAssign | urshiftAssign
  | arrow | colonColon | atSign | ellipsis | blanks | comment | lineComment | identifier
  deriving DecidableEq, Hashable, Inhabited, Repr

namespace Kind

/-- All kinds, in order. -/
def all : List Kind :=
  [.eof, .kwAbstract, .kwAssert, .kwBoolean, .kwBreak, .kwByte, .kwCase, .kwCatch, .kwChar,
   .kwClass, .kwConst, .kwContinue, .kwDefault, .kwDo, .kwDouble, .kwElse, .kwEnum, .kwExtends,
   .kwFinal, .kwFinally, .kwFloat, .kwFor, .kwIf, .kwGoto, .kwImplements, .kwImport,
   .kwInstanceof, .kwInt, .kwInterface, .kwLong, .kwNative, .kwNew, .kwPackage, .kwPrivate,
   .kwProtected, .kwPublic, .kwReturn, .kwShort, .kwStatic, .kwStrictfp, .kwSuper, .kwSwitch,
   .kwSynchronized, .kwThis, .kwThrow, .kwThrows, .kwTransient, .kwTry, .kwVoid, .kwVolatile,
   .kwWhile, .kwModule, .kwOpen, .kwRequires, .kwExports, .kwOpens, .kwTo, .kwUses, .kwProvides,
   .kwWith, .kwTransitive, .kwVar, .kwYield, .kwRecord, .kwSealed, .kwPermits, .kwNonSealed,
   .decimalLiteral, .hexLiteral, .octLiteral, .binaryLiteral, .floatLiteral, .hexFloatLiteral,
   .boolLiteral, .charLiteral, .stringLiteral, .textBlock, .nullLiteral, .lparen, .rparen,
   .lbrace, .rbrace, .lbrack, .rbrack, .semi, .comma, .dot, .assign, .gt, .lt, .bang, .tilde,
   .question, .colon, .equal, .le, .ge, .notEqual, .andAnd, .orOr, .inc, .dec, .add, .sub, .mul,
   .div, .bitAnd, .bitOr, .caret, .mod, .addAssign, .subAssign, .mulAssign, .divAssign,
   .andAssign, .orAssign, .xorAssign, .modAssign, .lshiftAssign, .rshiftAssign, .urshiftAssign,
   .arrow, .colonColon, .atSign, .ellipsis, .blanks, .comment, .lineComment, .identifier]

/-- The symbolic name of a kind. -/
def name : Kind → String
  | .eof => "EOF"
  | .kwAbstract => "ABSTRACT"
  | .kwAssert => "ASSERT"
  | .kwBoolean => "BOOLEAN"
  | .kwBreak => "BREAK"
  | .kwByte => "BYTE"
  | .kwCase => "CASE"
  | .kwCatch => "CATCH"
  | .kwChar => "CHAR"
  | .kwClass => "CLASS"
  | .kwConst => "CONST"
  | .kwContinue => "CONTINUE"
  | .kwDefault => "DEFAULT"
  | .kwDo => "DO"
  | .kwDouble => "DOUBLE"
  | .kwElse => "ELSE"
  | .kwEnum => "ENUM"
  | .kwExtends => "EXTENDS"
  | .kwFinal => "FINAL"
  | .kwFinally => "FINALLY"
  | .kwFloat => "FLOAT"
  | .kwFor => "FOR"
  | .kwIf => "IF"
  | .kwGoto => "GOTO"
  | .kwImplements => "IMPLEMENTS"
  | .kwImport => "IMPORT"
  | .kwInstanceof => "INSTANCEOF"
  | .kwInt => "INT"
  | .kwInterface => "INTERFACE"
  | .kwLong => "LONG"
  | .kwNative => "NATIVE"
  | .kwNew => "NEW"
  | .kwPackage => "PACKAGE"
  | .kwPrivate => "PRIVATE"
  | .kwProtected => "PROTECTED"
  | .kwPublic => "PUBLIC"
  | .kwReturn => "RETURN"
  | .kwShort => "SHORT"
  | .kwStatic => "STATIC"
  | .kwStrictfp => "STRICTFP"
  | .kwSuper => "SUPER"
  | .kwSwitch => "SWITCH"
  | .kwSynchronized => "SYNCHRONIZED"
  | .kwThis => "THIS"
  | .kwThrow => "THROW"
  | .kwThrows => "THROWS"
  | .kwTransient => "TRANSIENT"
  | .kwTry => "TRY"
  | .kwVoid => "VOID"
  | .kwVolatile => "VOLATILE"
  | .kwWhile => "WHILE"
  | .kwModule => "MODULE"
  | .kwOpen => "OPEN"
  | .kwRequires => "REQUIRES"
  | .kwExports => "EXPORTS"
  | .kwOpens => "OPENS"
  | .kwTo => "TO"
  | .kwUses => "USES"
  | .kwProvides => "PROVIDES"
  | .kwWith => "WITH"
  | .kwTransitive => "TRANSITIVE"
  | .kwVar => "VAR"
  | .kwYield => "YIELD"
  | .kwRecord => "RECORD"
  | .kwSealed => "SEALED"
  | .kwPermits => "PERMITS"
  | .kwNonSealed => "NON_SEALED"
  | .decimalLiteral => "DECIMAL_LITERAL"
  | .hexLiteral => "HEX_LITERAL"
  | .octLiteral => "OCT_LITERAL"
  | .binaryLiteral => "BINARY_LITERAL"
  | .floatLiteral => "FLOAT_LITERAL"
  | .hexFloatLiteral => "HEX_FLOAT_LITERAL"
  | .boolLiteral => "BOOL_LITERAL"
  | .charLiteral => "CHAR_LITERAL"
  | .stringLiteral => "STRING_LITERAL"
  | .textBlock => "TEXT_BLOCK"
  | .nullLiteral => "NULL_LITERAL"
  | .lparen => "LPAREN"
  | .rparen => "RPAREN"
  | .lbrace => "LBRACE"
  | .rbrace => "RBRACE"
  | .lbrack => "LBRACK"
  | .rbrack => "RBRACK"
  | .semi => "SEMI"
  | .comma => "COMMA"
  | .dot => "DOT"
  | .assign => "ASSIGN"
  | .gt => "GT"
  | .lt => "LT"
  | .bang => "BANG"
  | .tilde => "TILDE"
  | .question => "QUESTION"
  | .colon => "COLON"
  | .equal => "EQUAL"
  | .le => "LE"
  | .ge => "GE"
  | .notEqual => "NOTEQUAL"
  | .andAnd => "AND"
  | .orOr => "OR"
  | .inc => "INC"
  | .dec => "DEC"
  | .add => "ADD"
  | .sub => "SUB"
  | .mul => "MUL"
  | .div => "DIV"
  | .bitAnd => "BITAND"
  | .bitOr => "BITOR"
  | .caret => "CARET"
  | .mod => "MOD"
  | .addAssign => "ADD_ASSIGN"
  | .subAssign => "SUB_ASSIGN"
  | .mulAssign => "MUL_ASSIGN"
  | .divAssign => "DIV_ASSIGN"
  | .andAssign => "AND_ASSIGN"
  | .orAssign => "OR_ASSIGN"
  | .xorAssign => "XOR_ASSIGN"
  | .modAssign => "MOD_ASSIGN"
  | .lshiftAssign => "LSHIFT_ASSIGN"
  | .rshiftAssign => "RSHIFT_ASSIGN"
  | .urshiftAssign => "URSHIFT_ASSIGN"
  | .arrow => "ARROW"
  | .colonColon => "COLONCOLON"
  | .atSign => "AT"
  | .ellipsis => "ELLIPSIS"
  | .blanks => "WS"
  | .comment => "COMMENT"
  | .lineComment => "LINE_COMMENT"
  | .identifier => "IDENTIFIER"

/-- The only way to write a token of this kind, if there is one. -/
def spelling? : Kind → Option String
  | .kwAbstract => some "abstract"
  | .kwAssert => some "assert"
  | .kwBoolean => some "boolean"
  | .kwBreak => some "break"
  | .kwByte => some "byte"
  | .kwCase => some "case"
  | .kwCatch => some "catch"
  | .kwChar => some "char"
  | .kwClass => some "class"
  | .kwConst => some "const"
  | .kwContinue => some "continue"
  | .kwDefault => some "default"
  | .kwDo => some "do"
  | .kwDouble => some "double"
  | .kwElse => some "else"
  | .kwEnum => some "enum"
  | .kwExtends => some "extends"
  | .kwFinal => some "final"
  | .kwFinally => some "finally"
  | .kwFloat => some "float"
  | .kwFor => some "for"
  | .kwIf => some "if"
  | .kwGoto => some "goto"
  | .kwImplements => some "implements"
  | .kwImport => some "import"
  | .kwInstanceof => some "instanceof"
  | .kwInt => some "int"
  | .kwInterface => some "interface"
  | .kwLong => some "long"
  | .kwNative => some "native"
  | .kwNew => some "new"
  | .kwPackage => some "package"
  | .kwPrivate => some "private"
  | .kwProtected => some "protected"
  | .kwPublic => some "public"
  | .kwReturn => some "return"
  | .kwShort => some "short"
  | .kwStatic => some "static"
  | .kwStrictfp => some "strictfp"
  | .kwSuper => some "super"
  | .kwSwitch => some "switch"
  | .kwSynchronized => some "synchronized"
  | .kwThis => some "this"
  | .kwThrow => some "throw"
  | .kwThrows => some "throws"
  | .kwTransient => some "transient"
  | .kwTry => some "try"
  | .kwVoid => some "void"
  | .kwVolatile => some "volatile"
  | .kwWhile => some "while"
  | .kwModule => some "module"
  | .kwOpen => some "open"
  | .kwRequires => some "requires"
  | .kwExports => some "exports"
  | .kwOpens => some "opens"
  | .kwTo => some "to"
  | .kwUses => some "uses"
  | .kwProvides => some "provides"
  | .kwWith => some "with"
  | .kwTransitive => some "transitive"
  | .kwVar => some "var"
  | .kwYield => some "yield"
  | .kwRecord => some "record"
  | .kwSealed => some "sealed"
  | .kwPermits => some "permits"
  | .kwNonSealed => some "non-sealed"
  | .nullLiteral => some "null"
  | .lparen => some "("
  | .rparen => some ")"
  | .lbrace => some "\x7b"
  | .rbrace => some "\x7d"
  | .lbrack => some "["
  | .rbrack => some "]"
  | .semi => some ";"
  | .comma => some ","
  | .dot => some "."
  | .assign => some "="
  | .gt => some ">"
  | .lt => some "<"
  | .bang => some "!"
  | .tilde => some "~"
  | .question => some "?"
  | .colon => some ":"
  | .equal => some "=="
  | .le => some "<="
  | .ge => some ">="
  | .notEqual => some "!="
  | .andAnd => some "&&"
  | .orOr => some "||"
  | .inc => some "++"
  | .dec => some "--"
  | .add => some "+"
  | .sub => some "-"
  | .mul => some "*"
  | .div => some "/"
  | .bitAnd => some "&"
  | .bitOr => some "|"
  | .caret => some "^"
  | .mod => some "%"
  | .addAssign => some "+="
  | .subAssign => some "-="
  | .mulAssign => some "*="
  | .divAssign => some "/="
  | .andAssign => some "&="
  | .orAssign => some "|="
  | .xorAssign => some "^="
  | .modAssign => some "%="
  | .lshiftAssign => some "<<="
  | .rshiftAssign => some ">>="
  | .urshiftAssign => some ">>>="
  | .arrow => some "->"
  | .colonColon => some "::"
  | .atSign => some "@"
  | .ellipsis => some "..."
  | _ => none

/-- Blanks and comments: kinds that the parser never sees. -/
def hidden : Kind → Bool
  | .blanks | .comment | .lineComment => true
  | _ => false

/-- How a message lists a kind that it expects: the quoted spelling, else the symbolic name. -/
def display (k : Kind) : String :=
  if k = .eof then "<EOF>"
  else match k.spelling? with
    | some s => "'" ++ s ++ "'"
    | none => k.name

/-- The text of a token of this kind that stands for one missing in the source. Only the kinds
after the last one with a spelling go by their symbolic name here. -/
def missingText (k : Kind) : String :=
  if k = .eof then "<missing EOF>"
  else match k.spelling? with
    | some s => "<missing '" ++ s ++ "'>"
    | none =>
      if k.ctorIdx ≤ Kind.ellipsis.ctorIdx then "<missing <INVALID>>"
      else "<missing " ++ k.name ++ ">"

end Kind

end Callscope
