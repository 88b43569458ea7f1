import Callscope.Grammar.Java
import Callscope.Parse.Machine
import Callscope.Token.Lexer

/-!
# Parsing Java

Reads a text, or a part of one, as a phrase of a rule. The phrase need not reach to the end of the
text. Errors of the text are reported and mended, so there is always a tree.
-/

namespace Callscope

namespace Java

def tables : Tables := .ofGrammar body

def automata : Lookahead.Automata := .ofTables tables

end Java

/-- The result of reading a text. -/
structure Parse where
  lexed : Lexed
  tree : Tree
  /-- The first token that does not belong to the phrase. -/
  next : Token
  reports : List Diagnostic
  /-- The index of the furthest token asked for. -/
  seen : Nat
  deriving Inhabited

namespace Parse

/-- More steps than a text of this many tokens takes. -/
def fuel (tokens : Nat) : Nat := (tokens + 1) * 10000000

/-- Reads the phrase of a rule at the beginning of a text. Operators below the level end it. -/
def ofLexed? (lexed : Lexed) (rule : Rule) (level : Nat) : Option Parse :=
  match lexed.visible with
  | [] => none
  | current :: rest =>
    (Machine.run Java.automata (fuel rest.length)
        (Machine.start Java.automata rule level current rest)).map fun (m, tree) =>
      { lexed, tree, next := m.current, reports := m.reports.reverse, seen := m.seen }

def ofText? (text : String) (rule : Rule) (level : Nat) : Option Parse :=
  ofLexed? (.ofText text) rule level

end Parse

end Callscope
