import Jadren.Syntax.Tree

/-!
# Tokens

The categories of tokens.  Three words of the language are words of Lean too, so all keywords
carry a suffix here.
-/

namespace Jadren.Syntax

/-- Reserved word. -/
inductive Keyword where
  | asKw | breakKw | componentKw | constKw | continueKw | elseKw | enumKw | externKw |
      falseKw | fnKw
  | forKw | ifKw | importKw | inKw | letKw | matchKw | moduleKw | mutKw | ownedKw | panicKw | pubKw
  | readKw | regionKw | resultKw | returnKw | sharedKw | structKw | traitKw | trueKw | typeKw
  | unsafeKw | varKw | whereKw | whileKw | writeKw
  deriving DecidableEq

/-- Delimiter or separator token. -/
inductive Punctuation where
  | leftParen | rightParen | leftBrace | rightBrace | leftBracket | rightBracket | comma | dot
  | colon | semicolon | at
  deriving DecidableEq

/-- Operator token, matched longest-first. -/
inductive Operator where
  | assign | plus | minus | star | slash | percent | bang | ampersand | pipe | caret | tilde
  | question | less | greater | equal | notEqual | lessEqual | greaterEqual | and | or | plusAssign
  | minusAssign | starAssign | slashAssign | percentAssign | arrow | fatArrow | range
  | rangeExclusive | pathSeparator
  deriving DecidableEq

/-- Lexical token category. -/
inductive TokenKind where
  | whitespace | lineComment | docLineComment | blockComment | docBlockComment | identifier
  | keyword (keyword : Keyword)
  | integerLiteral | floatLiteral | stringLiteral | charLiteral
  | punctuation (punctuation : Punctuation)
  | operator (operator : Operator)
  | invalid | eof
  deriving DecidableEq

namespace Keyword

/-- Every reserved keyword in canonical source order. -/
def all : List Keyword :=
  [.asKw, .breakKw, .componentKw, .constKw, .continueKw, .elseKw, .enumKw, .externKw, .falseKw,
    .fnKw, .forKw, .ifKw, .importKw, .inKw, .letKw, .matchKw, .moduleKw, .mutKw, .ownedKw, .panicKw,
    .pubKw, .readKw, .regionKw, .resultKw, .returnKw, .sharedKw, .structKw, .traitKw, .trueKw,
    .typeKw, .unsafeKw, .varKw, .whereKw, .whileKw, .writeKw]

/-- The canonical source spelling of a keyword. -/
def asStr : Keyword → List Char
  | .asKw => ['a', 's']
  | .breakKw => ['b', 'r', 'e', 'a', 'k']
  | .componentKw => ['c', 'o', 'm', 'p', 'o', 'n', 'e', 'n', 't']
  | .constKw => ['c', 'o', 'n', 's', 't']
  | .continueKw => ['c', 'o', 'n', 't', 'i', 'n', 'u', 'e']
  | .elseKw => ['e', 'l', 's', 'e']
  | .enumKw => ['e', 'n', 'u', 'm']
  | .externKw => ['e', 'x', 't', 'e', 'r', 'n']
  | .falseKw => ['f', 'a', 'l', 's', 'e']
  | .fnKw => ['f', 'n']
  | .forKw => ['f', 'o', 'r']
  | .ifKw => ['i', 'f']
  | .importKw => ['i', 'm', 'p', 'o', 'r', 't']
  | .inKw => ['i', 'n']
  | .letKw => ['l', 'e', 't']
  | .matchKw => ['m', 'a', 't', 'c', 'h']
  | .moduleKw => ['m', 'o', 'd', 'u', 'l', 'e']
  | .mutKw => ['m', 'u', 't']
  | .ownedKw => ['o', 'w', 'n', 'e', 'd']
  | .panicKw => ['p', 'a', 'n', 'i', 'c']
  | .pubKw => ['p', 'u', 'b']
  | .readKw => ['r', 'e', 'a', 'd']
  | .regionKw => ['r', 'e', 'g', 'i', 'o', 'n']
  | .resultKw => ['r', 'e', 's', 'u', 'l', 't']
  | .returnKw => ['r', 'e', 't', 'u', 'r', 'n']
  | .sharedKw => ['s', 'h', 'a', 'r', 'e', 'd']
  | .structKw => ['s', 't', 'r', 'u', 'c', 't']
  | .traitKw => ['t', 'r', 'a', 'i', 't']
  | .trueKw => ['t', 'r', 'u', 'e']
  | .typeKw => ['t', 'y', 'p', 'e']
  | .unsafeKw => ['u', 'n', 's', 'a', 'f', 'e']
  | .varKw => ['v', 'a', 'r']
  | .whereKw => ['w', 'h', 'e', 'r', 'e']
  | .whileKw => ['w', 'h', 'i', 'l', 'e']
  | .writeKw => ['w', 'r', 'i', 't', 'e']

/-- The keyword with this spelling. -/
def fromIdentifier (identifier : List Char) : Option Keyword :=
  all.find? fun keyword => keyword.asStr = identifier

end Keyword

end Jadren.Syntax
