import Jadren.Library.Text
import Jadren.Library.Utf8
import Jadren.Syntax.Tokens

/-!
# The lexer

The lexer goes through a text by byte positions; to look at the text at a position inside a
character, or to slice it there, would be a panic, `none` here.  Loops run with a fuel, for which
`Tiling` shows the number of characters to be enough.

`decodeQuoted` belongs to a later phase, which takes the text of a literal token apart again.
-/

namespace Jadren.Syntax

open Text (isWhitespace)
open Utf8

/-- Stable diagnostic code and texts, with the range of the primary label. -/
structure Diagnostic where
  code : String
  message : String
  span : Span
  label : String
  help : Option String
  deriving DecidableEq

structure LexOutput where
  tokens : List (Token TokenKind)
  diagnostics : List Diagnostic

/-- The empty range at a position. -/
def Span.empty (source position : ℕ) : Span := ⟨source, position, position, le_rfl⟩

/-- The symbols of more than one character, in the order in which they are tried. -/
def longSymbols : List (List Char × TokenKind) :=
  [(['.', '.', '<'], .operator .rangeExclusive), (['-', '>'], .operator .arrow),
    (['=', '>'], .operator .fatArrow), (['=', '='], .operator .equal),
    (['!', '='], .operator .notEqual), (['<', '='], .operator .lessEqual),
    (['>', '='], .operator .greaterEqual), (['&', '&'], .operator .and),
    (['|', '|'], .operator .or), (['+', '='], .operator .plusAssign),
    (['-', '='], .operator .minusAssign), (['*', '='], .operator .starAssign),
    (['/', '='], .operator .slashAssign), (['%', '='], .operator .percentAssign),
    (['.', '.'], .operator .range), ([':', ':'], .operator .pathSeparator)]

def shortSymbols : List (List Char × TokenKind) :=
  [(['('], .punctuation .leftParen), ([')'], .punctuation .rightParen),
    (['{'], .punctuation .leftBrace), (['}'], .punctuation .rightBrace),
    (['['], .punctuation .leftBracket), ([']'], .punctuation .rightBracket),
    ([','], .punctuation .comma), (['.'], .punctuation .dot), ([':'], .punctuation .colon),
    ([';'], .punctuation .semicolon), (['@'], .punctuation .at), (['='], .operator .assign),
    (['+'], .operator .plus), (['-'], .operator .minus), (['*'], .operator .star),
    (['/'], .operator .slash), (['%'], .operator .percent), (['!'], .operator .bang),
    (['&'], .operator .ampersand), (['|'], .operator .pipe), (['^'], .operator .caret),
    (['~'], .operator .tilde), (['?'], .operator .question), (['<'], .operator .less),
    (['>'], .operator .greater)]

/-- The symbol at the beginning of the text, and its width. -/
def matchSymbol (text : List Char) : Option (TokenKind × ℕ) :=
  ((longSymbols ++ shortSymbols).find? fun entry => entry.1.isPrefixOf text).map
    fun entry => (entry.2, entry.1.length)

/-- Any two neighbours of the text. -/
def anyPair (test : Char → Char → Bool) : List Char → Bool
  | a :: b :: rest => test a b || anyPair test (b :: rest)
  | _ => false

def hasInvalidNumericSeparator (literal : List Char) : Bool :=
  literal.head? == some '_' || literal.getLast? == some '_' ||
    anyPair (fun a b => (a == '_' && b == '_') ||
      (a == '_' && (b == '.' || b == 'e' || b == 'E')) ||
      ((a == '.' || a == 'e' || a == 'E' || a == '+' || a == '-') && b == '_')) literal

structure Lexer where
  position : ℕ
  output : LexOutput

namespace Lexer

section Text

variable (source : ℕ) (text : List Char)

def remaining (position : ℕ) : Option (List Char) := dropBytes text position

def startsWith (symbol : List Char) (position : ℕ) : Option Bool := do
  let rest ← remaining text position
  pure (symbol.isPrefixOf rest)

def peekChar (position : ℕ) : Option (Option Char) := do
  let rest ← remaining text position
  pure rest.head?

def peekSecondChar (position : ℕ) : Option (Option Char) := do
  let rest ← remaining text position
  pure rest.tail.head?

def advanceChar (position : ℕ) : Option ℕ := do
  let character ← peekChar text position
  pure (match character with
    | some character => position + character.utf8Size
    | none => position)

/-- Advances past the characters that satisfy the test. -/
def advanceWhile (test : Char → Bool) : ℕ → ℕ → Option ℕ
  | 0, _ => none
  | fuel + 1, position => do
      let character ← peekChar text position
      if character.any test then
        let position ← advanceChar text position
        advanceWhile test fuel position
      else pure position

/-- Advances past the characters that satisfy the test, with enough fuel. -/
def skipWhile (test : Char → Bool) (position : ℕ) : Option ℕ :=
  advanceWhile text test (text.length + 1) position

def span (start position : ℕ) : Span :=
  (Span.new source start position).getD (Span.empty source start)

/-- The lexer past a token, with the diagnostics of the token. -/
def pushWith (lexer : Lexer) (kind : TokenKind) (start position : ℕ)
    (diagnostics : List Diagnostic) : Lexer where
  position := position
  output :=
    { tokens := lexer.output.tokens ++ [⟨kind, span source start position⟩]
      diagnostics := lexer.output.diagnostics ++ diagnostics }

def push (lexer : Lexer) (kind : TokenKind) (start position : ℕ) : Lexer :=
  lexer.pushWith source kind start position []

def lexLineComment (lexer : Lexer) (start : ℕ) : Option Lexer := do
  let doc ← startsWith text ['/', '/', '/'] lexer.position
  let position ← skipWhile text (fun c => !(c == '\r' || c == '\n')) (lexer.position + 2)
  pure (lexer.push source (if doc then .docLineComment else .lineComment) start position)

/-- The loop of `lex_block_comment`: the position at its end and whether the comment is closed.
The depth saturates. -/
def blockCommentLoop : ℕ → ℕ → ℕ → Option (ℕ × Bool)
  | 0, _, _ => none
  | fuel + 1, depth, position =>
      if position < byteLen text then do
        if ← startsWith text ['/', '*'] position then
          blockCommentLoop fuel (min (depth + 1) (2 ^ 32 - 1)) (position + 2)
        else if ← startsWith text ['*', '/'] position then
          if depth - 1 = 0 then pure (position + 2, true)
          else blockCommentLoop fuel (depth - 1) (position + 2)
        else
          let position ← advanceChar text position
          blockCommentLoop fuel depth position
      else pure (position, false)

def unterminatedComment (span : Span) : Diagnostic where
  code := "J0002"
  message := "unterminated block comment"
  span := span
  label := "this comment is not closed"
  help := some "add `*/` before the end of the file"

def lexBlockComment (lexer : Lexer) (start : ℕ) : Option Lexer := do
  let opening ← startsWith text ['/', '*', '*'] lexer.position
  let empty ← startsWith text ['/', '*', '*', '/'] lexer.position
  let kind := if opening && !empty then TokenKind.docBlockComment else .blockComment
  let (position, closed) ← blockCommentLoop text (text.length + 1) 1 (lexer.position + 2)
  pure (lexer.pushWith source kind start position
    (if closed then [] else [unterminatedComment (span source start position)]))

def invalidEscape (invalid : Char) (span : Span) : Diagnostic where
  code := "J0004"
  message := "invalid escape sequence"
  span := span
  label := s!"`\\{invalid}` is not a supported escape"
  help := some "use one of: \\n, \\r, \\t, \\0, \\\\, \\\", or \\'"

def unterminatedLiteral (quote : Char) (span : Span) : Diagnostic :=
  let description := if quote = '"' then "string" else "character"
  { code := "J0003"
    message := s!"unterminated {description} literal"
    span := span
    label := s!"this {description} literal is not closed"
    help := some s!"add `{quote}` before the end of the line" }

def invalidCharacterLiteral (span : Span) : Diagnostic where
  code := "J0005"
  message := "invalid character literal"
  span := span
  label := "a character literal must contain exactly one character"
  help := some "use double quotes for a string literal"

/-- The characters that may follow a backslash. -/
def isEscape (c : Char) : Bool :=
  c == 'n' || c == 'r' || c == 't' || c == '0' || c == '\\' || c == '"' || c == '\''

/-- What the loop of `lex_quoted` has found. -/
structure Quoted where
  position : ℕ
  logicalCharacters : ℕ
  closed : Bool
  diagnostics : List Diagnostic

/-- The loop of `lex_quoted`. -/
def quotedLoop (quote : Char) : ℕ → Quoted → Option Quoted
  | 0, _ => none
  | fuel + 1, found => do
      match ← peekChar text found.position with
      | none => pure found
      | some character =>
          if character = quote then
            let position ← advanceChar text found.position
            pure { found with position := position, closed := true }
          else if character = '\r' ∨ character = '\n' then pure found
          else if character = '\\' then
            let escapeStart := found.position
            let position ← advanceChar text escapeStart
            match ← peekChar text position with
            | some escaped =>
                let position ← advanceChar text position
                if isEscape escaped then
                  quotedLoop quote fuel { found with
                    position := position
                    logicalCharacters := found.logicalCharacters + 1 }
                else
                  quotedLoop quote fuel { found with
                    position := position
                    diagnostics := found.diagnostics ++
                      [invalidEscape escaped (span source escapeStart position)] }
            | none => pure { found with position := position }
          else
            let position ← advanceChar text found.position
            quotedLoop quote fuel { found with
              position := position
              logicalCharacters := found.logicalCharacters + 1 }

def lexQuoted (lexer : Lexer) (start : ℕ) (quote : Char) (kind : TokenKind) : Option Lexer := do
  let position ← advanceChar text lexer.position
  let found ← quotedLoop source text quote (text.length + 1) ⟨position, 0, false, []⟩
  let whole := span source start found.position
  pure (lexer.pushWith source kind start found.position (found.diagnostics ++
    if !found.closed then [unterminatedLiteral quote whole]
    else if quote = '\'' ∧ found.logicalCharacters ≠ 1 then [invalidCharacterLiteral whole]
    else []))

def lexIdentifier (lexer : Lexer) (start : ℕ) : Option Lexer := do
  let position ← advanceChar text lexer.position
  let position ← skipWhile text (fun c => c.isAlphanum || c == '_') position
  let name ← Utf8.slice text start position
  pure (lexer.push source
    ((Keyword.fromIdentifier name).elim .identifier TokenKind.keyword) start position)

def consumeDigitsAndUnderscores (position : ℕ) : Option ℕ :=
  skipWhile text (fun c => c.isDigit || c == '_') position

def invalidSeparator (span : Span) : Diagnostic where
  code := "J0006"
  message := "invalid numeric separator"
  span := span
  label := "underscores must separate digits"
  help := some "remove repeated, leading, or trailing underscores"

/-- The fraction of a number, if there is one. -/
def lexFraction (position : ℕ) : Option (ℕ × Bool) := do
  let character ← peekChar text position
  let range ← startsWith text ['.', '.'] position
  let second ← peekSecondChar text position
  if character = some '.' ∧ range = false ∧ second.any Char.isDigit then
    let position ← advanceChar text position
    let position ← consumeDigitsAndUnderscores text position
    pure (position, true)
  else pure (position, false)

/-- The exponent of a number, if there is one. -/
def lexExponent (position : ℕ) : Option (ℕ × Bool) := do
  let character ← peekChar text position
  if character = some 'e' ∨ character = some 'E' then
    let position ← advanceChar text position
    let sign ← peekChar text position
    let position ← if sign = some '+' ∨ sign = some '-' then advanceChar text position
      else pure position
    let position ← consumeDigitsAndUnderscores text position
    pure (position, true)
  else pure (position, false)

def lexNumber (lexer : Lexer) (start : ℕ) : Option Lexer := do
  let position ← consumeDigitsAndUnderscores text lexer.position
  let (position, fraction) ← lexFraction text position
  let (position, exponent) ← lexExponent text position
  let position ← skipWhile text Char.isAlphanum position
  let literal ← Utf8.slice text start position
  pure (lexer.pushWith source (if fraction || exponent then .floatLiteral else .integerLiteral)
    start position
    (if hasInvalidNumericSeparator literal then [invalidSeparator (span source start position)]
    else []))

def invalidCharacter (character : Char) (span : Span) : Diagnostic where
  code := "J0001"
  message := "invalid character"
  span := span
  label := s!"`{character}` is not valid Jadren syntax"
  help := some "remove the character or replace it with a valid token"

def lexOne (lexer : Lexer) : Option Lexer := do
  let start := lexer.position
  let rest ← remaining text start
  if start = 0 ∧ ['\ufeff'].isPrefixOf rest then
    let position ← advanceChar text start
    return lexer.push source .whitespace start position
  match rest.head? with
  | none => return lexer
  | some character =>
      if isWhitespace character then
        let position ← advanceChar text start
        let position ← skipWhile text isWhitespace position
        return lexer.push source .whitespace start position
      if ['/', '/'].isPrefixOf rest then lexLineComment source text lexer start
      else if ['/', '*'].isPrefixOf rest then lexBlockComment source text lexer start
      else if character = '"' then lexQuoted source text lexer start '"' .stringLiteral
      else if character = '\'' then lexQuoted source text lexer start '\'' .charLiteral
      else if character.isAlpha ∨ character = '_' then lexIdentifier source text lexer start
      else if character.isDigit then lexNumber source text lexer start
      else
        match matchSymbol rest with
        | some (kind, width) => return lexer.push source kind start (start + width)
        | none =>
            let position ← advanceChar text start
            return lexer.pushWith source .invalid start position
              [invalidCharacter character (span source start position)]

/-- The loop of `run`. -/
def runLoop : ℕ → Lexer → Option Lexer
  | 0, _ => none
  | fuel + 1, lexer =>
      if lexer.position < byteLen text then do
        let lexer ← lexOne source text lexer
        runLoop fuel lexer
      else pure lexer

end Text

end Lexer

/-- Lexes one immutable source file. -/
def lex (source : ℕ) (text : List Char) : Option LexOutput := do
  let lexer ← Lexer.runLoop source text (text.length + 1) ⟨0, [], []⟩
  pure { lexer.output with
    tokens := lexer.output.tokens ++ [⟨.eof, Span.empty source (byteLen text)⟩] }

/-! ## Decoding a literal -/

inductive DecodeError where
  | notEnclosed (quote : Char)
  | incompleteEscape
  | unsupportedEscape (escaped : Char)
  deriving DecidableEq

/-- The text without a character at its beginning. -/
def stripPrefix (c : Char) : List Char → Option (List Char)
  | first :: rest => if first = c then some rest else none
  | [] => none

/-- The text without a character at its end. -/
def stripSuffix (c : Char) (text : List Char) : Option (List Char) :=
  if text.getLast? = some c then some text.dropLast else none

/-- The character for an escape. -/
def unescape : Char → Option Char
  | 'n' => some '\n'
  | 'r' => some '\r'
  | 't' => some '\t'
  | '0' => some '\x00'
  | '\\' => some '\\'
  | '"' => some '"'
  | '\'' => some '\''
  | _ => none

/-- The loop of `decode_quoted`. -/
def decodeBody : List Char → Except DecodeError (List Char)
  | [] => .ok []
  | character :: rest =>
      if character ≠ '\\' then do
        let decoded ← decodeBody rest
        pure (character :: decoded)
      else
        match rest with
        | [] => .error .incompleteEscape
        | escaped :: rest =>
            match unescape escaped with
            | some character => do
                let decoded ← decodeBody rest
                pure (character :: decoded)
            | none => .error (.unsupportedEscape escaped)

def decodeQuoted (text : List Char) (quote : Char) : Except DecodeError (List UInt8) := do
  match (stripPrefix quote text).bind (stripSuffix quote) with
  | none => .error (.notEnclosed quote)
  | some body =>
      let decoded ← decodeBody body
      pure (encode decoded)

end Jadren.Syntax
