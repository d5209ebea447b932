import Dalaran.Path.EntityPathPart

/-
  The selector lexer (`selector/lexer.rs`).

  `char::is_alphabetic`, `Grapheme_Extend` and the printable characters are
  tables of the standard library, given here by what they are on ASCII. The
  lexer asks for the first, `Debug` for the other two.

  Correspondence (Rust ↔ Lean):
    `TokenType`, `Token`, `Error` ↔ `TokenType`, `Token`, `LexError`
-/

namespace Dalaran.Selector

/-! ## Characters -/

structure UnicodeTables extends CharClass where
  isAlphabetic : Char → Bool
  isGraphemeExtended : Char → Bool
  isPrintable : Char → Bool
  alphabetic : ∀ c : Char, isAlphabetic c = true → isAlphanumeric c = true
  asciiAlphabetic : ∀ c : Char, c.toNat < 128 → isAlphabetic c = c.isAlpha
  asciiGraphemeExtended : ∀ c : Char, c.toNat < 128 → isGraphemeExtended c = false
  asciiPrintable : ∀ c : Char, c.toNat < 128 → isPrintable c = (32 ≤ c.toNat && c.toNat < 127)

/-- The tables that have nothing beyond ASCII. -/
def UnicodeTables.asciiOnly : UnicodeTables where
  toCharClass := CharClass.asciiOnly
  isAlphabetic c := c.isAlpha
  isGraphemeExtended _ := false
  isPrintable c := 32 ≤ c.toNat && c.toNat < 127
  alphabetic c h := by
    change c.isAlphanum = true
    rw [Char.isAlphanum, h]
    rfl
  asciiAlphabetic _ _ := rfl
  asciiGraphemeExtended _ _ := rfl
  asciiPrintable _ _ := rfl

def isAsciiDigit (c : Char) : Bool := '0' ≤ c && c ≤ '9'

/-- The characters that continue a field name or an identifier. -/
def UnicodeTables.continuesName (tables : UnicodeTables) (c : Char) : Bool :=
  tables.isAlphanumeric c || c == '-' || c == '_'

/-! ## Tokens -/

inductive TokenType where
  | field (name : Text)
  | ident (name : Text)
  | integer (n : UInt64)
  | stringLiteral (value : Text)
  | lBracket
  | rBracket
  | lParen
  | rParen
  | dot
  | pipe
  | semicolon
  | comma
  | questionMark
  | exclamationMark
  deriving DecidableEq

structure Token where
  typ : TokenType
  line : Nat
  deriving DecidableEq

/-- `lexer::Error`. All that a run of digits can fail of as a `u64` is that it is too large. -/
inductive LexError where
  | unexpectedChar (ch : Char) (line column : Nat)
  | parseInt (lexeme : Text)
  | unterminatedString (line column : Nat)
  | invalidEscape (ch : Char) (line column : Nat)
  deriving DecidableEq

/-! ## The lexer -/

structure Lexer where
  chars : Text
  line : Nat
  column : Nat
  lexemeBuffer : Text

/-- The character that an escape in a string literal stands for. -/
def unescape : Char → Option Char
  | '\\' => some '\\'
  | '"' => some '"'
  | 'n' => some '\n'
  | 't' => some '\t'
  | _ => none

namespace Lexer

def new (source : Text) : Lexer where
  chars := source
  line := 1
  column := 1
  lexemeBuffer := []

def advance (lexer : Lexer) : Option (Char × Lexer) :=
  match lexer.chars with
  | [] => none
  | c :: chars =>
    some (c, { lexer with
      chars
      column := lexer.column + 1
      lexemeBuffer := lexer.lexemeBuffer ++ [c] })

/-- `while let Some(next) = peek && p(next) { advance }`. -/
def advanceWhile (lexer : Lexer) (p : Char → Bool) : Lexer where
  chars := lexer.chars.dropWhile p
  line := lexer.line
  column := lexer.column + (lexer.chars.takeWhile p).length
  lexemeBuffer := lexer.lexemeBuffer ++ lexer.chars.takeWhile p

def makeToken (lexer : Lexer) (typ : TokenType) : Token := ⟨typ, lexer.line⟩

/-- `mem::take(&mut self.lexeme_buffer)`. -/
def takeLexeme (lexer : Lexer) : Text × Lexer := (lexer.lexemeBuffer, { lexer with lexemeBuffer := [] })

def makeField (tables : UnicodeTables) (lexer : Lexer) : Token × Lexer :=
  let (text, lexer) := (lexer.advanceWhile tables.continuesName).takeLexeme
  (lexer.makeToken (.field text), lexer)

def makeBareIdentifier (tables : UnicodeTables) (lexer : Lexer) : Token × Lexer :=
  let (text, lexer) := (lexer.advanceWhile tables.continuesName).takeLexeme
  (lexer.makeToken (.ident text), lexer)

def makeNumber (lexer : Lexer) : Except LexError (Token × Lexer) :=
  let (lexeme, lexer) := (lexer.advanceWhile isAsciiDigit).takeLexeme
  match fromStrRadix 64 10 lexeme with
  | none => .error (.parseInt lexeme)
  | some n => .ok (lexer.makeToken (.integer (UInt64.ofNat n)), lexer)

/-- The loop of `make_string`: the value, the column behind the closing quote and what is left. -/
def stringLoop (line column startLine startColumn : Nat) (value : Text) : Text → Except LexError (Text × Nat × Text)
  | [] => .error (.unterminatedString startLine startColumn)
  | '"' :: chars => .ok (value, column + 1, chars)
  | ['\\'] => .error (.unterminatedString startLine startColumn)
  | '\\' :: ch :: chars =>
    match unescape ch with
    | some c => stringLoop line (column + 2) startLine startColumn (value ++ [c]) chars
    | none => .error (.invalidEscape ch line (column + 1))
  | ch :: chars => stringLoop line (column + 1) startLine startColumn (value ++ [ch]) chars

def makeString (lexer : Lexer) : Except LexError (Token × Lexer) := do
  let (value, column, chars) ←
    stringLoop lexer.line lexer.column lexer.line lexer.column [] lexer.chars
  return (lexer.makeToken (.stringLiteral value), { lexer with chars, column })

/-- The next token, or none for whitespace. -/
def scanToken (tables : UnicodeTables) (lexer : Lexer) : Except LexError (Option Token × Lexer) :=
  match lexer.advance with
  | none => .error (.unexpectedChar '\x00' lexer.line lexer.column)
  | some (c, lexer) =>
    let single (typ : TokenType) : Except LexError (Option Token × Lexer) :=
      .ok (some (lexer.makeToken typ), lexer)
    match c with
    | ' ' | '\r' | '\t' => .ok (none, lexer)
    | '\n' => .ok (none, { lexer with line := lexer.line + 1, column := 1 })
    | '|' => single .pipe
    | '?' => single .questionMark
    | '!' => single .exclamationMark
    | '[' => single .lBracket
    | ']' => single .rBracket
    | '(' => single .lParen
    | ')' => single .rParen
    | ';' => single .semicolon
    | ',' => single .comma
    | '"' => lexer.makeString.map fun (token, lexer) => (some token, lexer)
    | '.' =>
      if lexer.chars.head?.any tables.isAlphabetic then
        let (token, lexer) := makeField tables { lexer with lexemeBuffer := [] }
        .ok (some token, lexer)
      else single .dot
    | c =>
      if isAsciiDigit c then lexer.makeNumber.map fun (token, lexer) => (some token, lexer)
      else if tables.isAlphabetic c || c == '_' then
        let (token, lexer) := makeBareIdentifier tables lexer
        .ok (some token, lexer)
      else .error (.unexpectedChar c lexer.line (lexer.column - 1))

/-- The loop of `scan_tokens`. Every turn takes a character, so the fuel is the number of these. -/
def scanLoop (tables : UnicodeTables) : Nat → Lexer → Except LexError (List Token)
  | 0, _ => .ok []
  | fuel + 1, lexer =>
    if lexer.chars = [] then .ok []
    else do
      let (token, lexer) ← scanToken tables { lexer with lexemeBuffer := [] }
      let tokens ← scanLoop tables fuel lexer
      return token.toList ++ tokens

end Lexer

def scanTokens (tables : UnicodeTables) (source : Text) : Except LexError (List Token) :=
  Lexer.scanLoop tables source.length (Lexer.new source)

end Dalaran.Selector
