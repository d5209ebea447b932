import Dalaran.Selector.Parser

/-
  How selectors are written (`Display` in `selector/parser.rs`).

  A literal is written by `Debug` for `str`, which has escapes of its own: what
  is not printable or extends a grapheme is written as a unicode escape.

  Correspondence (Rust ↔ Lean):
    `char::escape_debug_ext` (for `str`) ↔ `escapeDebug`
    `{n}` of a `u64` ↔ `decimal`
    `Display for Literal, PathExpr, Expr` ↔ `Literal.display`, `PathExpr.display`, `Expr.display`
-/

namespace Dalaran.Selector

/-! ## Numbers and characters -/

def digitChar (digit : Nat) : Char := Char.ofNat (48 + digit)

def decimal (n : Nat) : Text := if n = 0 then ['0'] else (Nat.digits 10 n).reverse.map digitChar

def lowerHexDigit (digit : Nat) : Char :=
  if digit < 10 then Char.ofNat (48 + digit) else Char.ofNat (87 + digit)

def unicodeEscape (c : Char) : Text :=
  '\\' :: 'u' :: '{' :: ((Nat.digits 16 c.toNat).reverse.map lowerHexDigit ++ ['}'])

/-- A character as `Debug` for `str` writes it. -/
def escapeDebug (tables : UnicodeTables) (c : Char) : Text :=
  match c with
  | '\x00' => ['\\', '0']
  | '\t' => ['\\', 't']
  | '\r' => ['\\', 'r']
  | '\n' => ['\\', 'n']
  | '\\' => ['\\', '\\']
  | '"' => ['\\', '"']
  | c =>
    if tables.isGraphemeExtended c then unicodeEscape c
    else if tables.isPrintable c then [c]
    else unicodeEscape c

/-! ## Expressions -/

def Literal.display (tables : UnicodeTables) : Literal → Text
  | .string value => '"' :: (value.flatMap (escapeDebug tables) ++ ['"'])

def PathExpr.display : PathExpr → Text
  | .identity => ['.']
  | .field name => '.' :: name
  | .index n => '[' :: (decimal n.toNat ++ [']'])
  | .tryOp inner => inner.display ++ ['?']
  | .nonNull inner => inner.display ++ ['!']
  | .pipe left right true => left.display ++ right.display
  | .pipe left right false => left.display ++ [' ', '|', ' '] ++ right.display

def Expr.display (tables : UnicodeTables) : Expr → Text
  | .identity => ['.']
  | .field name => '.' :: name
  | .index n => '[' :: (decimal n.toNat ++ [']'])
  | .each => ['[', ']']
  | .pipe left right true => left.display tables ++ right.display tables
  | .pipe left right false => left.display tables ++ [' ', '|', ' '] ++ right.display tables
  | .tryOp inner => inner.display tables ++ ['?']
  | .nonNull inner => inner.display tables ++ ['!']
  | .function name none => name
  | .function name (some arguments) =>
    name ++ '(' :: ([';', ' '].intercalate (arguments.map (Literal.display tables)) ++ [')'])
  | .map body => "map(".toList ++ body.display tables ++ [')']
  | .pack paths => "pack(".toList ++ [',', ' '].intercalate (paths.map PathExpr.display) ++ [')']

end Dalaran.Selector
