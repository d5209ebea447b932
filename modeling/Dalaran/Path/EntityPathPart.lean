import Mathlib.Data.Nat.Digits.Defs
import Dalaran.Chunk.Chunk

/-
  The parts of an entity path as text (`entity_path_part.rs`).

  Texts are lists of characters. The source cuts and measures texts in UTF-8
  bytes: where that shows, which is in the width of a unicode escape, the byte
  length is `utf8Len`.

  `char::is_alphanumeric` is a Unicode table. It is a parameter here, `CharClass`,
  which says no more of it than what it is on ASCII.

  Correspondence (Rust ↔ Lean):
    `u32::from_str_radix`, `u64::from_str` ↔ `fromStrRadix 32 16`, `fromStrRadix 64 10`
-/

namespace Dalaran

/-! ## Characters -/

abbrev Text := List Char

structure CharClass where
  isAlphanumeric : Char → Bool
  ascii : ∀ c : Char, c.toNat < 128 → isAlphanumeric c = c.isAlphanum

def CharClass.asciiOnly : CharClass where
  isAlphanumeric c := c.isAlphanum
  ascii _ _ := rfl

def isAsciiPunctuation (c : Char) : Bool :=
  (33 ≤ c.toNat && c.toNat ≤ 47) || (58 ≤ c.toNat && c.toNat ≤ 64) ||
  (91 ≤ c.toNat && c.toNat ≤ 96) || (123 ≤ c.toNat && c.toNat ≤ 126)

/-- `char::is_whitespace`, the Unicode property `White_Space`. -/
def isWhitespace (c : Char) : Bool :=
  (9 ≤ c.toNat && c.toNat ≤ 13) || c.toNat == 0x20 || c.toNat == 0x85 || c.toNat == 0xA0 ||
  c.toNat == 0x1680 || (0x2000 ≤ c.toNat && c.toNat ≤ 0x200A) || c.toNat == 0x2028 ||
  c.toNat == 0x2029 || c.toNat == 0x202F || c.toNat == 0x205F || c.toNat == 0x3000

/-- The characters a part shows as they are. -/
def CharClass.printsAsIs (cls : CharClass) (c : Char) : Bool :=
  cls.isAlphanumeric c || ['_', '-', '.'].contains c

def utf8Len (t : Text) : Nat := (t.map Char.utf8Size).sum

/-! ## Numbers -/

def toDigit (radix : Nat) (c : Char) : Option Nat :=
  let digit :=
    if '0' ≤ c ∧ c ≤ '9' then c.toNat - 48
    else if 'a' ≤ c ∧ c ≤ 'z' then c.toNat - 87
    else if 'A' ≤ c ∧ c ≤ 'Z' then c.toNat - 55
    else radix
  if digit < radix then some digit else none

def readDigits (radix : Nat) : Nat → Text → Option Nat
  | acc, [] => some acc
  | acc, c :: t => (toDigit radix c).bind fun digit => readDigits radix (acc * radix + digit) t

/-- Reading an unsigned number of so many bits: digits, and a plus sign is let pass in front. -/
def fromStrRadix (bits radix : Nat) (t : Text) : Option Nat :=
  let digits := if t.head? = some '+' then t.tail else t
  if digits = [] then none else (readDigits radix 0 digits).filter (· < 2 ^ bits)

def upperHexDigit (digit : Nat) : Char :=
  if digit < 10 then Char.ofNat (48 + digit) else Char.ofNat (55 + digit)

/-- `{:04X}`: at least four digits. -/
def hex04 (n : Nat) : Text := ((Nat.digits 16 n).reverse.map upperHexDigit).leftpad 4 '0'

def charFromU32 (n : Nat) : Option Char := if n.isValidChar then some (Char.ofNat n) else none

/-! ## Errors -/

abbrev Instance := Nat

/-- `PathParseError`, with the data of its messages. -/
inductive PathParseError where
  | emptyString
  | missingPath
  | doubleSlash
  | missingSlash
  | trailingSlash
  | badInstance (text : Text)
  | unexpectedInstance (instanceIndex : Instance)
  | unexpectedComponent (component : ComponentIdentifier)
  | invalidComponentIdentifier
  | trailingColon
  | unknownEscapeSequence (c : Char)
  | trailingBackslash
  | missingEscape (c : Char)
  | invalidUnicodeEscape (text : Text)
  deriving DecidableEq

inductive PathWarning where
  | unknownEscapeSequence (c : Char)
  | unescapedWhitespace
  deriving DecidableEq

/-! ## Unicode escapes -/

/-- The characters taken for the escape: up to a closing brace or until they are six bytes long. -/
def takeEscape : Nat → Text → Text × Text
  | _, [] => ([], [])
  | size, c :: input =>
    if c = '}' ∨ size + c.utf8Size = 6 then ([c], input)
    else (c :: (takeEscape (size + c.utf8Size) input).1, (takeEscape (size + c.utf8Size) input).2)

theorem length_takeEscape_le (size : Nat) (input : Text) : (takeEscape size input).2.length ≤ input.length := by
  induction input generalizing size with
  | nil => simp [takeEscape]
  | cons c input ih =>
    rw [takeEscape]
    split
    · exact Nat.le_succ _
    · exact Nat.le_succ_of_le (ih _)

/-- The character of an escape, given all its characters after the `u`. -/
def readUnicodeEscape (allChars : Text) : Option Char :=
  match allChars with
  | '{' :: chars =>
    if chars.getLast? = some '}' then
      if utf8Len chars.dropLast = 4 then (fromStrRadix 32 16 chars.dropLast).bind charFromU32 else none
    else none
  | _ => none

/-- The character, or the consumed characters on failure, and the remaining input. -/
def parseUnicodeEscape (input : Text) : Except Text Char × Text :=
  let (allChars, rest) := takeEscape 0 input
  ((readUnicodeEscape allChars).elim (.error allChars) .ok, rest)

/-! ## Parts -/

namespace EntityPathPart

def escapeChar (cls : CharClass) (c : Char) : Text :=
  if cls.printsAsIs c then [c]
  else if c = '\n' then ['\\', 'n']
  else if c = '\r' then ['\\', 'r']
  else if c = '\t' then ['\\', 't']
  else if isAsciiPunctuation c || c == ' ' then ['\\', c]
  else '\\' :: 'u' :: '{' :: (hex04 c.toNat ++ ['}'])

def escapedChars (cls : CharClass) (chars : Text) : Text := chars.flatMap (escapeChar cls)

def escapedString (cls : CharClass) (part : String) : Text := escapedChars cls part.toList

def push (output : Text) (rest : Except PathParseError Text) : Except PathParseError Text :=
  rest.map (output ++ ·)

/-- The characters of a part. -/
def unescapeStrict (cls : CharClass) : Text → Except PathParseError Text
  | [] => .ok []
  | c :: input =>
    if c = '\\' then
      match input with
      | [] => .error .trailingBackslash
      | e :: chars =>
        if e = 'n' then push ['\n'] (unescapeStrict cls chars)
        else if e = 'r' then push ['\r'] (unescapeStrict cls chars)
        else if e = 't' then push ['\t'] (unescapeStrict cls chars)
        else if e = 'u' then
          match (parseUnicodeEscape chars).1 with
          | .ok c => push [c] (unescapeStrict cls (parseUnicodeEscape chars).2)
          | .error s => .error (.invalidUnicodeEscape s)
        else if isAsciiPunctuation e || e == ' ' then push [e] (unescapeStrict cls chars)
        else .error (.unknownEscapeSequence e)
    else if cls.printsAsIs c then push [c] (unescapeStrict cls input)
    else .error (.missingEscape c)
termination_by input => input.length
decreasing_by
  all_goals
    simp only [parseUnicodeEscape, List.length_cons]
    have := length_takeEscape_le 0 ‹Text›
    omega

def parseStrict (cls : CharClass) (input : Text) : Except PathParseError String :=
  (unescapeStrict cls input).map String.ofList

def pushWith (output : Text) (warnings : List PathWarning) (rest : Text × List PathWarning) :
    Text × List PathWarning :=
  (output ++ rest.1, warnings ++ rest.2)

/-- The characters of a part, whatever the input, with the warnings. -/
def unescapeForgiving : Text → Text × List PathWarning
  | [] => ([], [])
  | c :: input =>
    if c = '\\' then
      match input with
      | [] => (['\\'], [])
      | e :: chars =>
        if e = 'n' then pushWith ['\n'] [] (unescapeForgiving chars)
        else if e = 'r' then pushWith ['\r'] [] (unescapeForgiving chars)
        else if e = 't' then pushWith ['\t'] [] (unescapeForgiving chars)
        else if e = 'u' then
          match (parseUnicodeEscape chars).1 with
          | .ok c => pushWith [c] [] (unescapeForgiving (parseUnicodeEscape chars).2)
          | .error s => pushWith ('\\' :: 'u' :: s) [] (unescapeForgiving (parseUnicodeEscape chars).2)
        else if isAsciiPunctuation e || e == ' ' then pushWith [e] [] (unescapeForgiving chars)
        else pushWith [e] [.unknownEscapeSequence e] (unescapeForgiving chars)
    else pushWith [c] (if isWhitespace c then [.unescapedWhitespace] else []) (unescapeForgiving input)
termination_by input => input.length
decreasing_by
  all_goals
    simp only [parseUnicodeEscape, List.length_cons]
    have := length_takeEscape_le 0 ‹Text›
    omega

def parseForgivingWithWarning (input : Text) : String × List PathWarning :=
  (String.ofList (unescapeForgiving input).1, (unescapeForgiving input).2)

end EntityPathPart

end Dalaran
