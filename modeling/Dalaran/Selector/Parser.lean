import Dalaran.Base.Descent
import Dalaran.Selector.Lexer

/-
  The selector parser (`selector/parser.rs`).

  Of a token the parser reads only its type, so the productions are over token
  types. A path of `pack` is read by productions of its own that mirror those of
  an expression. What differs is what a bare identifier and `[]` are there, and
  what is built: that is a `Navigation`, and each pair of productions is one
  definition over it.

  Expressions nest only in `map`. The fuel of `expr` is the depth of this
  nesting; each level takes a token, so there are never more levels than tokens.

  Correspondence (Rust ↔ Lean):
    `Literal`, `Expr`, `PathExpr`, `Error` ↔ `Literal`, `Expr`, `PathExpr`, `ParseError`
    `Parser::{primary, postfix, term, expr}` ↔ `primary`, `applyPostfix`, `term`, `expr`
    `Parser::path_{primary, postfix, term, expr}` ↔ `pathPrimary`, `pathApplyPostfix`, `pathTerm`,
      `pathExpr`
    `From<&PathExpr> for Expr` ↔ `PathExpr.toExpr`
-/

namespace Dalaran.Selector

open Descent

/-! ## Expressions -/

inductive Literal where
  | string (value : Text)
  deriving DecidableEq

inductive PathExpr where
  | identity
  | field (name : Text)
  | index (n : UInt64)
  | tryOp (inner : PathExpr)
  | nonNull (inner : PathExpr)
  | pipe (left right : PathExpr) (implicit : Bool)
  deriving DecidableEq

inductive Expr where
  | identity
  | field (name : Text)
  | index (n : UInt64)
  | each
  | pipe (left right : Expr) (implicit : Bool)
  | tryOp (inner : Expr)
  | nonNull (inner : Expr)
  | function (name : Text) (arguments : Option (List Literal))
  | map (body : Expr)
  | pack (paths : List PathExpr)
  deriving DecidableEq

def PathExpr.toExpr : PathExpr → Expr
  | .identity => .identity
  | .field name => .field name
  | .index n => .index n
  | .tryOp inner => .tryOp inner.toExpr
  | .nonNull inner => .nonNull inner.toExpr
  | .pipe left right implicit => .pipe left.toExpr right.toExpr implicit

inductive ParseError where
  | expectedSymbol (expected found : TokenType)
  | unexpectedSymbol (symbol : TokenType)
  | unexpectedEof
  | packPathNotScalar (symbol : TokenType)
  deriving DecidableEq

/-- A production: what it read and the tokens it left. -/
abbrev Production (α : Type) := Descent.Parser TokenType ParseError α

/-! ## Navigation -/

/-- What the two grammars make of what they share, and what `[]` is in each. -/
structure Navigation (ε : Type) where
  identity : ε
  field : Text → ε
  index : UInt64 → ε
  each : Except ParseError ε
  pipe : ε → ε → Bool → ε
  tryOp : ε → ε
  nonNull : ε → ε

def exprNavigation : Navigation Expr where
  identity := .identity
  field := .field
  index := .index
  each := .ok .each
  pipe := .pipe
  tryOp := .tryOp
  nonNull := .nonNull

def pathNavigation : Navigation PathExpr where
  identity := .identity
  field := .field
  index := .index
  each := .error (.packPathNotScalar .rBracket)
  pipe := .pipe
  tryOp := .tryOp
  nonNull := .nonNull

def isSegmentStart : List TokenType → Bool
  | .field _ :: _ | .lBracket :: _ => true
  | _ => false

def consume (expected : TokenType) : List TokenType → Except ParseError (List TokenType)
  | [] => .error .unexpectedEof
  | token :: rest => if token = expected then .ok rest else .error (.expectedSymbol expected token)

namespace Navigation

variable {ε : Type}

def primary (nav : Navigation ε) : Production ε
  | .field name :: rest => .ok (nav.field name, rest)
  | [.lBracket] => .error .unexpectedEof
  | .lBracket :: .rBracket :: rest => nav.each.map fun each => (each, rest)
  | .lBracket :: .integer n :: rest => (consume .rBracket rest).map fun rest => (nav.index n, rest)
  | .lBracket :: unexpected :: _ => .error (.unexpectedSymbol unexpected)
  | unexpected :: _ => .error (.unexpectedSymbol unexpected)
  | [] => .error .unexpectedEof

def applyPostfix (nav : Navigation ε) : ε → List TokenType → ε × List TokenType
  | e, .questionMark :: rest => nav.applyPostfix (nav.tryOp e) rest
  | e, .exclamationMark :: rest => nav.applyPostfix (nav.nonNull e) rest
  | e, rest => (e, rest)

def segment (nav : Navigation ε) : Production ε := fun ts =>
  nav.primary ts >>= fun (e, rest) => .ok (nav.applyPostfix e rest)

/-- Another segment, which stands right behind the one before it. -/
def nextSegment (ts : List TokenType) : Option (List TokenType) :=
  if isSegmentStart ts then some ts else none

/-- Segments joined by implicit pipes. -/
def segments (nav : Navigation ε) : Production ε :=
  joined nav.segment nextSegment nav.segment fun left right => nav.pipe left right true

/-- `ident` is the production behind a bare identifier. -/
def term (nav : Navigation ε) (ident : Text → Production ε) : Production ε
  | .ident name :: rest => ident name rest
  | .dot :: rest => if isSegmentStart rest then nav.segments rest else .ok (nav.identity, rest)
  | [] => .error .unexpectedEof
  | ts => nav.segments ts

def nextTerm : List TokenType → Option (List TokenType)
  | .pipe :: rest => some rest
  | _ => none

def expr (nav : Navigation ε) (ident : Text → Production ε) : Production ε :=
  joined (nav.term ident) nextTerm (nav.term ident) fun left right => nav.pipe left right false

end Navigation

/-! ## Paths -/

def pathPrimary : Production PathExpr := pathNavigation.primary

def pathApplyPostfix : PathExpr → List TokenType → PathExpr × List TokenType :=
  pathNavigation.applyPostfix

/-- A bare identifier is `map`, `pack` or a function, and none of them is a path. -/
def notScalar (name : Text) : Production PathExpr := fun _ => .error (.packPathNotScalar (.ident name))

def pathTerm : Production PathExpr := pathNavigation.term notScalar

def pathExpr : Production PathExpr := pathNavigation.expr notScalar

/-! ## Identifiers -/

def literal : Production Literal
  | .stringLiteral value :: rest => .ok (.string value, rest)
  | unexpected :: _ => .error (.unexpectedSymbol unexpected)
  | [] => .error .unexpectedEof

def single {α : Type} (item : Production α) : Production (List α) := fun ts =>
  item ts >>= fun (a, rest) => .ok ([a], rest)

def nextArgument : List TokenType → Option (List TokenType)
  | .semicolon :: rest => some rest
  | _ => none

def nextPath : List TokenType → Option (List TokenType)
  | .comma :: rest => some rest
  | _ => none

/-- The name has been read. -/
def functionArgs (name : Text) : Production Expr
  | .lParen :: .rParen :: rest => .ok (.function name (some []), rest)
  | .lParen :: rest =>
    joined (single literal) nextArgument literal (fun arguments a => arguments ++ [a]) rest >>=
      fun (arguments, rest) =>
        (consume .rParen rest).map fun rest => (.function name (some arguments), rest)
  | rest => .ok (.function name none, rest)

def mapExpr (expr : Production Expr) : Production Expr := fun ts => do
  let rest ← consume .lParen ts
  let (body, rest) ← expr rest
  let rest ← consume .rParen rest
  return (.map body, rest)

/-- `pack` has been read. -/
def packExpr : Production Expr := fun ts => do
  let rest ← consume .lParen ts
  if rest.head? = some .rParen then throw (.unexpectedSymbol .rParen)
  let (paths, rest) ← joined (single pathExpr) nextPath pathExpr (fun paths p => paths ++ [p]) rest
  let rest ← consume .rParen rest
  return (.pack paths, rest)

/-- The production behind a bare identifier. -/
def identExpr (expr : Production Expr) (name : Text) : Production Expr :=
  if name = "map".toList then mapExpr expr
  else if name = "pack".toList then packExpr
  else functionArgs name

/-! ## Expressions -/

def primary : Production Expr := exprNavigation.primary

def applyPostfix : Expr → List TokenType → Expr × List TokenType := exprNavigation.applyPostfix

def expr : Nat → Production Expr
  | 0 => fun _ => .error .unexpectedEof
  | fuel + 1 => exprNavigation.expr (identExpr (expr fuel))

def term (fuel : Nat) : Production Expr := exprNavigation.term (identExpr (expr fuel))

def parse (tokens : List Token) : Except ParseError Expr :=
  expr (tokens.length + 1) (tokens.map Token.typ) >>= fun (e, rest) =>
    match rest with
    | [] => .ok e
    | symbol :: _ => .error (.unexpectedSymbol symbol)

/-- `selector::Error`, as far as reading goes. -/
inductive SelectorError where
  | lex (error : LexError)
  | parse (error : ParseError)
  deriving DecidableEq

def fromStr (tables : UnicodeTables) (query : Text) : Except SelectorError Expr := do
  let tokens ← (scanTokens tables query).mapError .lex
  (parse tokens).mapError .parse

end Dalaran.Selector
