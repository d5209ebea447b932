import Dalaran.Base.Tokens
import Dalaran.Path.EntityPathPart

/-
  Parsing entity paths and data paths (`parse_path.rs`), and printing entity
  paths (`entity_path.rs`).

  The strict parser cuts a text at `/`, `[`, `]`, `:` and `#`, takes a component
  off behind the first `:`, an instance off at the first `[`, and what is left
  for the entity path. The forgiving parser cuts at `/` alone and takes whatever
  it finds. It keeps what it has parsed in a table of the whole process, under
  the 64-bit hash of the text; the hash function is a parameter.

  Correspondence (Rust ↔ Lean):
    `Display for EntityPath` ↔ `EntityPath.display`
-/

namespace Dalaran

/-! ## Tokens -/

/-- `tokenize_by`. The source cuts bytes: the special ones are ASCII, so the cuts are the same. -/
def tokenizeBy (path : Text) (specialChars : List Char) : List Text :=
  Tokens.tokenize '\\' specialChars.contains path

def entityPathSeparators : List Char := ['/']

def dataPathSeparators : List Char := ['/', '[', ']', ':', '#']

def tokenizeEntityPath (path : Text) : List Text := tokenizeBy path entityPathSeparators

def tokenizeDataPath (path : Text) : List Text := tokenizeBy path dataPathSeparators

/-! ## The strict parser -/

/-- The loop over the parts. It starts with a token and meets the end only behind a part. -/
def partsLoop (cls : CharClass) : List Text → Except PathParseError (List String)
  | [] => .error .trailingSlash
  | token :: tokens =>
    if token = ['/'] then .error .doubleSlash
    else
      match EntityPathPart.parseStrict cls token with
      | .error e => .error e
      | .ok part =>
        match tokens with
        | [] => .ok [part]
        | next :: tokens =>
          if next = ['/'] then (partsLoop cls tokens).map (part :: ·) else .error .missingSlash

def entityPathPartsFromTokensStrict (cls : CharClass) (tokens : List Text) : Except PathParseError (List String) :=
  if tokens = [] then .error .missingPath
  else if tokens = [['/']] then .ok []
  else partsLoop cls (if tokens.head? = some ['/'] then tokens.tail else tokens)

structure DataPath where
  entityPath : EntityPath
  instanceIndex : Option Instance
  component : Option ComponentIdentifier
  deriving DecidableEq

def ComponentIdentifier.tryNew (field : Text) : Except PathParseError ComponentIdentifier :=
  if field = [] then .error .invalidComponentIdentifier else .ok ⟨String.ofList field⟩

namespace DataPath

/-- The component behind the first colon, and the tokens in front of it. -/
def takeComponent (tokens : List Text) : Except PathParseError (Option ComponentIdentifier × List Text) :=
  match tokens.findIdx? (· == [':']) with
  | none => .ok (none, tokens)
  | some firstColon =>
    let componentTokens := tokens.drop (firstColon + 1)
    if componentTokens = [] ∨ componentTokens.getLast? = some [':'] then .error .trailingColon
    else
      (ComponentIdentifier.tryNew componentTokens.flatten).map fun component =>
        (some component, tokens.take firstColon)

/-- The instance at the first bracket, and the tokens in front of it. The token behind the bracket
is not looked at. -/
def takeInstance (tokens : List Text) : Except PathParseError (Option Instance × List Text) :=
  match tokens.findIdx? (· == ['[']) with
  | none => .ok (none, tokens)
  | some bracket =>
    let instanceTokens := tokens.drop bracket
    if instanceTokens.length ≠ 4 ∨ instanceTokens.getLast? ≠ some [']'] then
      .error (.badInstance instanceTokens.flatten)
    else
      match fromStrRadix 64 10 (instanceTokens.getD 2 []) with
      | some nr => .ok (some nr, tokens.take bracket)
      | none => .error (.badInstance (instanceTokens.getD 2 []))

def fromStr (cls : CharClass) (path : Text) : Except PathParseError DataPath :=
  if path = [] then .error .emptyString
  else
    match takeComponent (tokenizeDataPath path) with
    | .error e => .error e
    | .ok (component, tokens) =>
      match takeInstance tokens with
      | .error e => .error e
      | .ok (instanceIndex, tokens) =>
        (entityPathPartsFromTokensStrict cls tokens).map fun parts =>
          { entityPath := ⟨parts⟩, instanceIndex := instanceIndex, component := component }

end DataPath

namespace EntityPath

def parseStrict (cls : CharClass) (input : Text) : Except PathParseError EntityPath :=
  match DataPath.fromStr cls input with
  | .error e => .error e
  | .ok dataPath =>
    match dataPath.instanceIndex, dataPath.component with
    | some i, _ => .error (.unexpectedInstance i)
    | none, some component => .error (.unexpectedComponent component)
    | none, none => .ok dataPath.entityPath

/-! ## The forgiving parser -/

/-- The table of parsed texts, by their hashes. -/
abbrev ForgivingParseCache := Assoc UInt64 EntityPath

/-- The path a text is read as: empty parts are passed over. -/
def readForgiving (input : Text) : EntityPath :=
  ⟨((tokenizeEntityPath input).filter (· != ['/'])).map fun part =>
    (EntityPathPart.parseForgivingWithWarning part).1⟩

def forgivingWarning (input : Text) : Option PathWarning :=
  (((tokenizeEntityPath input).filter (· != ['/'])).flatMap fun part =>
    (EntityPathPart.parseForgivingWithWarning part).2).head?

def parseForgiving (hash : Text → UInt64) (cache : ForgivingParseCache) (input : Text) :
    EntityPath × ForgivingParseCache :=
  match cache.lookup (hash input) with
  | some cached => (cached, cache)
  | none => (readForgiving input, cache.insert (hash input) (readForgiving input))

/-! ## Printing -/

def display (cls : CharClass) (p : EntityPath) : Text :=
  if p.parts = [] then ['/'] else p.parts.flatMap fun part => '/' :: EntityPathPart.escapedString cls part

end EntityPath

end Dalaran
