import Mathlib.Data.Char
import Dalaran.Path.Filter

/-
  Entity path filters as text (`entity_path_filter.rs`).

  A text is cut at whitespace into rules, each with an effect in front. They are
  collected by their spellings, which puts them in alphabetical order, and from
  there by what they resolve to. Both maps keep the last of what is collected
  under one key.

  `parse` stands for `EntityPath::parse_forgiving`: the table it keeps makes it a
  function of the text within one process. The substitutions are listed in the
  order the hash map of the source is iterated in.
-/

namespace Dalaran

open List

/-! ## Cutting the text -/

def isAsciiWhitespace (c : Char) : Bool := [' ', '\t', '\n', '\x0c', '\r'].contains c

/-- A rule goes on to the next unescaped whitespace that does not follow its sign, and to the next
unescaped newline at most. -/
def scanRule : Bool → Bool → Bool → Text → Text × Text
  | _, _, _, [] => ([], [])
  | inEscape, isIncludeExclude, newToken, c :: path =>
    let isUnescapedWhitespace := !inEscape && isAsciiWhitespace c
    let isUnescapedNewline := !inEscape && c == '\n'
    if isUnescapedNewline || (!isIncludeExclude && isUnescapedWhitespace) then ([], c :: path)
    else
      let isSign := c == '+' || c == '-'
      let isIncludeExclude :=
        if isSign then newToken else if !isUnescapedWhitespace then false else isIncludeExclude
      let newToken := if isSign || isUnescapedWhitespace then newToken else false
      let rest := scanRule (c == '\\') isIncludeExclude newToken path
      (c :: rest.1, rest.2)

theorem length_scanRule_le (inEscape isIncludeExclude newToken : Bool) (path : Text) :
    (scanRule inEscape isIncludeExclude newToken path).2.length ≤ path.length := by
  induction path generalizing inEscape isIncludeExclude newToken with
  | nil => simp [scanRule]
  | cons c path ih =>
    simp only [scanRule]
    split
    · exact le_rfl
    · exact Nat.le_succ_of_le (ih _ _ _)

theorem length_dropWhile_le (p : Char → Bool) (path : Text) : (path.dropWhile p).length ≤ path.length :=
  (dropWhile_suffix p).length_le

theorem length_afterRule_lt (c : Char) (path : Text) :
    ((scanRule false false true (c :: path)).2.dropWhile isAsciiWhitespace).length < (c :: path).length := by
  simp only [scanRule, Bool.not_false, Bool.true_and, length_cons]
  split
  · next hstop =>
    have hc : isAsciiWhitespace c = true := by
      rcases Bool.or_eq_true _ _ ▸ hstop with hnewline | hspace
      · rw [beq_iff_eq.mp hnewline]
        decide
      · exact hspace
    rw [dropWhile_cons_of_pos hc]
    exact Nat.lt_succ_of_le (length_dropWhile_le _ _)
  · exact Nat.lt_succ_of_le ((length_dropWhile_le _ _).trans (length_scanRule_le _ _ _ _))

def splitWhitespaceSmart : Text → List Text
  | [] => []
  | c :: path =>
    let token := (scanRule false false true (c :: path)).1
    let rest := splitWhitespaceSmart ((scanRule false false true (c :: path)).2.dropWhile isAsciiWhitespace)
    if token = [] then rest else token :: rest
termination_by path => path.length
decreasing_by exact length_afterRule_lt c path

def trim (t : Text) : Text := ((t.dropWhile isWhitespace).reverse.dropWhile isWhitespace).reverse

/-! ## Rules as they are written -/

/-- `EntityPathRule`: the raw text, in alphabetical order. -/
abbrev EntityPathRule := Text

def EntityPathRule.new (expression : Text) : EntityPathRule := trim expression

def subtreeSuffix : Text := ['/', '*', '*']

def EntityPathRule.exactEntity (cls : CharClass) (path : EntityPath) : EntityPathRule := path.display cls

def EntityPathRule.includingEntitySubtree (cls : CharClass) (entityPath : EntityPath) : EntityPathRule :=
  entityPath.display cls ++ subtreeSuffix

def EntityPathRule.includeSubtree (rule : EntityPathRule) : Bool := subtreeSuffix.isSuffixOf rule

theorem includingEntitySubtree_includeSubtree (cls : CharClass) (entityPath : EntityPath) :
    (EntityPathRule.includingEntitySubtree cls entityPath).includeSubtree = true :=
  isSuffixOf_iff_suffix.mpr (suffix_append _ _)

/-- A line of a filter: the sign, a plus if there is none, and the rest. -/
def readRule (line : Text) : EntityPathRule × RuleEffect :=
  match line with
  | '+' :: pattern => (EntityPathRule.new pattern, .includes)
  | '-' :: pattern => (EntityPathRule.new pattern, .excludes)
  | _ => (EntityPathRule.new line, .includes)

def writtenRules (rules : List Text) : List (EntityPathRule × RuleEffect) :=
  ((rules.map trim).filter (· != [])).map readRule

structure EntityPathFilter where
  rules : OrdMap EntityPathRule RuleEffect

namespace EntityPathFilter

def fromQueryExpressions (rules : List Text) : EntityPathFilter := ⟨.ofList (writtenRules rules)⟩

def parseForgiving (rules : Text) : EntityPathFilter := fromQueryExpressions (splitWhitespaceSmart rules)

end EntityPathFilter

/-! ## Resolving -/

abbrev EntityPathSubs := List (Text × Text)

/-- `str::replace` of a pattern that is not empty, passing over what is left of a replaced occurrence. -/
def replaceFrom (pattern value : Text) : Nat → Text → Text
  | _, [] => []
  | skip + 1, _ :: t => replaceFrom pattern value skip t
  | 0, c :: t =>
    if pattern.isPrefixOf (c :: t) then value ++ replaceFrom pattern value (pattern.length - 1) t
    else c :: replaceFrom pattern value 0 t

def replace (t pattern value : Text) : Text := replaceFrom pattern value 0 t

def stripSuffix (t suffix : Text) : Option Text :=
  if suffix.isSuffixOf t then some (t.take (t.length - suffix.length)) else none

namespace ResolvedEntityPathRule

def substituteVariables (rule : EntityPathRule) (env : EntityPathSubs) : Text :=
  env.foldl (fun expression sub =>
    replace (replace expression ('$' :: sub.1) sub.2) ('$' :: '{' :: (sub.1 ++ ['}'])) sub.2) rule

def parseForgiving (parse : Text → EntityPath) (env : EntityPathSubs) (expression : Text) :
    ResolvedEntityPathRule :=
  let rule := EntityPathRule.new expression
  let expressionSub := substituteVariables rule env
  { includeSubtree := rule.includeSubtree
    resolvedPath :=
      if expressionSub = subtreeSuffix then ⟨[]⟩
      else
        match stripSuffix expressionSub subtreeSuffix with
        | some path => parse path
        | none => parse expressionSub }

def properties : ResolvedEntityPathRule := ⟨⟨["__properties"]⟩, true⟩

end ResolvedEntityPathRule

/-- `EntityPathFilter::resolve_forgiving`: the properties are left out unless there is a rule for them. -/
def EntityPathFilter.resolveForgiving [NaturalOrder] (f : EntityPathFilter) (parse : Text → EntityPath)
    (env : EntityPathSubs) : ResolvedEntityPathFilter :=
  let rules := OrdMap.ofList (f.rules.entries.map fun e =>
    (ResolvedEntityPathRule.parseForgiving parse env e.1, e.2))
  ⟨rules.orInsert ResolvedEntityPathRule.properties .excludes⟩

end Dalaran
