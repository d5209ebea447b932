import Dalaran.Selector.Parser

/-
  The grammar of selectors that the parser of `selector/parser.rs` reads.

  A production that it shares with the documented grammar (`Documented`) is one
  definition over `Navigation`. Expressions nest in `map` only, so a grammar is
  given by the depth of this nesting (`Within`), and derivable is derivable at
  some depth. `'.' FIELD` is the one token that the lexer makes of it, and `map`
  and `pack` are reserved words.

  What the parser reads as a term is either a chain of segments, which may have a
  `.` in front that adds nothing, or a `.`, a `map`, a `pack` or a function alone.
-/

namespace Dalaran.Selector

open List

open Collect (bind_eq_ok)
open Descent

abbrev Lang (α : Type) := Language TokenType α

/-! ## What the two grammars share -/

section Shared

variable {ε : Type}

inductive Postfixed (nav : Navigation ε) (item : Lang ε) : Lang ε
  | item {us : List TokenType} {e : ε} (h : item us e) : Postfixed nav item us e
  | tryOp {us : List TokenType} {e : ε} (h : Postfixed nav item us e) :
      Postfixed nav item (us ++ [.questionMark]) (nav.tryOp e)
  | nonNull {us : List TokenType} {e : ε} (h : Postfixed nav item us e) :
      Postfixed nav item (us ++ [.exclamationMark]) (nav.nonNull e)

/-- `Segment ( '?' | '!' )*  ( Segment ( '?' | '!' )* )*`, joined by implicit pipes. -/
abbrev Chain (nav : Navigation ε) (segment : Lang ε) : Lang ε :=
  Joined [] (Postfixed nav segment) (Postfixed nav segment) fun left right => nav.pipe left right true

abbrev Piped (nav : Navigation ε) (term : Lang ε) : Lang ε :=
  Joined [.pipe] term term fun left right => nav.pipe left right false

def Single (item : Lang ε) : Lang (List ε) := fun us items => ∃ a, item us a ∧ items = [a]

abbrev Separated (sep : TokenType) (item : Lang ε) : Lang (List ε) :=
  Joined [sep] (Single item) item fun items a => items ++ [a]

inductive LiteralForm : Lang Literal
  | string (value : Text) : LiteralForm [.stringLiteral value] (.string value)

/-- What may stand behind the name of a function. -/
inductive FunctionForm (name : Text) : Lang Expr
  | bare : FunctionForm name [] (.function name none)
  | empty : FunctionForm name [.lParen, .rParen] (.function name (some []))
  | call {us : List TokenType} {arguments : List Literal} (h : Separated .semicolon LiteralForm us arguments) :
      FunctionForm name (.lParen :: (us ++ [.rParen])) (.function name (some arguments))

end Shared

def Reserved (name : Text) : Prop := name = "map".toList ∨ name = "pack".toList

/-! ## The grammar that is read -/

section Read

variable {ε : Type}

inductive Segment (nav : Navigation ε) : Lang ε
  | field (name : Text) : Segment nav [.field name] (nav.field name)
  | index (n : UInt64) : Segment nav [.lBracket, .integer n, .rBracket] (nav.index n)
  | each {e : ε} (h : nav.each = .ok e) : Segment nav [.lBracket, .rBracket] e

/-- `ident` is what may stand behind a bare identifier. -/
inductive Term (nav : Navigation ε) (ident : Text → Lang ε) : Lang ε
  | identity : Term nav ident [.dot] nav.identity
  | segments {us : List TokenType} {e : ε} (h : Chain nav (Segment nav) us e) : Term nav ident us e
  | rooted {us : List TokenType} {e : ε} (h : Chain nav (Segment nav) us e) : Term nav ident (.dot :: us) e
  | ident {name : Text} {us : List TokenType} {e : ε} (h : ident name us e) : Term nav ident (.ident name :: us) e

end Read

def PathDerives : Lang PathExpr := Piped pathNavigation (Term pathNavigation fun _ _ _ => False)

inductive IdentForm (expr : Lang Expr) : Text → Lang Expr
  | map {us : List TokenType} {e : Expr} (h : expr us e) :
      IdentForm expr "map".toList (.lParen :: (us ++ [.rParen])) (.map e)
  | pack {us : List TokenType} {paths : List PathExpr} (h : Separated .comma PathDerives us paths) :
      IdentForm expr "pack".toList (.lParen :: (us ++ [.rParen])) (.pack paths)
  | function {name : Text} {us : List TokenType} {e : Expr} (hname : ¬Reserved name)
      (h : FunctionForm name us e) : IdentForm expr name us e

def Within : Nat → Lang Expr
  | 0 => fun _ _ => False
  | depth + 1 => Piped exprNavigation (Term exprNavigation (IdentForm (Within depth)))

def Derives (us : List TokenType) (e : Expr) : Prop := ∃ depth, Within depth us e

/-! ## What may come next -/

def isPostfix : List TokenType → Bool
  | .questionMark :: _ | .exclamationMark :: _ => true
  | _ => false

structure EndsTerm (rest : List TokenType) : Prop where
  segment : isSegmentStart rest = false
  postfixOps : isPostfix rest = false
  call : rest.head? ≠ some .lParen

/-- Nor one that an expression would have taken. -/
structure EndsExpr (rest : List TokenType) : Prop extends EndsTerm rest where
  piped : rest.head? ≠ some .pipe

theorem endsExpr_nil : EndsExpr [] := by
  constructor
  · constructor <;> simp [isSegmentStart, isPostfix]
  · simp

variable {rest : List TokenType}

theorem endsExpr_rParen : EndsExpr (.rParen :: rest) := by
  constructor
  · constructor <;> simp [isSegmentStart, isPostfix]
  · simp

theorem endsExpr_comma : EndsExpr (.comma :: rest) := by
  constructor
  · constructor <;> simp [isSegmentStart, isPostfix]
  · simp

theorem endsTerm_pipe : EndsTerm (.pipe :: rest) := by
  constructor <;> simp [isSegmentStart, isPostfix]

/-! ## Segments -/

section Segments

variable {ε : Type} {nav : Navigation ε}

theorem consume_eq_ok {expected : TokenType} {ts rest : List TokenType} :
    consume expected ts = .ok rest ↔ ts = expected :: rest := by
  cases ts with
  | nil => simp [consume]
  | cons token ts =>
    rw [consume]
    split
    · simp [*]
    · simp [*]

theorem map_eq_ok {δ α β : Type} {x : Except δ α} {f : α → β} {b : β} :
    x.map f = .ok b ↔ ∃ a, x = .ok a ∧ f a = b := by
  cases x <;> simp [Except.map]

theorem primary_sound : Sound nav.primary (Segment nav) := by
  intro ts e rest h
  unfold Navigation.primary at h
  split at h
  · next name ts =>
    cases h
    exact ⟨_, rfl, .field name⟩
  · cases h
  · next ts =>
    obtain ⟨each, heach, hpair⟩ := map_eq_ok.mp h
    cases hpair
    exact ⟨_, rfl, .each heach⟩
  · next n ts =>
    obtain ⟨left, hconsume, hpair⟩ := map_eq_ok.mp h
    cases hpair
    rw [consume_eq_ok.mp hconsume]
    exact ⟨_, rfl, .index n⟩
  · cases h
  · cases h
  · cases h

theorem primary_complete : Complete nav.primary (Segment nav) fun _ => True := by
  intro us e h rest _
  cases h with
  | field name => rfl
  | index n => rfl
  | each h =>
    change nav.each.map _ = _
    rw [h]
    rfl

variable {us : List TokenType}

theorem isSegmentStart_append (h : isSegmentStart us = true) (vs : List TokenType) :
    isSegmentStart (us ++ vs) = true := by
  cases us with
  | nil => cases h
  | cons u us => cases u <;> first | rfl | cases h

variable {e : ε}

theorem segment_start (h : Segment nav us e) : isSegmentStart us = true := by
  cases h <;> rfl

theorem postfixed_start (h : Postfixed nav (Segment nav) us e) : isSegmentStart us = true := by
  induction h with
  | item h => exact segment_start h
  | tryOp h ih => exact isSegmentStart_append ih _
  | nonNull h ih => exact isSegmentStart_append ih _

theorem chain_start (h : Chain nav (Segment nav) us e) : isSegmentStart us = true :=
  Joined.head (P := fun us => isSegmentStart us = true) (fun _ vs hus => isSegmentStart_append hus vs)
    (fun _ _ hus => postfixed_start hus) h

theorem applyPostfix_sound {item : Lang ε} (h : Postfixed nav item us e)
    (ts : List TokenType) :
    ∃ vs, ts = vs ++ (nav.applyPostfix e ts).2 ∧ Postfixed nav item (us ++ vs) (nav.applyPostfix e ts).1 := by
  fun_induction nav.applyPostfix e ts generalizing us with
  | case1 e ts ih =>
    obtain ⟨vs, hts, hpost⟩ := ih h.tryOp
    exact ⟨.questionMark :: vs, congrArg (_ :: ·) hts, by simpa using hpost⟩
  | case2 e ts ih =>
    obtain ⟨vs, hts, hpost⟩ := ih h.nonNull
    exact ⟨.exclamationMark :: vs, congrArg (_ :: ·) hts, by simpa using hpost⟩
  | case3 e ts => exact ⟨[], rfl, by simpa using h⟩

theorem applyPostfix_stops {rest : List TokenType} (h : isPostfix rest = false) :
    nav.applyPostfix e rest = (e, rest) := by
  fun_cases nav.applyPostfix e rest with
  | case1 rest => cases h
  | case2 rest => cases h
  | case3 => rfl

theorem segment_sound : Sound nav.segment (Postfixed nav (Segment nav)) := by
  intro ts e rest h
  obtain ⟨⟨first, between⟩, hfirst, hpost⟩ := bind_eq_ok.mp h
  obtain ⟨us, rfl, hus⟩ := primary_sound hfirst
  obtain ⟨vs, hbetween, hvs⟩ := applyPostfix_sound (.item hus) between
  rw [Except.ok.inj hpost] at hbetween hvs
  exact ⟨us ++ vs, by rw [append_assoc, ← hbetween], hvs⟩

theorem segment_append (h : Postfixed nav (Segment nav) us e)
    (rest : List TokenType) : nav.segment (us ++ rest) = .ok (nav.applyPostfix e rest) := by
  induction h generalizing rest with
  | item h =>
    rw [Navigation.segment, primary_complete h trivial]
    rfl
  | tryOp h ih =>
    rw [append_assoc, ih]
    rfl
  | nonNull h ih =>
    rw [append_assoc, ih]
    rfl

theorem segment_complete : Complete nav.segment (Postfixed nav (Segment nav)) fun rest => isPostfix rest = false := by
  intro us e h rest hrest
  rw [segment_append h, applyPostfix_stops hrest]

theorem separates_segment :
    Separates Navigation.nextSegment [] (Postfixed nav (Segment nav)) fun rest => isSegmentStart rest = false ∧
      isPostfix rest = false where
  strips {ts rest} h := by
    rw [Navigation.nextSegment] at h
    split at h
    · exact Option.some.inj h
    · cases h
  finds rest h := if_pos (isSegmentStart_append (postfixed_start h) rest)
  stops h := if_neg (by simp [h.1])
  takes h := by
    rintro rfl
    cases postfixed_start h

theorem segments_sound : Sound nav.segments (Chain nav (Segment nav)) :=
  joined_sound separates_segment segment_sound segment_sound

theorem isPostfix_of_isSegmentStart {ts : List TokenType} (h : isSegmentStart ts = true) :
    isPostfix ts = false := by
  cases ts with
  | nil => rfl
  | cons t ts => cases t <;> first | rfl | cases h

theorem segments_complete : Complete nav.segments (Chain nav (Segment nav)) EndsTerm := by
  have hinner : ∀ us e rest, Postfixed nav (Segment nav) us e → isPostfix rest = false →
      isPostfix ([] ++ us ++ rest) = false := by
    intro us e rest h _
    exact isPostfix_of_isSegmentStart (isSegmentStart_append (postfixed_start h) rest)
  have hcomplete : Complete nav.segments (Chain nav (Segment nav)) fun rest =>
      isSegmentStart rest = false ∧ isPostfix rest = false :=
    joined_complete separates_segment segment_complete segment_complete hinner fun _ h => h.2
  exact hcomplete.mono fun rest h => ⟨h.segment, h.postfixOps⟩

end Segments

/-! ## Terms -/

section Terms

variable {ε : Type} {nav : Navigation ε} {readIdent : Text → Production ε} {ident : Text → Lang ε}

theorem term_sound (hident : ∀ name, Sound (readIdent name) (ident name)) :
    Sound (nav.term readIdent) (Term nav ident) := by
  intro ts e rest h
  unfold Navigation.term at h
  split at h
  · next name ts =>
    obtain ⟨us, rfl, hus⟩ := hident name h
    exact ⟨.ident name :: us, rfl, .ident hus⟩
  · split at h
    · obtain ⟨us, rfl, hus⟩ := segments_sound h
      exact ⟨.dot :: us, rfl, .rooted hus⟩
    · cases h
      exact ⟨[.dot], rfl, .identity⟩
  · cases h
  · obtain ⟨us, rfl, hus⟩ := segments_sound h
    exact ⟨us, rfl, .segments hus⟩

theorem term_of_segmentStart {ts : List TokenType} (h : isSegmentStart ts = true) :
    nav.term readIdent ts = nav.segments ts := by
  cases ts with
  | nil => cases h
  | cons t ts => cases t <;> first | rfl | cases h

theorem term_complete (hident : ∀ name, Complete (readIdent name) (ident name) EndsTerm) :
    Complete (nav.term readIdent) (Term nav ident) EndsTerm := by
  intro us e h rest hrest
  cases h with
  | identity =>
    change (if isSegmentStart rest = true then _ else _) = _
    rw [if_neg (by simp [hrest.segment])]
    rfl
  | segments h =>
    rw [term_of_segmentStart (isSegmentStart_append (chain_start h) rest)]
    exact segments_complete h hrest
  | @rooted us _ h =>
    change (if isSegmentStart (us ++ rest) = true then _ else _) = _
    rw [if_pos (isSegmentStart_append (chain_start h) rest)]
    exact segments_complete h hrest
  | ident h => exact hident _ h hrest

theorem nextTerm_eq_some (ts rest : List TokenType) : Navigation.nextTerm ts = some rest ↔ ts = .pipe :: rest := by
  unfold Navigation.nextTerm
  split <;> simp_all

theorem separates_term : Separates Navigation.nextTerm [.pipe] (Term nav ident) EndsExpr :=
  (separates_token nextTerm_eq_some _).mono fun _ h => h.piped

theorem piped_sound (hident : ∀ name, Sound (readIdent name) (ident name)) :
    Sound (nav.expr readIdent) (Piped nav (Term nav ident)) :=
  joined_sound separates_term (term_sound hident) (term_sound hident)

theorem piped_complete (hident : ∀ name, Complete (readIdent name) (ident name) EndsTerm) :
    Complete (nav.expr readIdent) (Piped nav (Term nav ident)) EndsExpr :=
  joined_complete separates_term (term_complete hident) (term_complete hident)
    (fun _ _ _ _ _ => endsTerm_pipe) fun _ h => h.toEndsTerm

theorem term_head {us : List TokenType} {e : ε} (h : Term nav ident us e) : ∃ t ts, us = t :: ts ∧ t ≠ .rParen := by
  have hstart : ∀ {us : List TokenType}, isSegmentStart us = true → ∃ t ts, us = t :: ts ∧ t ≠ .rParen := by
    intro us h
    cases us with
    | nil => cases h
    | cons t ts =>
      refine ⟨t, ts, rfl, ?_⟩
      rintro rfl
      cases h
  cases h with
  | identity => exact ⟨_, _, rfl, by simp⟩
  | segments h => exact hstart (chain_start h)
  | rooted h => exact ⟨_, _, rfl, by simp⟩
  | ident h => exact ⟨_, _, rfl, by simp⟩

end Terms

/-! ## Identifiers -/

section Lists

variable {α : Type} {read : Production α} {item : Lang α} {sep : TokenType}
  {next : List TokenType → Option (List TokenType)}

theorem single_sound (h : Sound read item) : Sound (single read) (Single item) := by
  intro ts items rest hok
  obtain ⟨⟨a, between⟩, ha, hpair⟩ := bind_eq_ok.mp hok
  obtain ⟨us, rfl, hus⟩ := h ha
  cases hpair
  exact ⟨us, rfl, a, hus, rfl⟩

theorem single_complete {follow : List TokenType → Prop} (h : Complete read item follow) :
    Complete (single read) (Single item) follow := by
  rintro us items ⟨a, ha, rfl⟩ rest hrest
  rw [single, h ha hrest]
  rfl

theorem separated_head (hitem : ∀ us a, item us a → ∃ t ts, us = t :: ts ∧ t ≠ .rParen)
    {us : List TokenType} {items : List α} (h : Separated sep item us items) :
    ∃ t ts, us = t :: ts ∧ t ≠ .rParen := by
  refine Joined.head (P := fun us => ∃ t ts, us = t :: ts ∧ t ≠ .rParen) ?_ ?_ h
  · rintro _ vs ⟨t, ts, rfl, ht⟩
    exact ⟨t, ts ++ vs, rfl, ht⟩
  · rintro us items ⟨a, ha, rfl⟩
    exact hitem us a ha

theorem separated_sound (hnext : ∀ ts rest, next ts = some rest ↔ ts = sep :: rest)
    (h : Sound read item) :
    Sound (joined (single read) next read fun items a => items ++ [a]) (Separated sep item) :=
  joined_sound (separates_token hnext item) (single_sound h) h

theorem separated_complete (hnext : ∀ ts rest, next ts = some rest ↔ ts = sep :: rest)
    {follow : List TokenType → Prop} (h : Complete read item follow) (hsep : ∀ rest, follow (sep :: rest))
    (hclose : ∀ rest, follow (.rParen :: rest)) (hne : sep ≠ .rParen) {us : List TokenType} {items : List α}
    (hitems : Separated sep item us items) (rest : List TokenType) :
    joined (single read) next read (fun items a => items ++ [a]) (us ++ .rParen :: rest) =
      .ok (items, .rParen :: rest) := by
  have hstops : Separates next [sep] item fun rest => ∃ tail, rest = .rParen :: tail :=
    (separates_token hnext item).mono fun rest hrest => by
      obtain ⟨tail, rfl⟩ := hrest
      simpa using hne.symm
  refine joined_complete hstops (single_complete h) h (fun _ _ _ _ _ => hsep _) ?_ hitems ⟨rest, rfl⟩
  rintro _ ⟨tail, rfl⟩
  exact hclose tail

end Lists

theorem nextArgument_eq_some (ts rest : List TokenType) : nextArgument ts = some rest ↔ ts = .semicolon :: rest := by
  unfold nextArgument
  split <;> simp_all

theorem nextPath_eq_some (ts rest : List TokenType) : nextPath ts = some rest ↔ ts = .comma :: rest := by
  unfold nextPath
  split <;> simp_all

theorem literal_sound : Sound literal LiteralForm := by
  intro ts a rest h
  unfold literal at h
  split at h
  · next value ts =>
    cases h
    exact ⟨[.stringLiteral value], rfl, .string value⟩
  · cases h
  · cases h

theorem literal_complete : Complete literal LiteralForm fun _ => True := by
  intro us a h rest _
  cases h
  rfl

variable {us : List TokenType}

theorem literal_head {a : Literal} (h : LiteralForm us a) : ∃ t ts, us = t :: ts ∧ t ≠ .rParen := by
  cases h
  exact ⟨_, _, rfl, by simp⟩

theorem notScalar_sound (name : Text) : Sound (notScalar name) fun _ _ => False := by
  intro ts e rest h
  cases h

theorem pathExpr_sound : Sound pathExpr PathDerives := piped_sound notScalar_sound

theorem pathExpr_complete : Complete pathExpr PathDerives EndsExpr := by
  apply piped_complete
  intro name us e h
  exact h.elim

theorem piped_head {ε : Type} {nav : Navigation ε} {ident : Text → Lang ε} {e : ε}
    (h : Piped nav (Term nav ident) us e) : ∃ t ts, us = t :: ts ∧ t ≠ .rParen := by
  refine Joined.head (P := fun us => ∃ t ts, us = t :: ts ∧ t ≠ .rParen) ?_ (fun _ _ => term_head) h
  rintro _ vs ⟨t, ts, rfl, ht⟩
  exact ⟨t, ts ++ vs, rfl, ht⟩

theorem functionArgs_sound (name : Text) : Sound (functionArgs name) (FunctionForm name) := by
  intro ts e rest h
  unfold functionArgs at h
  split at h
  · cases h
    exact ⟨[.lParen, .rParen], rfl, .empty⟩
  · obtain ⟨⟨arguments, between⟩, hlist, hclose⟩ := bind_eq_ok.mp h
    obtain ⟨left, hconsume, hpair⟩ := map_eq_ok.mp hclose
    obtain ⟨us, rfl, hus⟩ := separated_sound nextArgument_eq_some literal_sound hlist
    cases hpair
    rw [consume_eq_ok.mp hconsume]
    exact ⟨.lParen :: (us ++ [.rParen]), by simp, .call hus⟩
  · cases h
    exact ⟨[], rfl, .bare⟩

theorem functionArgs_complete (name : Text) : Complete (functionArgs name) (FunctionForm name) EndsTerm := by
  intro us e h rest hrest
  cases h with
  | bare =>
    unfold functionArgs
    split
    · next hopen => exact absurd (congrArg List.head? hopen) hrest.call
    · next hopen => exact absurd (congrArg List.head? hopen) hrest.call
    · rfl
  | empty => rfl
  | @call us arguments h =>
    obtain ⟨t, ts, rfl, ht⟩ := separated_head (fun _ _ => literal_head) h
    have hread := separated_complete nextArgument_eq_some literal_complete (fun _ => trivial)
      (fun _ => trivial) (by simp) h rest
    rw [cons_append, append_assoc]
    unfold functionArgs
    split
    · next hempty => exact absurd (cons.inj (cons.inj hempty).2).1 ht
    · next hopen =>
      rw [← (cons.inj hopen).2]
      simp only [singleton_append, hread]
      rfl
    · next hopen => exact absurd rfl (hopen _)

variable {lang : Lang Expr}

theorem mapExpr_sound {expr : Production Expr} (h : Sound expr lang) :
    Sound (mapExpr expr) (IdentForm lang "map".toList) := by
  intro ts e rest hok
  obtain ⟨inner, hopen, hbody⟩ := bind_eq_ok.mp hok
  obtain ⟨⟨body, between⟩, hexpr, hclose⟩ := bind_eq_ok.mp hbody
  obtain ⟨left, hconsume, hpair⟩ := bind_eq_ok.mp hclose
  obtain ⟨us, rfl, hus⟩ := h hexpr
  cases hpair
  rw [consume_eq_ok.mp hopen, consume_eq_ok.mp hconsume]
  exact ⟨.lParen :: (us ++ [.rParen]), by simp, .map hus⟩

variable {e : Expr}

theorem mapExpr_complete {expr : Production Expr} (h : Complete expr lang EndsExpr)
    (hus : lang us e) (rest : List TokenType) :
    mapExpr expr (.lParen :: (us ++ [.rParen]) ++ rest) = .ok (.map e, rest) := by
  have hread : expr (us ++ .rParen :: rest) = .ok (e, .rParen :: rest) := h hus endsExpr_rParen
  rw [mapExpr, cons_append, append_assoc, consume_eq_ok.mpr rfl]
  simp only [singleton_append, bind, Except.bind, hread]
  rfl

theorem packExpr_sound : Sound packExpr (IdentForm lang "pack".toList) := by
  intro ts e rest hok
  obtain ⟨inner, hopen, hbody⟩ := bind_eq_ok.mp hok
  split at hbody
  · cases hbody
  · obtain ⟨⟨paths, between⟩, hlist, hclose⟩ := bind_eq_ok.mp hbody
    obtain ⟨left, hconsume, hpair⟩ := bind_eq_ok.mp hclose
    obtain ⟨us, rfl, hus⟩ := separated_sound nextPath_eq_some pathExpr_sound hlist
    cases hpair
    rw [consume_eq_ok.mp hopen, consume_eq_ok.mp hconsume]
    exact ⟨.lParen :: (us ++ [.rParen]), by simp, .pack hus⟩

theorem packExpr_complete {paths : List PathExpr}
    (h : Separated .comma PathDerives us paths) (rest : List TokenType) :
    packExpr (.lParen :: (us ++ [.rParen]) ++ rest) = .ok (.pack paths, rest) := by
  obtain ⟨t, ts, rfl, ht⟩ := separated_head (fun _ _ => piped_head) h
  have hread := separated_complete nextPath_eq_some pathExpr_complete (fun _ => endsExpr_comma)
    (fun _ => endsExpr_rParen) (by simp) h rest
  have hhead : (t :: ts ++ .rParen :: rest).head? ≠ some .rParen := by simpa using ht
  rw [packExpr, cons_append, append_assoc, consume_eq_ok.mpr rfl]
  simp only [singleton_append, bind, Except.bind, if_neg hhead, hread]
  rfl

theorem identExpr_sound {expr : Production Expr} (h : Sound expr lang) (name : Text) :
    Sound (identExpr expr name) (IdentForm lang name) := by
  rw [identExpr]
  split
  · next hname =>
    rw [hname]
    exact mapExpr_sound h
  · next hmap =>
    split
    · next hname =>
      rw [hname]
      exact packExpr_sound
    · next hpack =>
      intro ts e rest hok
      obtain ⟨us, rfl, hus⟩ := functionArgs_sound name hok
      exact ⟨us, rfl, .function (fun hreserved => hreserved.elim hmap hpack) hus⟩

theorem identExpr_complete {expr : Production Expr} (h : Complete expr lang EndsExpr)
    (name : Text) : Complete (identExpr expr name) (IdentForm lang name) EndsTerm := by
  intro us e hform rest hrest
  cases hform with
  | map hus => exact mapExpr_complete h hus rest
  | pack hus => exact packExpr_complete hus rest
  | function hname hus =>
    rw [identExpr, if_neg fun hmap => hname (.inl hmap), if_neg fun hpack => hname (.inr hpack)]
    exact functionArgs_complete name hus hrest

/-! ## Expressions -/

theorem expr_sound (fuel : Nat) : Sound (expr fuel) (Within fuel) := by
  induction fuel with
  | zero =>
    intro ts e rest h
    cases h
  | succ fuel ih => exact piped_sound (identExpr_sound ih)

theorem expr_complete (fuel : Nat) : Complete (expr fuel) (Within fuel) EndsExpr := by
  induction fuel with
  | zero =>
    intro us e h
    exact h.elim
  | succ fuel ih => exact piped_complete (identExpr_complete ih)

theorem within_head {depth : Nat} (h : Within depth us e) : ∃ t ts, us = t :: ts ∧ t ≠ .rParen := by
  cases depth with
  | zero => exact h.elim
  | succ depth => exact piped_head h

/-- Each level of `map` is a token, so what is derivable is derivable within its length. -/
theorem within_length {depth k : Nat} (h : Within depth us e)
    (hlength : us.length ≤ k) : Within k us e := by
  induction depth generalizing us e k with
  | zero => exact h.elim
  | succ depth ih =>
    obtain ⟨t, ts, rfl, _⟩ := within_head h
    obtain ⟨k, rfl⟩ : ∃ m, k = m + 1 := ⟨k - 1, by rw [length_cons] at hlength; omega⟩
    have hterm : ∀ us e, us.length ≤ k + 1 → Term exprNavigation (IdentForm (Within depth)) us e →
        Term exprNavigation (IdentForm (Within k)) us e := by
      intro us e hus hterm
      cases hterm with
      | identity => exact .identity
      | segments h => exact .segments h
      | rooted h => exact .rooted h
      | ident h =>
        refine .ident ?_
        cases h with
        | map h =>
          refine .map (ih h ?_)
          simp only [length_cons, length_append] at hus
          omega
        | pack h => exact .pack h
        | function hname h => exact .function hname h
    exact h.mono_of_length hterm hterm hlength

theorem parse_sound {tokens : List Token} (h : parse tokens = .ok e) : Derives (tokens.map Token.typ) e := by
  obtain ⟨⟨first, rest⟩, hexpr, hend⟩ := bind_eq_ok.mp h
  obtain ⟨us, hus, hderives⟩ := expr_sound _ hexpr
  cases rest with
  | nil =>
    cases hend
    rw [hus, append_nil]
    exact ⟨_, hderives⟩
  | cons symbol rest => cases hend

theorem parse_complete {tokens : List Token} (h : Derives (tokens.map Token.typ) e) : parse tokens = .ok e := by
  obtain ⟨depth, h⟩ := h
  have hlength : (tokens.map Token.typ).length ≤ tokens.length + 1 := by simp
  have hread := expr_complete _ (within_length h hlength) endsExpr_nil
  rw [append_nil] at hread
  rw [parse, hread]
  rfl

theorem parse_eq_ok_iff_derives (tokens : List Token) (e : Expr) :
    parse tokens = .ok e ↔ Derives (tokens.map Token.typ) e := ⟨parse_sound, parse_complete⟩

end Dalaran.Selector
