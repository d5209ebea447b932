import Dalaran.Selector.Grammar
import Dalaran.Selector.Printing

/-
  Writing a selector that was read, and reading it again.

  An expression is written as tokens that derive it again: the ones it was read
  from, without the dots in front of an index. The lexer reads these tokens from the
  text exactly when every character that stands in a string literal of the query
  survives the escapes of `Debug` (`fromStr_display_iff`).
-/

namespace Dalaran.Selector

open Descent List

variable {tables : UnicodeTables}

def AllSpelled (tables : UnicodeTables) (us : List TokenType) : Prop := ∀ u ∈ us, Spelled tables u

variable {us vs : List TokenType}

theorem AllSpelled.left (h : AllSpelled tables (us ++ vs)) : AllSpelled tables us :=
  fun u hu => h u (mem_append_left vs hu)

theorem AllSpelled.right (h : AllSpelled tables (us ++ vs)) : AllSpelled tables vs :=
  fun u hu => h u (mem_append_right us hu)

/-- The text is scanned as tokens of the same meaning, with the literals of the tokens `us`. -/
def Prints {α : Type} (tables : UnicodeTables) (lang : Lang α) (us : List TokenType) (a : α) (t : Text) : Prop :=
  ∃ vs, lang vs a ∧ Scans tables (Breaks tables) t vs ∧ vs.all (readsBack tables) = us.all (readsBack tables)

theorem Prints.mono {α : Type} {lang lang' : Lang α} {a : α} {t : Text} (h : Prints tables lang us a t)
    (hlang : ∀ vs, lang vs a → lang' vs a) : Prints tables lang' us a t := by
  obtain ⟨vs, hvs, hscans, hall⟩ := h
  exact ⟨vs, hlang vs hvs, hscans, hall⟩

section Joined

variable {α β : Type} {first : Lang α} {item : Lang β} {join : α → β → α} {sep : List TokenType} {sepText : Text}

theorem joined_prints (display : α → Text) (displayItem : β → Text)
    (hdisplay : ∀ us a b, Joined sep first item join us a → display (join a b) = display a ++ sepText ++ displayItem b)
    (hsep : Scans tables Anything sepText sep)
    (hfirst : ∀ us a, first us a → AllSpelled tables us → Prints tables first us a (display a))
    (hitem : ∀ us b, item us b → AllSpelled tables us → Prints tables item us b (displayItem b))
    (hbreaks : ∀ us b, item us b → ∀ rest, Breaks tables (sepText ++ displayItem b ++ rest)) {a : α}
    (h : Joined sep first item join us a) (hspelled : AllSpelled tables us) :
    Prints tables (Joined sep first item join) us a (display a) := by
  induction h with
  | one h => exact (hfirst _ _ h hspelled).mono fun _ hvs => .one hvs
  | @more us vs a b hleft hright ih =>
    obtain ⟨us', hus', hscans, hall⟩ := ih hspelled.left.left
    obtain ⟨vs', hvs', hscans', hall'⟩ := hitem vs b hright hspelled.right
    refine ⟨us' ++ sep ++ vs', hus'.more hvs', ?_, ?_⟩
    · rw [hdisplay us a b hleft, append_assoc, append_assoc]
      refine hscans.append (hsep.append hscans' fun _ _ => trivial) ?_
      intro rest _
      exact hbreaks vs b hright rest
    · simp [hall, hall']

end Joined

/-! ## Navigation -/

section Navigation

variable {ε : Type} {nav : Navigation ε} {display : ε → Text}

/-- How what is built of navigation is written. -/
structure Displays (nav : Navigation ε) (display : ε → Text) : Prop where
  identity : display nav.identity = ['.']
  field : ∀ name, display (nav.field name) = '.' :: name
  index : ∀ n, display (nav.index n) = '[' :: (decimal n.toNat ++ [']'])
  each : ∀ e, nav.each = .ok e → display e = ['[', ']']
  implicit : ∀ left right, display (nav.pipe left right true) = display left ++ display right
  explicit : ∀ left right, display (nav.pipe left right false) = display left ++ [' ', '|', ' '] ++ display right
  tryOp : ∀ e, display (nav.tryOp e) = display e ++ ['?']
  nonNull : ∀ e, display (nav.nonNull e) = display e ++ ['!']

theorem exprNavigation_displays : Displays exprNavigation (Expr.display tables) where
  identity := rfl
  field _ := rfl
  index _ := rfl
  each e h := by
    cases h
    rfl
  implicit _ _ := rfl
  explicit _ _ := rfl
  tryOp _ := rfl
  nonNull _ := rfl

theorem pathNavigation_displays : Displays pathNavigation PathExpr.display where
  identity := rfl
  field _ := rfl
  index _ := rfl
  each e h := by cases h
  implicit _ _ := rfl
  explicit _ _ := rfl
  tryOp _ := rfl
  nonNull _ := rfl

theorem breaks_dot (t : Text) : Breaks tables ('.' :: t) :=
  breaks_cons (not_continuesName (by decide) (by decide)) t

theorem breaks_bracket (t : Text) : Breaks tables ('[' :: t) :=
  breaks_cons (not_continuesName (by decide) (by decide)) t

variable {e : ε}

theorem segment_breaks (h : Displays nav display) (hsegment : Segment nav us e)
    (rest : Text) : Breaks tables (display e ++ rest) := by
  cases hsegment with
  | field name =>
    rw [h.field]
    exact breaks_dot _
  | index n =>
    rw [h.index]
    exact breaks_bracket _
  | each heach =>
    rw [h.each _ heach]
    exact breaks_bracket _

theorem postfixed_breaks (h : Displays nav display) (hsegment : Postfixed nav (Segment nav) us e)
    (rest : Text) : Breaks tables (display e ++ rest) := by
  induction hsegment generalizing rest with
  | item hsegment => exact segment_breaks h hsegment rest
  | tryOp _ ih =>
    rw [h.tryOp, append_assoc]
    exact ih _
  | nonNull _ ih =>
    rw [h.nonNull, append_assoc]
    exact ih _


theorem segment_prints (h : Displays nav display) (hsegment : Segment nav us e)
    (hspelled : AllSpelled tables us) : Prints tables (Segment nav) us e (display e) := by
  refine ⟨us, hsegment, ?_, rfl⟩
  cases hsegment with
  | field name =>
    rw [h.field]
    exact scans_field (hspelled _ (by simp))
  | index n =>
    rw [h.index]
    have hopen : Scans tables Anything ['['] [.lBracket] := scans_symbol (by simp [symbols])
    exact (hopen.append (scans_close (by simp [symbols]) (scans_decimal n)) fun _ _ => trivial).of_anything
  | each heach =>
    rw [h.each _ heach]
    have hopen : Scans tables Anything ['['] [.lBracket] := scans_symbol (by simp [symbols])
    exact (hopen.append (scans_symbol (by simp [symbols])) fun _ _ => trivial).of_anything

theorem postfixed_prints (h : Displays nav display) (hsegment : Postfixed nav (Segment nav) us e)
    (hspelled : AllSpelled tables us) :
    Prints tables (Postfixed nav (Segment nav)) us e (display e) := by
  induction hsegment with
  | item hsegment => exact (segment_prints h hsegment hspelled).mono fun _ hvs => .item hvs
  | tryOp _ ih =>
    obtain ⟨vs, hvs, hscans, hall⟩ := ih hspelled.left
    rw [h.tryOp]
    refine ⟨_, hvs.tryOp, (scans_close (by simp [symbols]) hscans).of_anything, ?_⟩
    rw [all_append, all_append, hall]
  | nonNull _ ih =>
    obtain ⟨vs, hvs, hscans, hall⟩ := ih hspelled.left
    rw [h.nonNull]
    refine ⟨_, hvs.nonNull, (scans_close (by simp [symbols]) hscans).of_anything, ?_⟩
    rw [all_append, all_append, hall]

theorem chain_prints (h : Displays nav display) (hchain : Chain nav (Segment nav) us e)
    (hspelled : AllSpelled tables us) :
    Prints tables (Chain nav (Segment nav)) us e (display e) := by
  refine joined_prints display display ?_ (Scans.nil tables) ?_ ?_ ?_ hchain hspelled
  · intro us left right _
    rw [append_nil]
    exact h.implicit left right
  · exact fun us e => postfixed_prints h
  · exact fun us e => postfixed_prints h
  · exact fun us e hsegment rest => postfixed_breaks h hsegment rest

def IdentPrints (tables : UnicodeTables) (ident : Text → Lang ε) (display : ε → Text) : Prop :=
  ∀ name us e, ident name us e → AllSpelled tables (.ident name :: us) → ∃ vs, ident name vs e ∧
    Scans tables (Breaks tables) (display e) (.ident name :: vs) ∧
    vs.all (readsBack tables) = us.all (readsBack tables)

theorem term_prints (h : Displays nav display) {ident : Text → Lang ε} (hident : IdentPrints tables ident display)
    (hterm : Term nav ident us e) (hspelled : AllSpelled tables us) :
    Prints tables (Term nav ident) us e (display e) := by
  cases hterm with
  | identity =>
    rw [h.identity]
    exact ⟨[.dot], .identity, scans_dot, rfl⟩
  | segments hchain => exact (chain_prints h hchain hspelled).mono fun _ hvs => .segments hvs
  | @rooted us _ hchain =>
    -- the dot is dropped
    have hbehind : AllSpelled tables us := fun u hu => hspelled u (mem_cons_of_mem _ hu)
    obtain ⟨vs, hvs, hscans, hall⟩ := chain_prints h hchain hbehind
    exact ⟨vs, .segments hvs, hscans, hall⟩
  | ident hform =>
    obtain ⟨vs, hvs, hscans, hall⟩ := hident _ _ _ hform hspelled
    exact ⟨_, .ident hvs, hscans, hall⟩

theorem scans_spaced {c : Char} {u : TokenType} (h : (c, u) ∈ symbols) : Scans tables Anything [c, ' '] [u] :=
  (scans_symbol h).append scans_space fun _ _ => trivial

theorem piped_prints (h : Displays nav display) {ident : Text → Lang ε} (hident : IdentPrints tables ident display)
    (hpiped : Piped nav (Term nav ident) us e) (hspelled : AllSpelled tables us) :
    Prints tables (Piped nav (Term nav ident)) us e (display e) := by
  have hsep : Scans tables Anything [' ', '|', ' '] [.pipe] :=
    scans_space.append (scans_spaced (by simp [symbols])) fun _ _ => trivial
  refine joined_prints display display ?_ hsep ?_ ?_ ?_ hpiped hspelled
  · intro us left right _
    exact h.explicit left right
  · exact fun us e => term_prints h hident
  · exact fun us e => term_prints h hident
  · exact fun _ _ _ rest => breaks_cons (not_continuesName (by decide) (by decide)) _

end Navigation

/-! ## Lists -/

section Lists

variable {α : Type} {item : Lang α} {sep : TokenType} {display : α → Text}

theorem intercalate_concat (sepText : Text) {texts : List Text} (h : texts ≠ []) (t : Text) :
    sepText.intercalate (texts ++ [t]) = sepText.intercalate texts ++ sepText ++ t := by
  induction texts with
  | nil => exact absurd rfl h
  | cons s texts ih =>
    cases texts with
    | nil => simp [intercalate_cons_cons]
    | cons s' texts =>
      rw [cons_append, cons_append, intercalate_cons_cons, ← cons_append, ih (by simp), intercalate_cons_cons]
      simp

theorem separated_ne_nil {items : List α} (h : Separated sep item us items) : items ≠ [] := by
  cases h with
  | one h =>
    obtain ⟨a, _, rfl⟩ := h
    simp
  | more => simp

theorem separated_prints {c : Char} (hsep : (c, sep) ∈ symbols)
    (hitem : ∀ us a, item us a → AllSpelled tables us → Prints tables item us a (display a)) {items : List α}
    (h : Separated sep item us items) (hspelled : AllSpelled tables us) :
    Prints tables (Separated sep item) us items ([c, ' '].intercalate (items.map display)) := by
  refine joined_prints (fun items => [c, ' '].intercalate (items.map display)) display ?_ (scans_spaced hsep)
    ?_ hitem ?_ h hspelled
  · intro us items a hitems
    rw [map_append]
    exact intercalate_concat _ (by simpa using separated_ne_nil hitems) _
  · rintro us _ ⟨a, ha, rfl⟩ hus
    obtain ⟨vs, hvs, hscans, hall⟩ := hitem us a ha hus
    rw [map_singleton, intercalate_singleton]
    exact ⟨vs, ⟨a, hvs, rfl⟩, hscans, hall⟩
  · exact fun _ _ _ rest => symbol_breaks hsep _

end Lists

/-! ## Expressions -/

theorem literal_prints {a : Literal} (h : LiteralForm us a) (_ : AllSpelled tables us) :
    Prints tables LiteralForm us a (a.display tables) := by
  cases h with
  | string value => exact ⟨_, .string value, (scans_literal value).of_anything, rfl⟩

theorem pathDerives_prints {path : PathExpr} (h : PathDerives us path)
    (hspelled : AllSpelled tables us) : Prints tables PathDerives us path path.display := by
  refine piped_prints pathNavigation_displays ?_ h hspelled
  intro name us e hfalse
  exact hfalse.elim

theorem scans_call {name t : Text} (hname : Spelled tables (.ident name)) (h : Scans tables (Breaks tables) t us) :
    Scans tables Anything (name ++ '(' :: (t ++ [')'])) (.ident name :: .lParen :: (us ++ [.rParen])) := by
  have hopen : Scans tables Anything (name ++ ['(']) [.ident name, .lParen] :=
    scans_close (by simp [symbols]) (scans_ident hname)
  have hclose : Scans tables Anything (t ++ [')']) (us ++ [.rParen]) := scans_close (by simp [symbols]) h
  have hall := hopen.append hclose fun _ _ => trivial
  rwa [append_assoc] at hall

theorem AllSpelled.inside {u : TokenType}
    (h : AllSpelled tables (u :: .lParen :: (us ++ [.rParen]))) : AllSpelled tables us :=
  fun v hv => h v (by simp [hv])

theorem all_inside (h : vs.all (readsBack tables) = us.all (readsBack tables)) :
    (TokenType.lParen :: (vs ++ [.rParen])).all (readsBack tables) =
      (TokenType.lParen :: (us ++ [.rParen])).all (readsBack tables) := by
  rw [all_cons, all_cons, all_append, all_append, h]

theorem functionForm_prints {name : Text} {e : Expr} (h : FunctionForm name us e)
    (hspelled : AllSpelled tables (.ident name :: us)) : ∃ vs, FunctionForm name vs e ∧
      Scans tables (Breaks tables) (e.display tables) (.ident name :: vs) ∧
      vs.all (readsBack tables) = us.all (readsBack tables) := by
  have hname : Spelled tables (.ident name) := hspelled _ (by simp)
  cases h with
  | bare => exact ⟨[], .bare, scans_ident hname, rfl⟩
  | empty =>
    have hcall := scans_call hname (Scans.nil tables).of_anything
    exact ⟨[.lParen, .rParen], .empty, hcall.of_anything, rfl⟩
  | call hlist =>
    obtain ⟨vs, hvs, hscans, hall⟩ :=
      separated_prints (c := ';') (by simp [symbols]) (fun _ _ => literal_prints) hlist hspelled.inside
    exact ⟨_, .call hvs, (scans_call hname hscans).of_anything, all_inside hall⟩

theorem identForm_prints {expr : Lang Expr}
    (hexpr : ∀ us e, expr us e → AllSpelled tables us → Prints tables expr us e (e.display tables)) :
    IdentPrints tables (IdentForm expr) (Expr.display tables) := by
  intro name us e h hspelled
  have hname : Spelled tables (.ident name) := hspelled _ (by simp)
  cases h with
  | map hbody =>
    obtain ⟨vs, hvs, hscans, hall⟩ := hexpr _ _ hbody hspelled.inside
    exact ⟨_, .map hvs, (scans_call hname hscans).of_anything, all_inside hall⟩
  | pack hlist =>
    obtain ⟨vs, hvs, hscans, hall⟩ :=
      separated_prints (c := ',') (by simp [symbols]) (fun _ _ => pathDerives_prints) hlist hspelled.inside
    exact ⟨_, .pack hvs, (scans_call hname hscans).of_anything, all_inside hall⟩
  | function hfree hform =>
    obtain ⟨vs, hvs, hscans, hall⟩ := functionForm_prints hform hspelled
    exact ⟨vs, .function hfree hvs, hscans, hall⟩

theorem within_prints (depth : Nat) {e : Expr} (h : Within depth us e)
    (hspelled : AllSpelled tables us) : Prints tables (Within depth) us e (e.display tables) := by
  induction depth generalizing us e with
  | zero => exact h.elim
  | succ depth ih =>
    exact piped_prints exprNavigation_displays (identForm_prints fun _ _ => ih) h hspelled

/-! ## The round trip -/

theorem fromStr_eq_ok_iff {query : Text} {e : Expr} :
    fromStr tables query = .ok e ↔ ∃ us, kinds tables query = some us ∧ Derives us e := by
  rw [fromStr, kinds]
  cases scanTokens tables query with
  | error err =>
    constructor
    · intro h
      cases h
    · rintro ⟨us, hus, _⟩
      cases hus
  | ok tokens =>
    constructor
    · intro h
      change (parse tokens).mapError _ = _ at h
      cases hparse : parse tokens with
      | error err =>
        rw [hparse] at h
        cases h
      | ok e' =>
        rw [hparse] at h
        cases h
        exact ⟨_, rfl, parse_sound hparse⟩
    · rintro ⟨us, hus, hderives⟩
      cases hus
      change (parse tokens).mapError _ = _
      rw [parse_complete hderives]
      rfl

/-- An accepted selector is read back from its text when every character that stands in its string
literals survives, and only then. -/
theorem fromStr_display_iff (tables : UnicodeTables) (query : Text) (e : Expr)
    (h : fromStr tables query = .ok e) :
    fromStr tables (e.display tables) = .ok e ↔ ∀ c ∈ literalChars false query, survives tables c = true := by
  obtain ⟨us, hkinds, depth, hderives⟩ := fromStr_eq_ok_iff.mp h
  obtain ⟨vs, hvs, hscans, hall⟩ := within_prints depth hderives (kinds_spelled hkinds)
  have htext : kinds tables (e.display tables) = readBack tables vs := by
    have happend := hscans [] breaks_nil
    rw [append_nil, kinds_nil] at happend
    rw [happend]
    cases readBack tables vs <;> simp
  have hsurvives : vs.all (readsBack tables) = true ↔ ∀ c ∈ literalChars false query, survives tables c = true := by
    rw [hall, kinds_literalChars hkinds, all_eq_true]
  rw [fromStr_eq_ok_iff, htext, readBack, ← hsurvives]
  constructor
  · rintro ⟨ws, hws, _⟩
    by_contra hnot
    rw [if_neg hnot] at hws
    cases hws
  · intro hback
    rw [if_pos hback]
    exact ⟨vs, rfl, depth, hvs⟩

/-- `.a | f("\t")`, with the tab itself in the literal. -/
theorem fromStr_display_iff_tab : let query : Text := ['.', 'a', ' ', '|', ' ', 'f', '(', '"', '\t', '"', ')']
    let e : Expr := .pipe (.field ['a']) (.function ['f'] (some [.string ['\t']])) false
    fromStr .asciiOnly query = .ok e ∧ (fromStr .asciiOnly (e.display .asciiOnly) = .ok e ↔
      ∀ c ∈ literalChars false query, survives .asciiOnly c = true) := by
  intro query e
  have hread : fromStr .asciiOnly query = .ok e := by decide +kernel
  exact ⟨hread, fromStr_display_iff .asciiOnly query e hread⟩

/-- `f("\r")`, with the carriage return itself in the literal: it is written as an escape that the
lexer does not know. -/
theorem carriage_return_not_read_back : let query : Text := ['f', '(', '"', '\r', '"', ')']
    let e : Expr := .function ['f'] (some [.string ['\r']])
    fromStr .asciiOnly query = .ok e ∧
      fromStr .asciiOnly (e.display .asciiOnly) = .error (.lex (.invalidEscape 'r' 1 5)) ∧
      ¬∀ (tables : UnicodeTables) (query : Text) (e : Expr), fromStr tables query = .ok e →
        fromStr tables (e.display tables) = .ok e := by
  intro query e
  have hread : fromStr .asciiOnly query = .ok e := rfl
  have hback : fromStr .asciiOnly (e.display .asciiOnly) = .error (.lex (.invalidEscape 'r' 1 5)) := rfl
  refine ⟨hread, hback, fun h => ?_⟩
  rw [h _ _ _ hread] at hback
  cases hback

end Dalaran.Selector
