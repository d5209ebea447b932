import Mathlib.Data.List.Chain
import Dalaran.Selector.Grammar

/-
  The grammar of selectors that `selector/parser.rs` documents.

  There a `.`, a `map`, a `pack` and a function are segments, too, so that each of
  them may take postfix operators and stand in a chain. The parser reads them
  alone, and a `.` in front of a chain, to which it adds nothing (`undot`).

  What is read is derivable as documented, with the expression of the derivation
  less such dots (`derives_documented`). What is derivable is read if nothing but
  navigation takes a postfix operator or stands next to another segment, a `.` in
  front excepted (`Plain`).
-/

namespace Dalaran.Selector

open List

open Descent

/-! ## The documented grammar -/

namespace Documented

inductive PathSegment : Lang PathExpr
  | field (name : Text) : PathSegment [.field name] (.field name)
  | index (n : UInt64) : PathSegment [.lBracket, .integer n, .rBracket] (.index n)
  | identity : PathSegment [.dot] .identity

def PathTerm : Lang PathExpr := Chain pathNavigation PathSegment

def PathExpr : Lang PathExpr := Piped pathNavigation PathTerm

inductive Segment (expr : Lang Expr) : Lang Expr
  | field (name : Text) : Segment expr [.field name] (.field name)
  | index (n : UInt64) : Segment expr [.lBracket, .integer n, .rBracket] (.index n)
  | each : Segment expr [.lBracket, .rBracket] .each
  | identity : Segment expr [.dot] .identity
  | map {us : List TokenType} {e : Expr} (h : expr us e) :
      Segment expr (.ident "map".toList :: .lParen :: (us ++ [.rParen])) (.map e)
  | pack {us : List TokenType} {paths : List Selector.PathExpr} (h : Separated .comma PathExpr us paths) :
      Segment expr (.ident "pack".toList :: .lParen :: (us ++ [.rParen])) (.pack paths)
  | function {name : Text} {us : List TokenType} {e : Expr} (hname : ¬Reserved name)
      (h : FunctionForm name us e) : Segment expr (.ident name :: us) e

def Term (expr : Lang Expr) : Lang Expr := Chain exprNavigation (Segment expr)

def Within : Nat → Lang Expr
  | 0 => fun _ _ => False
  | depth + 1 => Piped exprNavigation (Term (Within depth))

def Derives (us : List TokenType) (e : Expr) : Prop := ∃ depth, Within depth us e

end Documented

/-! ## Dots in front of segments -/

def PathExpr.undot : PathExpr → PathExpr
  | .tryOp inner => .tryOp inner.undot
  | .nonNull inner => .nonNull inner.undot
  | .pipe left right implicit =>
    if implicit = true ∧ left = .identity then right.undot else .pipe left.undot right.undot implicit
  | path => path

/-- Without the identities that stand in front of segments. -/
def Expr.undot : Expr → Expr
  | .tryOp inner => .tryOp inner.undot
  | .nonNull inner => .nonNull inner.undot
  | .pipe left right implicit =>
    if implicit = true ∧ left = .identity then right.undot else .pipe left.undot right.undot implicit
  | .map body => .map body.undot
  | .pack paths => .pack (paths.map PathExpr.undot)
  | e => e

section Undot

variable {ε : Type} [DecidableEq ε]

structure Undots (nav : Navigation ε) (undot : ε → ε) : Prop where
  identity : undot nav.identity = nav.identity
  field : ∀ name, undot (nav.field name) = nav.field name ∧ nav.field name ≠ nav.identity
  index : ∀ n, undot (nav.index n) = nav.index n ∧ nav.index n ≠ nav.identity
  each : ∀ e, nav.each = .ok e → undot e = e ∧ e ≠ nav.identity
  tryOp : ∀ e, undot (nav.tryOp e) = nav.tryOp (undot e) ∧ nav.tryOp e ≠ nav.identity
  nonNull : ∀ e, undot (nav.nonNull e) = nav.nonNull (undot e) ∧ nav.nonNull e ≠ nav.identity
  pipe : ∀ left right implicit, undot (nav.pipe left right implicit) =
    if implicit = true ∧ left = nav.identity then undot right else nav.pipe (undot left) (undot right) implicit
  pipe_ne : ∀ left right implicit, nav.pipe left right implicit ≠ nav.identity

theorem undots_path : Undots pathNavigation PathExpr.undot where
  identity := rfl
  field := fun _ => ⟨rfl, nofun⟩
  index := fun _ => ⟨rfl, nofun⟩
  each := nofun
  tryOp := fun _ => ⟨rfl, nofun⟩
  nonNull := fun _ => ⟨rfl, nofun⟩
  pipe := fun _ _ _ => rfl
  pipe_ne := fun _ _ _ => nofun

theorem undots_expr : Undots exprNavigation Expr.undot where
  identity := rfl
  field := fun _ => ⟨rfl, nofun⟩
  index := fun _ => ⟨rfl, nofun⟩
  each := by
    intro e h
    cases h
    exact ⟨rfl, nofun⟩
  tryOp := fun _ => ⟨rfl, nofun⟩
  nonNull := fun _ => ⟨rfl, nofun⟩
  pipe := fun _ _ _ => rfl
  pipe_ne := fun _ _ _ => nofun

variable {nav : Navigation ε} {undot : ε → ε} {us vs : List TokenType} {d e : ε}

theorem Undots.pipe_of_ne (hu : Undots nav undot) (hne : d ≠ nav.identity) (right : ε) (implicit : Bool) :
    undot (nav.pipe d right implicit) = nav.pipe (undot d) (undot right) implicit := by
  rw [hu.pipe, if_neg fun h => hne h.2]

theorem Undots.postfixed (hu : Undots nav undot) (h : Postfixed nav (Segment nav) us e) :
    undot e = e ∧ e ≠ nav.identity := by
  induction h with
  | item h =>
    cases h with
    | field name => exact hu.field name
    | index n => exact hu.index n
    | each h => exact hu.each _ h
  | @tryOp us e h ih => exact ⟨by rw [(hu.tryOp e).1, ih.1], (hu.tryOp e).2⟩
  | @nonNull us e h ih => exact ⟨by rw [(hu.nonNull e).1, ih.1], (hu.nonNull e).2⟩

theorem Undots.chain (hu : Undots nav undot) (h : Chain nav (Segment nav) us e) :
    undot e = e ∧ e ≠ nav.identity := by
  induction h with
  | one h => exact hu.postfixed h
  | more hleft hright ih =>
    refine ⟨?_, hu.pipe_ne _ _ _⟩
    rw [hu.pipe_of_ne ih.2, ih.1, (hu.postfixed hright).1]

end Undot

/-! ## What is read is documented -/

variable {us : List TokenType}

theorem Postfixed.mono {ε : Type} {nav : Navigation ε} {item item' : Lang ε} {e : ε}
    (hitem : ∀ us e, item us e → item' us e) (h : Postfixed nav item us e) : Postfixed nav item' us e := by
  induction h with
  | item h => exact .item (hitem _ _ h)
  | tryOp h ih => exact .tryOp ih
  | nonNull h ih => exact .nonNull ih

section Documents

variable {ε : Type} [DecidableEq ε] {nav : Navigation ε} {undot : ε → ε} {segment : Lang ε}
  {read form : Text → Lang ε} {us : List TokenType} {e : ε}

/-- A segment is one of navigation, a `.`, or what stands behind an identifier. -/
def IsSegment (nav : Navigation ε) (form : Text → Lang ε) (segment : Lang ε) : Prop :=
  ∀ us e, segment us e ↔ Segment nav us e ∨ us = [.dot] ∧ e = nav.identity ∨
    ∃ name vs, us = .ident name :: vs ∧ form name vs e

omit [DecidableEq ε] in
theorem chain_documented (hsegment : IsSegment nav form segment) (h : Chain nav (Segment nav) us e) :
    Chain nav segment us e :=
  h.mono_of_length (fun _ _ _ => Postfixed.mono fun _ _ h => (hsegment _ _).mpr (.inl h))
    (fun _ _ _ => Postfixed.mono fun _ _ h => (hsegment _ _).mpr (.inl h)) (Nat.le_refl _)

theorem rooted_documented (hu : Undots nav undot) (hsegment : IsSegment nav form segment)
    (h : Chain nav (Segment nav) us e) :
    ∃ d, Chain nav segment (.dot :: us) d ∧ undot d = e ∧ d ≠ nav.identity := by
  have hpostfixed : ∀ {us e}, Postfixed nav (Segment nav) us e → Postfixed nav segment us e :=
    Postfixed.mono fun _ _ h => (hsegment _ _).mpr (.inl h)
  induction h with
  | @one us e h =>
    have hdot : Chain nav segment [.dot] nav.identity :=
      .one (.item ((hsegment _ _).mpr (.inr (.inl ⟨rfl, rfl⟩))))
    refine ⟨_, .more hdot (hpostfixed h), ?_, hu.pipe_ne _ _ _⟩
    rw [hu.pipe, if_pos ⟨rfl, rfl⟩, (hu.postfixed h).1]
  | more hleft hright ih =>
    obtain ⟨d, hd, hundot, hne⟩ := ih
    refine ⟨_, .more hd (hpostfixed hright), ?_, hu.pipe_ne _ _ _⟩
    rw [hu.pipe_of_ne hne, hundot, (hu.postfixed hright).1]

theorem term_documented (hu : Undots nav undot) (hsegment : IsSegment nav form segment)
    (hread : ∀ name vs e, read name vs e → ∃ d, form name vs d ∧ undot d = e) (h : Term nav read us e) :
    ∃ d, Chain nav segment us d ∧ undot d = e := by
  cases h with
  | identity => exact ⟨_, .one (.item ((hsegment _ _).mpr (.inr (.inl ⟨rfl, rfl⟩)))), hu.identity⟩
  | segments h => exact ⟨e, chain_documented hsegment h, (hu.chain h).1⟩
  | rooted h =>
    obtain ⟨d, hd, hundot, -⟩ := rooted_documented hu hsegment h
    exact ⟨d, hd, hundot⟩
  | ident h =>
    obtain ⟨d, hd, hundot⟩ := hread _ _ _ h
    exact ⟨d, .one (.item ((hsegment _ _).mpr (.inr (.inr ⟨_, _, rfl, hd⟩)))), hundot⟩

theorem piped_documented (hu : Undots nav undot) {term chain : Lang ε}
    (hterm : ∀ us e, term us e → ∃ d, chain us d ∧ undot d = e) (h : Piped nav term us e) :
    ∃ d, Piped nav chain us d ∧ undot d = e := by
  induction h with
  | one h =>
    obtain ⟨d, hd, hundot⟩ := hterm _ _ h
    exact ⟨d, .one hd, hundot⟩
  | more hleft hright ih =>
    obtain ⟨d, hd, hundot⟩ := ih
    obtain ⟨b, hb, hundotRight⟩ := hterm _ _ hright
    refine ⟨_, .more hd hb, ?_⟩
    rw [hu.pipe, if_neg fun h => Bool.noConfusion h.1, hundot, hundotRight]

theorem separated_documented {α : Type} {sep : TokenType} {item item' : Lang α} {f : α → α}
    (hitem : ∀ us a, item us a → ∃ b, item' us b ∧ f b = a) {items : List α} (h : Separated sep item us items) :
    ∃ bs, Separated sep item' us bs ∧ bs.map f = items := by
  induction h with
  | one h =>
    obtain ⟨a, ha, rfl⟩ := h
    obtain ⟨b, hb, rfl⟩ := hitem _ _ ha
    exact ⟨[b], .one ⟨b, hb, rfl⟩, rfl⟩
  | more hleft hright ih =>
    obtain ⟨bs, hbs, rfl⟩ := ih
    obtain ⟨b, hb, rfl⟩ := hitem _ _ hright
    exact ⟨bs ++ [b], .more hbs hb, by rw [map_append]; rfl⟩

end Documents

theorem isSegment_path : IsSegment pathNavigation (fun _ _ _ => False) Documented.PathSegment := by
  intro us e
  constructor
  · intro h
    cases h with
    | field name => exact .inl (.field name)
    | index n => exact .inl (.index n)
    | identity => exact .inr (.inl ⟨rfl, rfl⟩)
  · rintro (h | ⟨rfl, rfl⟩ | ⟨_, _, _, h⟩)
    · cases h with
      | field name => exact .field name
      | index n => exact .index n
      | each h => cases h
    · exact .identity
    · exact h.elim

/-- What the documented grammar has behind an identifier. -/
inductive Documented.IdentForm (expr : Lang Expr) : Text → Lang Expr
  | map {us : List TokenType} {e : Expr} (h : expr us e) :
      IdentForm expr "map".toList (.lParen :: (us ++ [.rParen])) (.map e)
  | pack {us : List TokenType} {paths : List Selector.PathExpr} (h : Separated .comma PathExpr us paths) :
      IdentForm expr "pack".toList (.lParen :: (us ++ [.rParen])) (.pack paths)
  | function {name : Text} {us : List TokenType} {e : Expr} (hname : ¬Reserved name)
      (h : FunctionForm name us e) : IdentForm expr name us e

theorem isSegment_expr (expr : Lang Expr) :
    IsSegment exprNavigation (Documented.IdentForm expr) (Documented.Segment expr) := by
  intro us e
  constructor
  · intro h
    cases h with
    | field name => exact .inl (.field name)
    | index n => exact .inl (.index n)
    | each => exact .inl (.each rfl)
    | identity => exact .inr (.inl ⟨rfl, rfl⟩)
    | map h => exact .inr (.inr ⟨_, _, rfl, .map h⟩)
    | pack h => exact .inr (.inr ⟨_, _, rfl, .pack h⟩)
    | function hname h => exact .inr (.inr ⟨_, _, rfl, .function hname h⟩)
  · rintro (h | ⟨rfl, rfl⟩ | ⟨_, _, rfl, h⟩)
    · cases h with
      | field name => exact .field name
      | index n => exact .index n
      | each h =>
        cases h
        exact .each
    · exact .identity
    · cases h with
      | map h => exact .map h
      | pack h => exact .pack h
      | function hname h => exact .function hname h

theorem pathDerives_documented {path : PathExpr} (h : PathDerives us path) :
    ∃ d, Documented.PathExpr us d ∧ d.undot = path :=
  piped_documented undots_path (fun _ _ => term_documented undots_path isSegment_path nofun) h

theorem undot_functionForm {name : Text} {e : Expr} (h : FunctionForm name us e) : e.undot = e := by
  cases h <;> rfl

theorem within_documented {depth : Nat} {e : Expr} (h : Within depth us e) :
    ∃ d, Documented.Within depth us d ∧ d.undot = e := by
  induction depth generalizing us e with
  | zero => exact h.elim
  | succ depth ih =>
    refine piped_documented undots_expr (fun _ _ => term_documented undots_expr (isSegment_expr _) ?_) h
    intro name vs e hform
    cases hform with
    | map h =>
      obtain ⟨d, hd, rfl⟩ := ih h
      exact ⟨.map d, .map hd, rfl⟩
    | pack h =>
      obtain ⟨paths, hpaths, rfl⟩ := separated_documented (fun _ _ h => pathDerives_documented h) h
      exact ⟨.pack paths, .pack hpaths, rfl⟩
    | function hname h => exact ⟨e, .function hname h, undot_functionForm h⟩

/-! ## What is documented is read, where forms stand alone -/

/-- The last token of a `.`, a `map`, a `pack` or a function. -/
def endsForm : TokenType → Bool
  | .dot | .rParen | .ident _ => true
  | _ => false

def endsSegment : TokenType → Bool
  | .field _ | .rBracket | .questionMark | .exclamationMark => true
  | _ => false

/-- The second token goes on with a term that the first one ends. -/
def clashes (last : TokenType) : TokenType → Bool
  | .questionMark | .exclamationMark => endsForm last
  | .field _ | .lBracket => endsForm last && last != .dot
  | .dot | .ident _ => endsForm last || endsSegment last
  | _ => false

/-- Only navigation takes postfix operators and stands next to other segments; a `.` may stand in front. -/
def Plain (us : List TokenType) : Prop := us.IsChain fun last next => clashes last next = false

instance (us : List TokenType) : Decidable (Plain us) := inferInstanceAs (Decidable (List.IsChain _ _))

def EndsWith (p : TokenType → Bool) (us : List TokenType) : Prop := ∃ last ∈ us.getLast?, p last = true

section Alone

variable {ε : Type} [DecidableEq ε] {nav : Navigation ε} {undot : ε → ε} {segment : Lang ε}
  {read form : Text → Lang ε} {us vs : List TokenType} {d e : ε}

omit [DecidableEq ε] in
theorem EndsWith.append {p : TokenType → Bool} (h : EndsWith p vs) : EndsWith p (us ++ vs) := by
  obtain ⟨last, hlast, hp⟩ := h
  exact ⟨last, mem_getLast?_append_of_mem_getLast? hlast, hp⟩

omit [DecidableEq ε] in
theorem Plain.joint {p : TokenType → Bool} {next : TokenType} (h : Plain (us ++ next :: vs)) (hends : EndsWith p us) :
    ∃ last, p last = true ∧ clashes last next = false := by
  obtain ⟨last, hlast, hp⟩ := hends
  exact ⟨last, hp, (isChain_append.mp h).2.2 last hlast next rfl⟩

omit [DecidableEq ε] in
theorem postfixed_ends (h : Postfixed nav (Segment nav) us e) : EndsWith endsSegment us := by
  induction h with
  | item h =>
    cases h with
    | field name => exact ⟨_, rfl, rfl⟩
    | index n => exact ⟨_, rfl, rfl⟩
    | each h => exact ⟨_, rfl, rfl⟩
  | tryOp h ih => exact EndsWith.append ⟨_, rfl, rfl⟩
  | nonNull h ih => exact EndsWith.append ⟨_, rfl, rfl⟩

omit [DecidableEq ε] in
theorem chain_ends (h : Chain nav (Segment nav) us e) : EndsWith endsSegment us := by
  cases h with
  | one h => exact postfixed_ends h
  | more hleft hright => exact (postfixed_ends hright).append

/-- What stands behind an identifier ends in a `)`, or is nothing. -/
def EndsForm (form : Text → Lang ε) : Prop :=
  ∀ name us e, form name us e → EndsWith (fun last => endsForm last && last != .dot) (.ident name :: us)

/-- A term of the documented grammar that is read. -/
inductive Alone (nav : Navigation ε) (undot : ε → ε) (form : Text → Lang ε) : Lang ε
  | identity : Alone nav undot form [.dot] nav.identity
  | segments {us : List TokenType} {e : ε} (h : Chain nav (Segment nav) us e) : Alone nav undot form us e
  | rooted {us : List TokenType} {e : ε} (h : Chain nav (Segment nav) us (undot e)) (hne : e ≠ nav.identity) :
      Alone nav undot form (.dot :: us) e
  | form {name : Text} {us : List TokenType} {e : ε} (h : form name us e) :
      Alone nav undot form (.ident name :: us) e

omit [DecidableEq ε] in
theorem Alone.ends (hform : EndsForm form) (h : Alone nav undot form us e) :
    EndsWith (fun last => endsForm last || endsSegment last) us := by
  have hleft : ∀ {us}, EndsWith (fun last => endsForm last && last != .dot) us →
      EndsWith (fun last => endsForm last || endsSegment last) us := by
    rintro us ⟨last, hlast, hp⟩
    refine ⟨last, hlast, ?_⟩
    show (endsForm last || endsSegment last) = true
    rw [(Bool.and_eq_true_iff.mp hp).1, Bool.true_or]
  have hright : ∀ {us}, EndsWith endsSegment us → EndsWith (fun last => endsForm last || endsSegment last) us := by
    rintro us ⟨last, hlast, hp⟩
    refine ⟨last, hlast, ?_⟩
    show (endsForm last || endsSegment last) = true
    rw [hp, Bool.or_true]
  cases h with
  | identity => exact ⟨_, rfl, rfl⟩
  | segments h => exact hright (chain_ends h)
  | rooted h hne => exact @EndsWith.append [.dot] _ _ (hright (chain_ends h))
  | form h => exact hleft (hform _ _ _ h)

omit [DecidableEq ε] in
theorem postfixed_alone (hsegment : IsSegment nav form segment) (hform : EndsForm form)
    (h : Postfixed nav segment us d) (hplain : Plain us) :
    Postfixed nav (Segment nav) us d ∨ us = [.dot] ∧ d = nav.identity ∨
      ∃ name vs, us = .ident name :: vs ∧ form name vs d := by
  have hop : ∀ op us d, clashes .dot op = true → (∀ last, endsForm last = true → clashes last op = true) →
      Plain (us ++ [op]) → (Postfixed nav (Segment nav) us d ∨ us = [.dot] ∧ d = nav.identity ∨
        ∃ name vs, us = .ident name :: vs ∧ form name vs d) → Postfixed nav (Segment nav) us d := by
    rintro op us d hdot hends hplain (h | ⟨rfl, -⟩ | ⟨name, vs, rfl, h⟩)
    · exact h
    · have hclash := (isChain_cons_cons.mp hplain).1
      rw [hdot] at hclash
      cases hclash
    · obtain ⟨last, hlast, hclash⟩ := hplain.joint (hform _ _ _ h)
      rw [hends last (Bool.and_eq_true_iff.mp hlast).1] at hclash
      cases hclash
  induction h with
  | item h => exact ((hsegment _ _).mp h).imp_left .item
  | tryOp h ih =>
    exact .inl (.tryOp (hop .questionMark _ _ rfl (fun _ h => h) hplain (ih hplain.left_of_append)))
  | nonNull h ih =>
    exact .inl (.nonNull (hop .exclamationMark _ _ rfl (fun _ h => h) hplain (ih hplain.left_of_append)))

theorem chain_alone (hu : Undots nav undot) (hsegment : IsSegment nav form segment) (hform : EndsForm form)
    (h : Chain nav segment us d) (hplain : Plain us) : Alone nav undot form us d := by
  induction h with
  | one h =>
    rcases postfixed_alone hsegment hform h hplain with hnav | ⟨rfl, rfl⟩ | ⟨name, vs, rfl, hident⟩
    · exact .segments (.one hnav)
    · exact .identity
    · exact .form hident
  | @more us vs d b hleft hright ih =>
    rw [append_nil] at hplain ⊢
    have hends := (ih hplain.left_of_append).ends hform
    rcases postfixed_alone hsegment hform hright hplain.right_of_append with hb | ⟨rfl, -⟩ | ⟨name, ws, rfl, -⟩
    · obtain ⟨next, ws, rfl, hnext⟩ : ∃ next ws, vs = next :: ws ∧
          ∀ last, (endsForm last && last != .dot) = true → clashes last next = true := by
        have hstart := postfixed_start hb
        cases vs with
        | nil => cases hstart
        | cons next ws => cases next <;> first | exact ⟨_, _, rfl, fun _ h => h⟩ | cases hstart
      cases ih hplain.left_of_append with
      | identity =>
        refine .rooted (.one ?_) (hu.pipe_ne _ _ _)
        rw [hu.pipe, if_pos ⟨rfl, rfl⟩, (hu.postfixed hb).1]
        exact hb
      | segments h =>
        have hmore := Joined.more h hb
        rw [append_nil] at hmore
        exact .segments hmore
      | rooted h hne =>
        have hmore := Joined.more h hb
        rw [append_nil] at hmore
        refine .rooted ?_ (hu.pipe_ne _ _ _)
        rw [hu.pipe_of_ne hne, (hu.postfixed hb).1]
        exact hmore
      | form h =>
        obtain ⟨last, hlast, hclash⟩ := hplain.joint (hform _ _ _ h)
        rw [hnext last hlast] at hclash
        cases hclash
    · obtain ⟨last, hlast, hclash⟩ := hplain.joint hends
      rw [show clashes last .dot = (endsForm last || endsSegment last) from rfl, hlast] at hclash
      cases hclash
    · obtain ⟨last, hlast, hclash⟩ := hplain.joint hends
      rw [show clashes last (.ident name) = (endsForm last || endsSegment last) from rfl, hlast] at hclash
      cases hclash

theorem term_alone (hu : Undots nav undot) (hsegment : IsSegment nav form segment) (hform : EndsForm form)
    (hread : ∀ name vs d, Plain vs → form name vs d → read name vs (undot d))
    (h : Chain nav segment us d) (hplain : Plain us) : Term nav read us (undot d) := by
  cases chain_alone hu hsegment hform h hplain with
  | identity =>
    rw [hu.identity]
    exact .identity
  | segments h =>
    rw [(hu.chain h).1]
    exact .segments h
  | rooted h hne => exact .rooted h
  | form h => exact .ident (hread _ _ _ hplain.tail h)

theorem piped_alone (hu : Undots nav undot) {term chain : Lang ε}
    (hterm : ∀ us d, Plain us → chain us d → term us (undot d)) (h : Piped nav chain us d) (hplain : Plain us) :
    Piped nav term us (undot d) := by
  induction h with
  | one h => exact .one (hterm _ _ hplain h)
  | more hleft hright ih =>
    rw [hu.pipe, if_neg fun h => Bool.noConfusion h.1]
    exact .more (ih hplain.left_of_append.left_of_append) (hterm _ _ hplain.right_of_append hright)

omit [DecidableEq ε] in
theorem separated_alone {α : Type} {sep : TokenType} {item item' : Lang α} {f : α → α}
    (hitem : ∀ us a, Plain us → item us a → item' us (f a)) {items : List α} (h : Separated sep item us items)
    (hplain : Plain us) : Separated sep item' us (items.map f) := by
  induction h with
  | one h =>
    obtain ⟨a, ha, rfl⟩ := h
    exact .one ⟨f a, hitem _ _ hplain ha, rfl⟩
  | more hleft hright ih =>
    rw [map_append]
    exact .more (ih hplain.left_of_append.left_of_append) (hitem _ _ hplain.right_of_append hright)

end Alone

theorem pathDerives_of_documented {d : PathExpr} (hplain : Plain us)
    (h : Documented.PathExpr us d) : PathDerives us d.undot :=
  piped_alone undots_path (fun _ _ hplain h =>
    term_alone undots_path isSegment_path (fun _ _ _ h => h.elim) (fun _ _ _ _ h => h) h hplain) h hplain

theorem endsForm_ident (expr : Lang Expr) : EndsForm (Documented.IdentForm expr) := by
  intro name us e h
  have hclosed : ∀ {us : List TokenType}, EndsWith (fun last => endsForm last && last != .dot)
      (.ident name :: .lParen :: (us ++ [.rParen])) := fun {us} =>
    @EndsWith.append (.ident name :: .lParen :: us) _ _ ⟨_, rfl, rfl⟩
  cases h with
  | map h => exact hclosed
  | pack h => exact hclosed
  | function hname h =>
    cases h with
    | bare => exact ⟨_, rfl, rfl⟩
    | empty => exact ⟨_, rfl, rfl⟩
    | call h => exact hclosed

theorem within_of_documented {depth : Nat} {d : Expr} (hplain : Plain us)
    (h : Documented.Within depth us d) : Within depth us d.undot := by
  induction depth generalizing us d with
  | zero => exact h.elim
  | succ depth ih =>
    refine piped_alone undots_expr (fun us d hplain h => term_alone undots_expr (isSegment_expr _)
      (endsForm_ident _) (fun name vs d hvs hform => ?_) h hplain) h hplain
    have hinner : ∀ {us}, Plain (.lParen :: (us ++ [.rParen])) → Plain us := fun h => h.tail.left_of_append
    cases hform with
    | map h => exact .map (ih (hinner hvs) h)
    | pack h => exact .pack (separated_alone (fun _ _ hplain h => pathDerives_of_documented hplain h) h (hinner hvs))
    | function hname h =>
      rw [undot_functionForm h]
      exact .function hname h

/-! ## The parser -/

theorem derives_documented {e : Expr} (h : Derives us e) : ∃ d, Documented.Derives us d ∧ d.undot = e := by
  obtain ⟨depth, h⟩ := h
  obtain ⟨d, hd, hundot⟩ := within_documented h
  exact ⟨d, ⟨depth, hd⟩, hundot⟩

/-- What the parser accepts is derivable as documented, and gives the expression of the derivation less
the dots in front of segments. What is derivable is accepted where nothing but navigation takes postfix
operators or stands next to other segments, a `.` in front excepted. -/
theorem parse_documented (tokens : List Token) (e : Expr) :
    (parse tokens = .ok e → ∃ d, Documented.Derives (tokens.map Token.typ) d ∧ d.undot = e) ∧
    (Plain (tokens.map Token.typ) →
      (parse tokens = .ok e ↔ ∃ d, Documented.Derives (tokens.map Token.typ) d ∧ d.undot = e)) := by
  have hsound : parse tokens = .ok e → ∃ d, Documented.Derives (tokens.map Token.typ) d ∧ d.undot = e :=
    fun h => derives_documented ((parse_eq_ok_iff_derives tokens e).mp h)
  refine ⟨hsound, fun hplain => ⟨hsound, ?_⟩⟩
  rintro ⟨d, ⟨depth, hd⟩, rfl⟩
  exact (parse_eq_ok_iff_derives tokens _).mpr ⟨depth, within_of_documented hplain hd⟩

/-- `.[0].a | map(.b?)` -/
def dottedMap : List Token :=
  [⟨.dot, 1⟩, ⟨.lBracket, 1⟩, ⟨.integer 0, 1⟩, ⟨.rBracket, 1⟩, ⟨.field ['a'], 1⟩, ⟨.pipe, 1⟩,
    ⟨.ident "map".toList, 1⟩, ⟨.lParen, 1⟩, ⟨.field ['b'], 1⟩, ⟨.questionMark, 1⟩, ⟨.rParen, 1⟩]

theorem parse_documented_dottedMap :
    parse dottedMap = .ok (.pipe (.pipe (.index 0) (.field ['a']) true) (.map (.tryOp (.field ['b']))) false) ∧
    ∃ d, Documented.Derives (dottedMap.map Token.typ) d ∧
      d.undot = .pipe (.pipe (.index 0) (.field ['a']) true) (.map (.tryOp (.field ['b']))) false := by
  have hparse : parse dottedMap =
      .ok (.pipe (.pipe (.index 0) (.field ['a']) true) (.map (.tryOp (.field ['b']))) false) := by decide
  exact ⟨hparse, ((parse_documented dottedMap _).2 (by decide)).mp hparse⟩

/-- `.[0]`: the documented grammar has an identity in front of the index, and the parser drops it. -/
theorem parse_dot_index : let tokens : List Token := [⟨.dot, 1⟩, ⟨.lBracket, 1⟩, ⟨.integer 0, 1⟩, ⟨.rBracket, 1⟩]
    parse tokens = .ok (.index 0) ∧ ¬∀ e, parse tokens = .ok e ↔ Documented.Derives (tokens.map Token.typ) e := by
  intro tokens
  have hparse : parse tokens = .ok (.index 0) := by decide
  refine ⟨hparse, fun h => ?_⟩
  have hdot : Postfixed exprNavigation (Documented.Segment (Documented.Within 0)) [.dot] .identity :=
    .item .identity
  have hindex : Postfixed exprNavigation (Documented.Segment (Documented.Within 0))
      [.lBracket, .integer 0, .rBracket] (.index 0) := .item (.index 0)
  have hchain : Chain exprNavigation (Documented.Segment (Documented.Within 0))
      ([.dot] ++ [] ++ [.lBracket, .integer 0, .rBracket]) (.pipe .identity (.index 0) true) :=
    .more (.one hdot) hindex
  have hderives : Documented.Derives (tokens.map Token.typ) (.pipe .identity (.index 0) true) :=
    ⟨1, .one hchain⟩
  have hidentity := (h _).mpr hderives
  cases hidentity

end Dalaran.Selector
