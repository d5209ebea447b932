import Dalaran.Base.Collect

/-
  Recursive descent with a lookahead that does not backtrack.

  A parser reads tokens from the front and returns what it made of them and what it
  left. It is `Sound` for a language when it takes only what the language has, and
  `Complete` when it takes all of it, as long as what comes next may come next.

  The loop is the one of `item (separator item)*`, whose language is `Joined`; the
  lookahead tells a further item from what follows (`Separates`).
-/

namespace Descent

open List

open Collect (bind_eq_ok)

variable {τ δ α β γ ζ : Type}

/-- What was read and the tokens that are left, or an error. -/
abbrev Parser (τ δ α : Type) := List τ → Except δ (α × List τ)

abbrev Language (τ α : Type) := List τ → α → Prop

def Sound (p : Parser τ δ α) (lang : Language τ α) : Prop :=
  ∀ ⦃ts a rest⦄, p ts = .ok (a, rest) → ∃ us, ts = us ++ rest ∧ lang us a

def Complete (p : Parser τ δ α) (lang : Language τ α) (follow : List τ → Prop) : Prop :=
  ∀ ⦃us a⦄, lang us a → ∀ ⦃rest⦄, follow rest → p (us ++ rest) = .ok (a, rest)

theorem Complete.mono {p : Parser τ δ α} {lang : Language τ α} {follow follow' : List τ → Prop}
    (h : Complete p lang follow) (hfollow : ∀ rest, follow' rest → follow rest) :
    Complete p lang follow' :=
  fun _ _ hlang rest hrest => h hlang (hfollow rest hrest)

/-! ## Items joined from the left -/

inductive Joined (sep : List τ) (first : Language τ α) (item : Language τ β) (join : α → β → α) : Language τ α
  | one {us : List τ} {a : α} (hfirst : first us a) : Joined sep first item join us a
  | more {us vs : List τ} {a : α} {b : β} (hleft : Joined sep first item join us a)
      (hright : item vs b) : Joined sep first item join (us ++ sep ++ vs) (join a b)

namespace Joined

variable {sep : List τ} {first first' : Language τ α} {item item' : Language τ β} {join : α → β → α}

theorem mono_of_length {k : Nat} (hfirst : ∀ us a, us.length ≤ k → first us a → first' us a)
    (hitem : ∀ us b, us.length ≤ k → item us b → item' us b) {us : List τ} {a : α}
    (h : Joined sep first item join us a) (hlength : us.length ≤ k) :
    Joined sep first' item' join us a := by
  induction h with
  | one h => exact .one (hfirst _ _ hlength h)
  | more hleft hright ih =>
    simp only [length_append] at hlength
    exact .more (ih (by omega)) (hitem _ _ (by omega) hright)

theorem head {P : List τ → Prop} (happend : ∀ us vs, P us → P (us ++ vs))
    (hfirst : ∀ us a, first us a → P us) {us : List τ} {a : α} (h : Joined sep first item join us a) :
    P us := by
  induction h with
  | one h => exact hfirst _ _ h
  | more hleft hright ih => exact happend _ _ (happend _ _ ih)

end Joined

/-! ## The loop -/

/-- One turn for each item that `more` finds; `more` takes the separator. -/
def loop (more : List τ → Option (List τ)) (item : Parser τ δ β) (join : α → β → α) : Nat → α → Parser τ δ α
  | 0, left, ts => .ok (left, ts)
  | fuel + 1, left, ts =>
    match more ts with
    | none => .ok (left, ts)
    | some ts => item ts >>= fun (right, rest) => loop more item join fuel (join left right) rest

/-- A first item and the loop behind it. Every turn takes a token, so there is fuel for all of them. -/
def joined (first : Parser τ δ α) (more : List τ → Option (List τ)) (item : Parser τ δ β)
    (join : α → β → α) : Parser τ δ α :=
  fun ts => first ts >>= fun (left, rest) => loop more item join rest.length left rest

/-- The lookahead `more` finds an item behind the separator, and stops at what follows. -/
structure Separates (more : List τ → Option (List τ)) (sep : List τ) (item : Language τ β)
    (follow : List τ → Prop) : Prop where
  strips : ∀ {ts rest}, more ts = some rest → ts = sep ++ rest
  finds : ∀ {us b} rest, item us b → more (sep ++ us ++ rest) = some (us ++ rest)
  stops : ∀ {rest}, follow rest → more rest = none
  takes : ∀ {us b}, item us b → sep ++ us ≠ []

theorem Separates.mono {more : List τ → Option (List τ)} {sep : List τ} {item : Language τ β}
    {follow follow' : List τ → Prop} (h : Separates more sep item follow)
    (hfollow : ∀ rest, follow' rest → follow rest) : Separates more sep item follow' :=
  { h with stops := fun {rest} hrest => h.stops (hfollow rest hrest) }

theorem separates_token {more : List τ → Option (List τ)} {sep : τ}
    (hmore : ∀ ts rest, more ts = some rest ↔ ts = sep :: rest) (item : Language τ β) :
    Separates more [sep] item fun rest => rest.head? ≠ some sep where
  strips {ts rest} h := (hmore ts rest).mp h
  finds {us b} rest _ := (hmore _ _).mpr rfl
  stops {rest} h := by
    cases hrest : more rest with
    | none => rfl
    | some ts =>
      rw [(hmore rest ts).mp hrest] at h
      exact absurd rfl h
  takes _ := by simp

section Loop

variable {sep : List τ} {first : Language τ α} {item : Language τ β} {join : α → β → α}
  {more : List τ → Option (List τ)} {readFirst : Parser τ δ α} {readItem : Parser τ δ β}
  {follow inner : List τ → Prop}

theorem loop_sound (hmore : Separates more sep item follow) (hitem : Sound readItem item) {n : Nat}
    {us ts rest : List τ} {a c : α} (ha : Joined sep first item join us a)
    (h : loop more readItem join n a ts = .ok (c, rest)) :
    ∃ vs, ts = vs ++ rest ∧ Joined sep first item join (us ++ vs) c := by
  induction n generalizing us ts a with
  | zero =>
    cases h
    exact ⟨[], rfl, by simpa using ha⟩
  | succ n ih =>
    rw [loop] at h
    cases hts : more ts with
    | none =>
      rw [hts] at h
      cases h
      exact ⟨[], rfl, by simpa using ha⟩
    | some tail =>
      rw [hts] at h
      obtain ⟨⟨b, between⟩, hb, hloop⟩ := bind_eq_ok.mp h
      obtain ⟨vs, rfl, hvs⟩ := hitem hb
      obtain ⟨ws, rfl, hws⟩ := ih (ha.more hvs) hloop
      refine ⟨sep ++ vs ++ ws, ?_, ?_⟩
      · rw [hmore.strips hts]
        simp
      · simpa using hws

theorem joined_sound (hmore : Separates more sep item follow) (hfirst : Sound readFirst first)
    (hitem : Sound readItem item) :
    Sound (joined readFirst more readItem join) (Joined sep first item join) := by
  intro ts c rest h
  obtain ⟨⟨a, between⟩, ha, hloop⟩ := bind_eq_ok.mp h
  obtain ⟨us, rfl, hus⟩ := hfirst ha
  obtain ⟨vs, rfl, hvs⟩ := loop_sound hmore hitem (.one hus) hloop
  exact ⟨us ++ vs, by simp, hvs⟩

theorem joined_append (hmore : Separates more sep item follow) (hfirst : Complete readFirst first inner)
    (hitem : Complete readItem item inner)
    (hinner : ∀ us b rest, item us b → inner rest → inner (sep ++ us ++ rest)) {us : List τ} {a : α}
    (h : Joined sep first item join us a) {rest : List τ} (hrest : inner rest) :
    ∃ n, rest.length ≤ n ∧ joined readFirst more readItem join (us ++ rest) = loop more readItem join n a rest := by
  induction h generalizing rest with
  | one hus =>
    refine ⟨rest.length, Nat.le_refl _, ?_⟩
    rw [joined, hfirst hus hrest]
    rfl
  | @more us vs a b hleft hright ih =>
    obtain ⟨n, hn, hrun⟩ := ih (hinner vs b rest hright hrest)
    have htakes : 0 < (sep ++ vs).length := length_pos_iff.mpr (hmore.takes hright)
    simp only [length_append] at hn htakes
    obtain ⟨n, rfl⟩ : ∃ m, n = m + 1 := ⟨n - 1, by omega⟩
    refine ⟨n, by omega, ?_⟩
    rw [append_assoc us, append_assoc us, hrun, loop, hmore.finds rest hright]
    simp only [hitem hright hrest]
    rfl

theorem joined_complete (hmore : Separates more sep item follow)
    (hfirst : Complete readFirst first inner) (hitem : Complete readItem item inner)
    (hinner : ∀ us b rest, item us b → inner rest → inner (sep ++ us ++ rest))
    (hfollow : ∀ rest, follow rest → inner rest) :
    Complete (joined readFirst more readItem join) (Joined sep first item join) follow := by
  intro us a h rest hrest
  obtain ⟨n, _, hrun⟩ := joined_append hmore hfirst hitem hinner h (hfollow rest hrest)
  rw [hrun]
  cases n with
  | zero => rfl
  | succ n => rw [loop, hmore.stops hrest]

end Loop

end Descent
