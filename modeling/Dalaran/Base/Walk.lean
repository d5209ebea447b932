import Dalaran.Base.Assoc

/-
  Walks along a finite map, from a key to its value and on, to a goal.

  `reaches m goal n k` makes at most `n` steps. A map whose steps raise a rank
  has no cycle, so one step more than the map has entries is enough to find a
  goal that is there (`reaches_of_rank`), or to run out of keys (`after_eq_none`).
-/

namespace Walk

open List

variable {K : Type} [DecidableEq K] {m : Assoc K K} {goal : K → Bool}

/-- Whether a walk of at most `n` steps from a key reaches a goal. -/
def reaches (m : Assoc K K) (goal : K → Bool) : Nat → K → Bool
  | 0, _ => false
  | n + 1, k =>
    match m.lookup k with
    | none => false
    | some k' => if goal k' then true else reaches m goal n k'

theorem reaches_succ {n : Nat} {k k' : K} (h : m.lookup k = some k') :
    reaches m goal (n + 1) k = (goal k' || reaches m goal n k') := by
  rw [reaches, h]
  cases hgoal : goal k' <;> simp [hgoal]

/-- The keys from which the rank of a key can still be raised. -/
def above (m : Assoc K K) (rank : K → Nat) (k : K) : List K :=
  m.keys.filter fun k' => decide (rank k ≤ rank k')

variable {rank : K → Nat}

theorem length_above_lt {k k' : K} (h : m.lookup k = some k') (hlt : rank k < rank k') :
    (above m rank k').length < (above m rank k).length := by
  have hsub : above m rank k' = (above m rank k).filter fun x => decide (rank k' ≤ rank x) := by
    unfold above
    rw [filter_filter]
    refine filter_congr fun x _ => ?_
    rw [← Bool.decide_and]
    exact decide_eq_decide.mpr ⟨fun hx => ⟨hx, by omega⟩, fun hx => hx.1⟩
  have hmem : k ∈ above m rank k :=
    mem_filter.mpr ⟨Assoc.mem_keys_iff.mpr ⟨k', h⟩, by simp⟩
  rw [hsub, length_filter_lt_length_iff_exists]
  exact ⟨k, hmem, by simpa using hlt⟩

theorem reaches_of_rank (hrank : ∀ k k', m.lookup k = some k' → rank k < rank k')
    {P : K → Prop} (hP : ∀ k, P k → ∃ k', m.lookup k = some k' ∧ (goal k' = true ∨ P k')) :
    ∀ (n : Nat) (k : K), (above m rank k).length < n → P k → reaches m goal n k = true
  | 0, _, hn, _ => absurd hn (Nat.not_lt_zero _)
  | n + 1, k, hn, hk => by
    obtain ⟨k', hk', hgoal⟩ := hP k hk
    rw [reaches_succ hk', Bool.or_eq_true]
    refine hgoal.imp_right fun hk'' => reaches_of_rank hrank hP n k' ?_ hk''
    have := length_above_lt hk' (hrank k k' hk')
    omega

/-- Where a number of steps from a key leads. -/
def after (m : Assoc K K) : Nat → K → Option K
  | 0, k => some k
  | n + 1, k => (m.lookup k).bind (after m n)

theorem after_eq_none (hrank : ∀ k k', m.lookup k = some k' → rank k < rank k') :
    ∀ (n : Nat) (k : K), (above m rank k).length < n → after m n k = none
  | 0, _, hn => absurd hn (Nat.not_lt_zero _)
  | n + 1, k, hn => by
    unfold after
    cases hk : m.lookup k with
    | none => rfl
    | some k' =>
      have := length_above_lt hk (hrank k k' hk)
      exact after_eq_none hrank n k' (by omega)

theorem after_rel {R : K → K → Prop} (hrefl : ∀ k, R k k) (htrans : ∀ k₁ k₂ k₃, R k₁ k₂ → R k₂ k₃ → R k₁ k₃)
    (hstep : ∀ k k', m.lookup k = some k' → R k k') : ∀ {n : Nat} {k k' : K}, after m n k = some k' → R k k'
  | 0, k, k', h => Option.some.inj h ▸ hrefl k
  | n + 1, k, k', h => by
    obtain ⟨k₁, hk₁, hrest⟩ := Option.bind_eq_some_iff.mp h
    exact htrans k k₁ k' (hstep k k₁ hk₁) (after_rel hrefl htrans hstep hrest)

omit [DecidableEq K] in
theorem length_above_le (rank : K → Nat) (k : K) : (above m rank k).length ≤ m.entries.length := by
  refine (length_filter_le _ _).trans ?_
  unfold AList.keys List.keys
  rw [length_map]

end Walk
