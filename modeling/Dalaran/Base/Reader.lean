import Mathlib.Tactic.Common

/-
  Machines that read symbols handed to them piece by piece.

  A machine looks at its state and at the symbols it has not read yet, and waits for
  more symbols, goes on, answers, or breaks down. Two things are asked of it: a move
  other than waiting stays the same when more symbols arrive (`stable`), and moves
  lower a measure (`goOn_lt`, `answer_lt`). So it does not matter in which pieces
  the symbols come and when the machine is asked to read (`drain_eq_calls`).
-/

namespace Reader

open List

variable {σ α ρ ε : Type}

/-- What a machine does next: the new state and how many symbols it has read. -/
inductive Move (σ ρ ε : Type) where
  | wait
  | goOn (s : σ) (n : Nat)
  | answer (r : ρ) (s : σ) (n : Nat)
  | breakDown (e : ε)

/-- A machine over symbols of type `α` that answers with `ρ` and breaks down with `ε`. -/
structure Machine (σ α ρ ε : Type) where
  move : σ → List α → Move σ ρ ε
  weight : Nat
  rank : σ → Nat
  stable : ∀ s x y, move s x ≠ .wait → move s (x ++ y) = move s x
  goOn_lt : ∀ s x s' n, move s x = .goOn s' n → n ≤ x.length ∧ rank s' < rank s + weight * n
  answer_lt : ∀ s x r s' n, move s x = .answer r s' n → n ≤ x.length ∧ rank s' < rank s + weight * n

/-- Where a machine stands: in a state with symbols to read, or broken down. -/
inductive Standing (σ α ε : Type) where
  | on (s : σ) (x : List α)
  | broken (e : ε)

def Standing.push : Standing σ α ε → List α → Standing σ α ε
  | .on s x, y => .on s (x ++ y)
  | .broken e, _ => .broken e

theorem Standing.push_nil (t : Standing σ α ε) : t.push [] = t := by
  cases t with
  | on s x => rw [Standing.push, append_nil]
  | broken e => rfl

namespace Machine

variable (M : Machine σ α ρ ε)

/-- What every move but waiting lowers. -/
def size (s : σ) (x : List α) : Nat := M.weight * x.length + M.rank s

variable {M} {s s' : σ} {x y : List α} {r : ρ} {e : ε} {n : Nat}

theorem size_goOn (h : M.move s x = .goOn s' n) : M.size s' (x.drop n) < M.size s x := by
  obtain ⟨hn, hlt⟩ := M.goOn_lt s x s' n h
  have hlen : M.weight * x.length = M.weight * (x.length - n) + M.weight * n := by
    rw [← Nat.mul_add, Nat.sub_add_cancel hn]
  unfold size
  rw [length_drop]
  omega

theorem size_answer (h : M.move s x = .answer r s' n) : M.size s' (x.drop n) < M.size s x := by
  obtain ⟨hn, hlt⟩ := M.answer_lt s x r s' n h
  have hlen : M.weight * x.length = M.weight * (x.length - n) + M.weight * n := by
    rw [← Nat.mul_add, Nat.sub_add_cancel hn]
  unfold size
  rw [length_drop]
  omega

variable (M)

/-! ## Reading to the next answer -/

/-- At most `n` moves, up to the next answer. -/
def readWithin : Nat → σ → List α → Option ρ × Standing σ α ε
  | 0, s, x => (none, .on s x)
  | n + 1, s, x =>
    match M.move s x with
    | .wait => (none, .on s x)
    | .goOn s' k => readWithin n s' (x.drop k)
    | .answer r s' k => (some r, .on s' (x.drop k))
    | .breakDown e => (none, .broken e)

def read (s : σ) (x : List α) : Option ρ × Standing σ α ε := M.readWithin (M.size s x + 1) s x

/-! ## Reading to the end -/

/-- At most `n` moves, collecting the answers. -/
def drainWithin : Nat → σ → List α → List ρ × Standing σ α ε
  | 0, s, x => ([], .on s x)
  | n + 1, s, x =>
    match M.move s x with
    | .wait => ([], .on s x)
    | .goOn s' k => drainWithin n s' (x.drop k)
    | .answer r s' k => (r :: (drainWithin n s' (x.drop k)).1, (drainWithin n s' (x.drop k)).2)
    | .breakDown e => ([], .broken e)

/-- Move until a wait or a breakdown, collecting the answers. -/
def drain (s : σ) (x : List α) : List ρ × Standing σ α ε := M.drainWithin (M.size s x + 1) s x

variable {M}

theorem readWithin_of_lt : ∀ {m n : Nat} {s : σ} {x : List α}, M.size s x < m → M.size s x < n →
    M.readWithin m s x = M.readWithin n s x
  | m + 1, n + 1, s, x, hm, hn => by
    unfold readWithin
    cases hmove : M.move s x with
    | wait => rfl
    | answer r s' k => rfl
    | breakDown e => rfl
    | goOn s' k =>
      have := size_goOn hmove
      exact readWithin_of_lt (by omega) (by omega)

theorem drainWithin_of_lt : ∀ {m n : Nat} {s : σ} {x : List α}, M.size s x < m → M.size s x < n →
    M.drainWithin m s x = M.drainWithin n s x
  | m + 1, n + 1, s, x, hm, hn => by
    unfold drainWithin
    cases hmove : M.move s x with
    | wait => rfl
    | breakDown e => rfl
    | goOn s' k =>
      have := size_goOn hmove
      exact drainWithin_of_lt (by omega) (by omega)
    | answer r s' k =>
      have := size_answer hmove
      dsimp only
      rw [@drainWithin_of_lt m n s' (x.drop k) (by omega) (by omega)]

theorem read_eq (s : σ) (x : List α) : M.read s x = match M.move s x with
    | .wait => (none, .on s x)
    | .goOn s' k => M.read s' (x.drop k)
    | .answer r s' k => (some r, .on s' (x.drop k))
    | .breakDown e => (none, .broken e) := by
  unfold read
  rw [readWithin]
  cases hmove : M.move s x with
  | wait => rfl
  | answer r s' k => rfl
  | breakDown e => rfl
  | goOn s' k => exact readWithin_of_lt (size_goOn hmove) (Nat.lt_succ_self _)

theorem drain_eq (s : σ) (x : List α) : M.drain s x = match M.move s x with
    | .wait => ([], .on s x)
    | .goOn s' k => M.drain s' (x.drop k)
    | .answer r s' k => (r :: (M.drain s' (x.drop k)).1, (M.drain s' (x.drop k)).2)
    | .breakDown e => ([], .broken e) := by
  unfold drain
  rw [drainWithin]
  cases hmove : M.move s x with
  | wait => rfl
  | breakDown e => rfl
  | goOn s' k => exact drainWithin_of_lt (size_goOn hmove) (Nat.lt_succ_self _)
  | answer r s' k =>
    dsimp only
    rw [drainWithin_of_lt (size_answer hmove) (Nat.lt_succ_self _)]

theorem induct {P : σ → List α → Prop}
    (h : ∀ s x, (∀ s' n, M.move s x = .goOn s' n → P s' (x.drop n)) →
      (∀ r s' n, M.move s x = .answer r s' n → P s' (x.drop n)) → P s x) (s : σ) (x : List α) :
    P s x := by
  induction hm : M.size s x using Nat.strongRecOn generalizing s x with
  | ind m ih =>
    refine h s x (fun s' n hmove => ?_) fun r s' n hmove => ?_
    · exact ih _ (hm ▸ size_goOn hmove) _ _ rfl
    · exact ih _ (hm ▸ size_answer hmove) _ _ rfl

/-! ## Symbols that arrive later -/

theorem move_append (h : M.move s x = .goOn s' n) (y : List α) :
    M.move s (x ++ y) = .goOn s' n ∧ (x ++ y).drop n = x.drop n ++ y := by
  refine ⟨(M.stable s x y (by simp [h])).trans h, ?_⟩
  exact drop_append_of_le_length (M.goOn_lt s x s' n h).1

theorem move_append_answer (h : M.move s x = .answer r s' n) (y : List α) :
    M.move s (x ++ y) = .answer r s' n ∧ (x ++ y).drop n = x.drop n ++ y := by
  refine ⟨(M.stable s x y (by simp [h])).trans h, ?_⟩
  exact drop_append_of_le_length (M.answer_lt s x r s' n h).1

variable (M)

def rest : Standing σ α ε → List ρ × Standing σ α ε
  | .on s x => M.drain s x
  | .broken e => ([], .broken e)

variable {M}

variable (M) in
theorem rest_read (y : List α) (s : σ) (x : List α) : M.drain s (x ++ y) =
    ((M.read s x).1.toList ++ (M.rest ((M.read s x).2.push y)).1, (M.rest ((M.read s x).2.push y)).2) := by
  induction s, x using M.induct with
  | h s x hgoOn hanswer =>
    rw [read_eq]
    cases hmove : M.move s x with
    | wait => rfl
    | breakDown e =>
      rw [drain_eq, M.stable s x y (by simp [hmove]), hmove]
      rfl
    | goOn s' k =>
      obtain ⟨hm, hd⟩ := move_append hmove y
      rw [drain_eq, hm]
      dsimp only
      rw [hd]
      exact hgoOn s' k hmove
    | answer r s' k =>
      obtain ⟨hm, hd⟩ := move_append_answer hmove y
      rw [drain_eq, hm]
      dsimp only
      rw [hd]
      rfl

variable (M) in
theorem rest_of_read_none (s : σ) (x : List α) (h : (M.read s x).1 = none) :
    M.rest (M.read s x).2 = ([], (M.read s x).2) := by
  induction s, x using M.induct with
  | h s x hgoOn hanswer =>
    rw [read_eq] at h ⊢
    cases hmove : M.move s x with
    | wait =>
      show M.drain s x = _
      rw [drain_eq, hmove]
    | breakDown e => rfl
    | goOn s' k =>
      rw [hmove] at h
      exact hgoOn s' k hmove h
    | answer r s' k =>
      rw [hmove] at h
      cases h

variable (M) in
theorem size_of_read_some (s : σ) (x : List α) {r : ρ} (h : (M.read s x).1 = some r) :
    ∃ s' x', (M.read s x).2 = .on s' x' ∧ M.size s' x' < M.size s x := by
  induction s, x using M.induct with
  | h s x hgoOn hanswer =>
    rw [read_eq] at h ⊢
    cases hmove : M.move s x with
    | wait =>
      rw [hmove] at h
      cases h
    | breakDown e =>
      rw [hmove] at h
      cases h
    | goOn s' k =>
      rw [hmove] at h
      obtain ⟨s'', x'', hon, hlt⟩ := hgoOn s' k hmove h
      exact ⟨s'', x'', hon, Nat.lt_trans hlt (size_goOn hmove)⟩
    | answer r' s' k => exact ⟨s', x.drop k, rfl, size_answer hmove⟩

theorem move_of_drain (s : σ) (x : List α) {s' : σ} {x' : List α} (h : (M.drain s x).2 = .on s' x') :
    M.move s' x' = .wait := by
  induction s, x using M.induct with
  | h s x hgoOn hanswer =>
    rw [drain_eq] at h
    cases hmove : M.move s x with
    | wait =>
      rw [hmove] at h
      obtain ⟨rfl, rfl⟩ := Standing.on.inj h
      exact hmove
    | breakDown e =>
      rw [hmove] at h
      cases h
    | goOn s₁ k =>
      rw [hmove] at h
      exact hgoOn s₁ k hmove h
    | answer r s₁ k =>
      rw [hmove] at h
      exact hanswer r s₁ k hmove h

/-! ## Any order of pushes and reads -/

inductive Op (α : Type) where
  | push (x : List α)
  | read

def pushed : List (Op α) → List α
  | [] => []
  | .push x :: ops => x ++ pushed ops
  | .read :: ops => pushed ops

variable (M)

def call : Standing σ α ε → Op α → Option ρ × Standing σ α ε
  | t, .push y => (none, t.push y)
  | .on s x, .read => M.read s x
  | .broken e, .read => (none, .broken e)

def calls : Standing σ α ε → List (Op α) → List ρ × Standing σ α ε
  | t, [] => ([], t)
  | t, op :: ops => ((M.call t op).1.toList ++ (calls (M.call t op).2 ops).1, (calls (M.call t op).2 ops).2)

variable {M}

theorem rest_calls_broken (e : ε) : ∀ ops : List (Op α), M.calls (.broken e) ops = ([], .broken e)
  | [] => rfl
  | .push _ :: ops => by
    rw [calls]
    exact rest_calls_broken e ops
  | .read :: ops => by
    rw [calls]
    exact rest_calls_broken e ops

variable (M) in
theorem drain_eq_calls : ∀ (ops : List (Op α)) (s : σ) (x : List α), M.drain s (x ++ pushed ops) =
    ((M.calls (.on s x) ops).1 ++ (M.rest (M.calls (.on s x) ops).2).1, (M.rest (M.calls (.on s x) ops).2).2)
  | [], s, x => by
    simp only [pushed, append_nil, calls, nil_append]
    rfl
  | .push y :: ops, s, x => by
    rw [pushed, ← append_assoc]
    exact drain_eq_calls ops s (x ++ y)
  | .read :: ops, s, x => by
    rw [pushed, M.rest_read, calls, call]
    cases hread : (M.read s x).2 with
    | broken e =>
      rw [rest_calls_broken]
      simp [Standing.push, rest]
    | on s' x' =>
      have ih := drain_eq_calls ops s' x'
      simp [Standing.push, rest, ih]

/-! ## Paths -/

/-- A machine gets from one standing to another, answering on the way. -/
inductive Path (M : Machine σ α ρ ε) : σ → List α → List ρ → σ → List α → Prop where
  | refl (s : σ) (x : List α) : Path M s x [] s x
  | goOn {s s' s'' : σ} {x x'' : List α} {rs : List ρ} {n : Nat} (h : M.move s x = .goOn s' n)
      (hrest : Path M s' (x.drop n) rs s'' x'') : Path M s x rs s'' x''
  | answer {s s' s'' : σ} {x x'' : List α} {r : ρ} {rs : List ρ} {n : Nat}
      (h : M.move s x = .answer r s' n) (hrest : Path M s' (x.drop n) rs s'' x'') :
      Path M s x (r :: rs) s'' x''

theorem Path.trans {s₁ s₂ s₃ : σ} {x₁ x₂ x₃ : List α} {rs rs' : List ρ} (h₁ : M.Path s₁ x₁ rs s₂ x₂)
    (h₂ : M.Path s₂ x₂ rs' s₃ x₃) : M.Path s₁ x₁ (rs ++ rs') s₃ x₃ := by
  induction h₁ with
  | refl s x => exact h₂
  | goOn h _ ih => exact .goOn h (ih h₂)
  | answer h _ ih => exact .answer h (ih h₂)

theorem Path.drain {rs : List ρ} (h : M.Path s x rs s' y) :
    M.drain s x = (rs ++ (M.drain s' y).1, (M.drain s' y).2) := by
  induction h with
  | refl s x => rfl
  | goOn h _ ih => rw [drain_eq, h, ← ih]
  | answer h _ ih =>
    rw [drain_eq, h]
    dsimp only
    rw [ih]
    rfl

theorem drain_broken_iff (s : σ) (x : List α) (e : ε) : (M.drain s x).2 = .broken e ↔
    ∃ rs s' x', M.Path s x rs s' x' ∧ M.move s' x' = .breakDown e := by
  constructor
  · intro h
    induction s, x using M.induct with
    | h s x hgoOn hanswer =>
      rw [drain_eq] at h
      cases hmove : M.move s x with
      | wait =>
        rw [hmove] at h
        cases h
      | breakDown e' =>
        rw [hmove] at h
        obtain rfl := Standing.broken.inj h
        exact ⟨[], s, x, .refl s x, hmove⟩
      | goOn s₁ k =>
        rw [hmove] at h
        obtain ⟨rs, s', x', hpath, hbreak⟩ := hgoOn s₁ k hmove h
        exact ⟨rs, s', x', .goOn hmove hpath, hbreak⟩
      | answer r s₁ k =>
        rw [hmove] at h
        obtain ⟨rs, s', x', hpath, hbreak⟩ := hanswer r s₁ k hmove h
        exact ⟨r :: rs, s', x', .answer hmove hpath, hbreak⟩
  · intro h
    obtain ⟨rs, s', x', hpath, hbreak⟩ := h
    rw [hpath.drain, drain_eq, hbreak]

/-! ## Reading often enough -/

theorem calls_of_wait (h : M.move s x = .wait) : ∀ n, M.calls (.on s x) (List.replicate n .read) = ([], .on s x)
  | 0 => rfl
  | n + 1 => by
    have hread : M.read s x = (none, .on s x) := by rw [read_eq, h]
    rw [replicate_succ, calls, call, hread]
    exact calls_of_wait h n

theorem calls_reads : ∀ (n : Nat) (s : σ) (x : List α), M.size s x < n →
    M.calls (.on s x) (List.replicate n .read) = M.drain s x
  | n + 1, s, x, hn => by
    have hrest := M.rest_read [] s x
    rw [append_nil, Standing.push_nil] at hrest
    rw [replicate_succ, calls, call, hrest]
    cases hread : (M.read s x).1 with
    | none =>
      have hnone := M.rest_of_read_none s x hread
      cases hstand : (M.read s x).2 with
      | broken e =>
        rw [rest_calls_broken]
        rfl
      | on s' x' =>
        rw [hstand] at hnone
        have hwait : M.move s' x' = .wait := move_of_drain s' x' (by rw [show M.drain s' x' = _ from hnone])
        rw [calls_of_wait hwait, hnone]
    | some r =>
      obtain ⟨s', x', hon, hlt⟩ := M.size_of_read_some s x hread
      rw [hon, calls_reads n s' x' (by omega)]
      rfl

/-! ## Invariants -/

/-- Every move keeps a property of the state. -/
structure Keeps (M : Machine σ α ρ ε) (I : σ → Prop) : Prop where
  goOn : ∀ s x s' n, I s → M.move s x = .goOn s' n → I s'
  answer : ∀ s x r s' n, I s → M.move s x = .answer r s' n → I s'

theorem Keeps.read {I : σ → Prop} (hI : M.Keeps I) (s : σ) (x : List α) {s' : σ} {x' : List α} (h : I s)
    (hread : (M.read s x).2 = .on s' x') : I s' := by
  induction s, x using M.induct with
  | h s x hgoOn hanswer =>
    rw [read_eq] at hread
    cases hmove : M.move s x with
    | wait =>
      rw [hmove] at hread
      obtain ⟨rfl, rfl⟩ := Standing.on.inj hread
      exact h
    | breakDown e =>
      rw [hmove] at hread
      cases hread
    | goOn s₁ n =>
      rw [hmove] at hread
      exact hgoOn s₁ n hmove (hI.goOn s x s₁ n h hmove) hread
    | answer r s₁ n =>
      rw [hmove] at hread
      obtain ⟨rfl, rfl⟩ := Standing.on.inj hread
      exact hI.answer s x r s₁ n h hmove

theorem Keeps.calls {I : σ → Prop} (hI : M.Keeps I) : ∀ (ops : List (Op α)) (s : σ) (x : List α) {s' : σ} {x' : List α},
    I s → (M.calls (.on s x) ops).2 = .on s' x' → I s'
  | [], s, x, s', x', h, hcalls => by
    obtain ⟨rfl, rfl⟩ := Standing.on.inj hcalls
    exact h
  | .push y :: ops, s, x, s', x', h, hcalls => Keeps.calls hI ops s (x ++ y) h hcalls
  | .read :: ops, s, x, s', x', h, hcalls => by
    rw [Machine.calls, call] at hcalls
    cases hstand : (M.read s x).2 with
    | broken e =>
      rw [hstand, rest_calls_broken] at hcalls
      cases hcalls
    | on s₁ x₁ =>
      rw [hstand] at hcalls
      exact Keeps.calls hI ops s₁ x₁ (hI.read s x h hstand) hcalls

/-! ## States that cannot be told apart -/

/-- The same move, into states that are related. -/
inductive SameMove (R : σ → σ → Prop) : Move σ ρ ε → Move σ ρ ε → Prop where
  | wait : SameMove R .wait .wait
  | goOn {s t : σ} (n : Nat) (h : R s t) : SameMove R (.goOn s n) (.goOn t n)
  | answer {s t : σ} (r : ρ) (n : Nat) (h : R s t) : SameMove R (.answer r s n) (.answer r t n)
  | breakDown (e : ε) : SameMove R (.breakDown e) (.breakDown e)

theorem drain_of_sameMove {R : σ → σ → Prop}
    (hmoves : ∀ s t x, R s t → SameMove R (M.move s x) (M.move t x)) (s : σ) (x : List α) {t : σ} (h : R s t) :
    (M.drain s x).1 = (M.drain t x).1 := by
  induction s, x using M.induct generalizing t with
  | h s x hgoOn hanswer =>
    have hsame := hmoves s t x h
    rw [drain_eq, drain_eq t x]
    generalize hs : M.move s x = ms at hsame
    generalize M.move t x = mt at hsame
    cases hsame with
    | wait => rfl
    | breakDown e => rfl
    | goOn n hR => exact hgoOn _ n hs hR
    | answer r n hR => exact congrArg (r :: ·) (hanswer r _ n hs hR)

end Machine

end Reader
