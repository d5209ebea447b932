import Dalaran.Base.Scan

/-
  Searching for the best of some values, with an early exit.

  `Finds P Q r` says that the result `r` of a search is one of the values with the
  property `Q`, and as good as all with the property `P`. Two searches are put
  together by taking the better of their results (`Finds.pick`). One that goes
  through keys from the best one on may stop at a key that is not better than what
  it has (`scan_finds`).
-/

namespace Best

open List

variable {α β κ : Type} {le : κ → κ → Prop} {P Q P' Q' : κ → Prop} {a b : Option κ}

def pick (le : κ → κ → Prop) [DecidableRel le] : Option κ → Option κ → Option κ
  | some a, some b => some (if le a b then a else b)
  | a, b => a.or b

/-- A result that has one property, and is as good as all values with the other. -/
def Finds (le : κ → κ → Prop) (P Q : κ → Prop) : Option κ → Prop
  | none => ∀ x, ¬P x
  | some m => Q m ∧ ∀ x, P x → le m x

def pickAll (le : κ → κ → Prop) [DecidableRel le] (best : Option κ) (found : List (Option κ)) : Option κ :=
  found.foldl (pick le) best

/-- Go through the keys until one is not better than the best that has been found. -/
def scan (le : κ → κ → Prop) [DecidableRel le] (found : κ → List (Option κ)) : Option κ → List κ → Option κ
  | best, [] => best
  | best, key :: keys =>
    if best.any (fun m => decide (le m key)) then best
    else scan le found (pickAll le best (found key)) keys

/-! ## Results -/

theorem Finds.imp (h : Finds le P Q a) (hP : ∀ x, P' x → P x) (hQ : ∀ x, Q x → Q' x) : Finds le P' Q' a := by
  cases a with
  | none => exact fun x hx => h x (hP x hx)
  | some m => exact ⟨hQ m h.1, fun x hx => h.2 x (hP x hx)⟩

theorem Finds.of_dominated [IsTrans κ le] (h : Finds le P Q a) (hP : ∀ y, P' y → ∃ x, P x ∧ le x y)
    (hQ : ∀ x, Q x → Q' x) : Finds le P' Q' a := by
  cases a with
  | none =>
    intro y hy
    obtain ⟨x, hx, -⟩ := hP y hy
    exact h x hx
  | some m =>
    refine ⟨hQ m h.1, fun y hy => ?_⟩
    obtain ⟨x, hx, hxy⟩ := hP y hy
    exact trans_of le (h.2 x hx) hxy

theorem Finds.eq_some_iff (h : Finds le P P a) (hanti : ∀ x y, le x y → le y x → x = y) {m : κ} :
    a = some m ↔ P m ∧ ∀ x, P x → le m x := by
  cases a with
  | none =>
    constructor
    · intro hm
      cases hm
    · intro hm
      exact absurd hm.1 (h m)
  | some n =>
    constructor
    · intro hm
      obtain rfl := Option.some.inj hm
      exact h
    · intro hm
      exact congrArg some (hanti n m (h.2 m hm.1) (hm.2 n h.1))

theorem Finds.eq_none_iff (h : Finds le P P a) : a = none ↔ ∀ x, ¬P x := by
  cases a with
  | none => exact ⟨fun _ => h, fun _ => rfl⟩
  | some n =>
    constructor
    · intro hn
      cases hn
    · intro hn
      exact absurd h.1 (hn n)

theorem finds_self [Std.Total le] (b : Option κ) : Finds le (fun x => some x = b) (fun x => some x = b) b := by
  cases b with
  | none =>
    intro x hx
    cases hx
  | some m =>
    refine ⟨rfl, fun x hx => ?_⟩
    obtain rfl := Option.some.inj hx
    exact (total_of le x x).elim id id

theorem Finds.map {le' : β → β → Prop} {P' Q' : β → Prop} {f : κ → β} (h : Finds le P Q a)
    (hP : ∀ y, P' y → ∃ x, P x ∧ f x = y) (hQ : ∀ x, Q x → Q' (f x))
    (hle : ∀ x y, Q x → P y → le x y → le' (f x) (f y)) : Finds le' P' Q' (a.map f) := by
  cases a with
  | none =>
    intro y hy
    obtain ⟨x, hx, -⟩ := hP y hy
    exact h x hx
  | some m =>
    refine ⟨hQ m h.1, fun y hy => ?_⟩
    obtain ⟨x, hx, rfl⟩ := hP y hy
    exact hle m x h.1 hx (h.2 x hx)

theorem foldl_finds {f : Option κ → α → Option κ} {R S : α → κ → Prop} {l : List α}
    (hf : ∀ x ∈ l, ∀ P Q r, Finds le P Q r → Finds le (fun k => P k ∨ R x k) (fun k => Q k ∨ S x k) (f r x))
    (h : Finds le P Q a) :
    Finds le (fun k => P k ∨ ∃ x ∈ l, R x k) (fun k => Q k ∨ ∃ x ∈ l, S x k) (l.foldl f a) := by
  induction l generalizing P Q a with
  | nil =>
    apply h.imp
    · intro k hk
      simpa using hk
    · intro k hk
      exact .inl hk
  | cons x l ih =>
    have hrest := ih (fun y hy => hf y (mem_cons_of_mem x hy)) (hf x mem_cons_self P Q a h)
    apply hrest.imp
    · intro k hk
      simpa only [mem_cons, exists_eq_or_imp, or_assoc] using hk
    · intro k hk
      simpa only [mem_cons, exists_eq_or_imp, or_assoc] using hk

variable [DecidableRel le] [Std.Total le] [IsTrans κ le]

theorem Finds.pick (ha : Finds le P Q a) (hb : Finds le P' Q' b) :
    Finds le (fun x => P x ∨ P' x) (fun x => Q x ∨ Q' x) (pick le a b) := by
  cases a with
  | none =>
    apply hb.imp
    · intro x hx
      exact hx.resolve_left (ha x)
    · intro x hx
      exact .inr hx
  | some m =>
    cases b with
    | none =>
      apply ha.imp
      · intro x hx
        exact hx.resolve_right (hb x)
      · intro x hx
        exact .inl hx
    | some n =>
      by_cases hmn : le m n
      · have hpick : Best.pick le (some m) (some n) = some m := congrArg some (if_pos hmn)
        rw [hpick]
        refine ⟨.inl ha.1, fun x hx => ?_⟩
        rcases hx with hx | hx
        · exact ha.2 x hx
        · exact trans_of le hmn (hb.2 x hx)
      · have hpick : Best.pick le (some m) (some n) = some n := congrArg some (if_neg hmn)
        have hnm : le n m := (total_of le m n).resolve_left hmn
        rw [hpick]
        refine ⟨.inr hb.1, fun x hx => ?_⟩
        rcases hx with hx | hx
        · exact trans_of le hnm (ha.2 x hx)
        · exact hb.2 x hx

theorem pickAll_finds (found : List (Option κ)) (h : Finds le P Q a) :
    Finds le (fun x => P x ∨ some x ∈ found) (fun x => Q x ∨ some x ∈ found) (pickAll le a found) := by
  have hall := foldl_finds (fun b _ P Q r hr => hr.pick (finds_self b)) (l := found) h
  apply hall.imp
  · intro x hx
    simpa using hx
  · intro x hx
    simpa using hx

theorem scan_finds {found : κ → List (Option κ)} {keys : List κ} (hsorted : keys.Pairwise le) (h : Finds le P Q a) :
    Finds le (fun x => P x ∨ ∃ key ∈ keys, some x ∈ found key ∧ le key x)
      (fun x => Q x ∨ ∃ key ∈ keys, some x ∈ found key) (scan le found a keys) := by
  induction keys generalizing P Q a with
  | nil =>
    apply h.imp
    · intro x hx
      simpa using hx
    · intro x hx
      exact .inl hx
  | cons key keys ih =>
    obtain ⟨hkey, hkeys⟩ := pairwise_cons.mp hsorted
    unfold scan
    by_cases hstop : ∃ m, a = some m ∧ le m key
    · -- what is skipped is no better than its key, and that is no better than what there is
      obtain ⟨m, rfl, hm⟩ := hstop
      rw [if_pos (by simpa using hm)]
      refine ⟨.inl h.1, fun y hy => ?_⟩
      rcases hy with hy | ⟨key', hkey', -, hle⟩
      · exact h.2 y hy
      · rcases mem_cons.mp hkey' with rfl | hkey'
        · exact trans_of le hm hle
        · exact trans_of le hm (trans_of le (hkey key' hkey') hle)
    · have hgoes : ¬(a.any fun m => decide (le m key)) = true := by
        cases a with
        | none => simp
        | some m => simpa using hstop
      rw [if_neg hgoes]
      apply (ih hkeys (pickAll_finds (found key) h)).imp
      · intro x hx
        rcases hx with hx | ⟨key', hkey', hfound, hle⟩
        · exact .inl (.inl hx)
        · rcases mem_cons.mp hkey' with rfl | hkey'
          · exact .inl (.inr hfound)
          · exact .inr ⟨key', hkey', hfound, hle⟩
      · intro x hx
        simpa only [mem_cons, exists_eq_or_imp, or_assoc] using hx

/-! ## Sequences -/

section Sequences

variable {α : Type} [LinearOrder α] {l : List α} {p : α → Bool}

theorem next_finds (hl : l.Pairwise (· ≤ ·)) (hp : ∀ x y, x ≤ y → p y = true → p x = true) :
    Finds (· ≤ ·) (fun x => x ∈ l ∧ p x = false) (fun x => x ∈ l ∧ p x = false)
      l[(l.takeWhile p).length]? := by
  have hside : ∀ {i : Nat} {x : α}, l[i]? = some x → (i < (l.takeWhile p).length ↔ p x = true) :=
    fun hx => Seq.lt_length_takeWhile_iff (hl.imp fun {x y} hxy => hp x y hxy) hx
  generalize (l.takeWhile p).length = n at hside ⊢
  have hbehind : ∀ x, x ∈ l ∧ p x = false → ∃ i, n ≤ i ∧ l[i]? = some x := by
    intro x hx
    obtain ⟨i, hi⟩ := mem_iff_getElem?.mp hx.1
    refine ⟨i, Nat.le_of_not_lt fun hlt => ?_, hi⟩
    rw [(hside hi).mp hlt] at hx
    cases hx.2
  cases hn : l[n]? with
  | none =>
    intro x hx
    obtain ⟨i, hle, hi⟩ := hbehind x hx
    have hlt := (List.getElem?_eq_some_iff.mp hi).1
    have hge := List.getElem?_eq_none_iff.mp hn
    omega
  | some m =>
    refine ⟨⟨mem_of_getElem? hn, Bool.eq_false_iff.mpr fun h => Nat.lt_irrefl n ((hside hn).mpr h)⟩, ?_⟩
    intro x hx
    obtain ⟨i, hle, hi⟩ := hbehind x hx
    obtain ⟨hi', rfl⟩ := List.getElem?_eq_some_iff.mp hi
    obtain ⟨hn', rfl⟩ := List.getElem?_eq_some_iff.mp hn
    rcases Nat.lt_or_ge n i with hlt | hge
    · exact pairwise_iff_getElem.mp hl n i hn' hi' hlt
    · obtain rfl : n = i := Nat.le_antisymm hle hge
      exact le_rfl

theorem prev_finds (hl : l.Pairwise (· ≤ ·)) (hp : ∀ x y, x ≤ y → p y = true → p x = true) :
    Finds (· ≥ ·) (fun x => x ∈ l ∧ p x = true) (fun x => x ∈ l ∧ p x = true)
      (if 0 < (l.takeWhile p).length then l[(l.takeWhile p).length - 1]? else none) := by
  have hlength : (l.takeWhile p).length ≤ l.length := (takeWhile_sublist p).length_le
  have hside : ∀ {i : Nat} {x : α}, l[i]? = some x → (i < (l.takeWhile p).length ↔ p x = true) :=
    fun hx => Seq.lt_length_takeWhile_iff (hl.imp fun {x y} hxy => hp x y hxy) hx
  generalize (l.takeWhile p).length = n at hside hlength ⊢
  by_cases hpos : 0 < n
  · have hlt : n - 1 < l.length := by omega
    have hlast := List.getElem?_eq_getElem hlt
    rw [if_pos hpos, hlast]
    refine ⟨⟨getElem_mem hlt, (hside hlast).mp (by omega)⟩, fun x hx => ?_⟩
    obtain ⟨i, hi⟩ := mem_iff_getElem?.mp hx.1
    have hin := (hside hi).mpr hx.2
    obtain ⟨hi', rfl⟩ := List.getElem?_eq_some_iff.mp hi
    rcases Nat.lt_or_ge i (n - 1) with hless | hge
    · exact pairwise_iff_getElem.mp hl i (n - 1) hi' hlt hless
    · obtain rfl : i = n - 1 := by omega
      exact le_rfl
  · rw [if_neg hpos]
    intro x hx
    obtain ⟨i, hi⟩ := mem_iff_getElem?.mp hx.1
    have hin := (hside hi).mpr hx.2
    omega

theorem min?_finds (l : List α) (p : α → Bool) :
    Finds (· ≤ ·) (fun x => x ∈ l ∧ p x = true) (fun x => x ∈ l ∧ p x = true) (l.filter p).min? := by
  cases hm : (l.filter p).min? with
  | none =>
    intro x hx
    have hmem := mem_filter.mpr hx
    rw [List.min?_eq_none_iff.mp hm] at hmem
    cases hmem
  | some m =>
    obtain ⟨hmem, hle⟩ := List.min?_eq_some_iff.mp hm
    exact ⟨mem_filter.mp hmem, fun x hx => hle x (mem_filter.mpr hx)⟩

theorem max?_finds (l : List α) (p : α → Bool) :
    Finds (· ≥ ·) (fun x => x ∈ l ∧ p x = true) (fun x => x ∈ l ∧ p x = true) (l.filter p).max? := by
  cases hm : (l.filter p).max? with
  | none =>
    intro x hx
    have hmem := mem_filter.mpr hx
    rw [List.max?_eq_none_iff.mp hm] at hmem
    cases hmem
  | some m =>
    obtain ⟨hmem, hle⟩ := List.max?_eq_some_iff.mp hm
    exact ⟨mem_filter.mp hmem, fun x hx => hle x (mem_filter.mpr hx)⟩

end Sequences

end Best
