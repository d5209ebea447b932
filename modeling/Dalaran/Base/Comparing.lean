import Mathlib.Data.List.Pairwise
import Mathlib.Data.List.Perm.Basic
import Mathlib.Data.Prod.Lex
import Mathlib.Order.Compare
import Mathlib.Order.Std
import Mathlib.Order.WithBot

/-
  Sorting by a comparison that can fail.

  A sort that is given a comparison asks it about pairs and goes on with the answer:
  it is a decision tree (`Comparing`). A stable sort is one that ends with the stable
  order for every total order on what it sorts, and asks about pairs of distinct
  places only; which pairs is its own affair.

  The comparison by several columns, one after the other, fails at a column that is
  too short for one of two rows. If it fails for some pair of rows, every stable
  sort fails: it cannot tell two completions of the columns apart without asking
  about a value that is missing (`run_lexCompare_iff`).
-/

inductive Comparing (α β : Type) where
  | done (result : β)
  | ask (x y : α) (next : Ordering → Comparing α β)

namespace Comparing

variable {α β γ : Type}

def run (cmp : α → α → Option Ordering) : Comparing α β → Option β
  | .done result => some result
  | .ask x y next => (cmp x y).bind fun o => (next o).run cmp

def bind : Comparing α β → (β → Comparing α γ) → Comparing α γ
  | .done result, f => f result
  | .ask x y next, f => .ask x y fun o => (next o).bind f

/-- Whatever the answers are, it asks about pairs with one property and ends with a result with another. -/
def Meets (p : α → α → Prop) (q : β → Prop) : Comparing α β → Prop
  | .done result => q result
  | .ask x y next => p x y ∧ ∀ o, (next o).Meets p q

variable {cmp cmp' : α → α → Option Ordering} {p : α → α → Prop} {q q' : β → Prop}

theorem run_bind (t : Comparing α β) (f : β → Comparing α γ) :
    (t.bind f).run cmp = (t.run cmp).bind fun result => (f result).run cmp := by
  induction t with
  | done result => rfl
  | ask x y next ih =>
    rw [bind, run, run, Option.bind_assoc]
    congr 1
    funext o
    exact ih o

variable {t : Comparing α β}

theorem run_mono (h : ∀ x y o, cmp x y = some o → cmp' x y = some o) {result : β}
    (hrun : t.run cmp = some result) : t.run cmp' = some result := by
  induction t with
  | done result' => exact hrun
  | ask x y next ih =>
    obtain ⟨o, ho, hrest⟩ := Option.bind_eq_some_iff.mp hrun
    rw [run, h x y o ho, Option.bind_some]
    exact ih o hrest

theorem run_isSome (h : t.Meets p q) (hp : ∀ x y, p x y → (cmp x y).isSome) : (t.run cmp).isSome := by
  induction t with
  | done result => rfl
  | ask x y next ih =>
    obtain ⟨o, ho⟩ := Option.isSome_iff_exists.mp (hp x y h.1)
    rw [run, ho, Option.bind_some]
    exact ih o (h.2 o)

theorem Meets.bind {q' : γ → Prop} {f : β → Comparing α γ} (h : t.Meets p q)
    (hf : ∀ result, q result → (f result).Meets p q') : (t.bind f).Meets p q' := by
  induction t with
  | done result => exact hf result h
  | ask x y next ih => exact ⟨h.1, fun o => ih o (h.2 o)⟩

theorem Meets.mono {p' : α → α → Prop} (h : t.Meets p q) (hp : ∀ x y, p x y → p' x y)
    (hq : ∀ result, q result → q' result) : t.Meets p' q' := by
  induction t with
  | done result => exact hq result h
  | ask x y next ih => exact ⟨hp x y h.1, fun o => ih o (h.2 o)⟩

end Comparing

/-! ## Stable sorts -/

/-- One place is before another: it compares less, or equal and was before. -/
def StablyBefore (cmp : Nat → Nat → Ordering) (a b : Nat) : Prop := cmp a b = .lt ∨ cmp a b = .eq ∧ a < b

/-- A sort of the first places that is given a comparison of two places. -/
structure StableSort where
  sort : Nat → Comparing Nat (List Nat)
  asks : ∀ n, (sort n).Meets (fun x y => x < n ∧ y < n ∧ x ≠ y) fun _ => True
  sorts : ∀ (n : Nat) (cmp : Nat → Nat → Ordering) [Std.TransCmp cmp], ∃ order,
    (sort n).run (fun x y => some (cmp x y)) = some order ∧ order.Perm (List.range n) ∧ order.Pairwise (StablyBefore cmp)

namespace StableSort

variable {n a b : Nat}

theorem order_spec (s : StableSort) {cmp : Nat → Nat → Option Ordering} {total : Nat → Nat → Ordering}
    [Std.TransCmp total] (h : ∀ x y o, cmp x y = some o → total x y = o) {order : List Nat}
    (hrun : (s.sort n).run cmp = some order) : order.Perm (List.range n) ∧ order.Pairwise (StablyBefore total) := by
  obtain ⟨order', hrun', hperm, hpairs⟩ := s.sorts n total
  have hsame := Comparing.run_mono (fun x y o ho => congrArg some (h x y o ho)) hrun
  obtain rfl := Option.mem_unique hsame hrun'
  exact ⟨hperm, hpairs⟩

theorem run_eq_none (s : StableSort) {cmp : Nat → Nat → Option Ordering} {first second : Nat → Nat → Ordering}
    [Std.TransCmp first] [Std.TransCmp second] (hfirst : ∀ x y o, cmp x y = some o → first x y = o)
    (hsecond : ∀ x y o, cmp x y = some o → second x y = o) (ha : a < n) (hb : b < n)
    (hlt : first a b = .lt) (hgt : second b a = .lt) : (s.sort n).run cmp = none := by
  have hswap : ∀ {total : Nat → Nat → Ordering} [Std.TransCmp total] {x y : Nat}, total x y = .lt →
      ¬StablyBefore total y x := by
    intro total _ x y hxy hbefore
    have hyx : total y x = .gt := Std.OrientedCmp.gt_of_lt hxy
    rw [StablyBefore, hyx] at hbefore
    simp at hbefore
  have hne : a ≠ b := by
    intro heq
    rw [heq, @Std.ReflCmp.compare_self _ first _ b] at hlt
    cases hlt
  cases hrun : (s.sort n).run cmp with
  | none => rfl
  | some order =>
    obtain ⟨hperm, hbefore⟩ := s.order_spec hfirst hrun
    obtain ⟨-, hbefore'⟩ := s.order_spec hsecond hrun
    have hmem : ∀ i, i < n → i ∈ order := fun i hi => hperm.mem_iff.mpr (List.mem_range.mpr hi)
    -- both orders say the same of two places of the list
    have hboth : order.Pairwise fun x y => (StablyBefore first x y ∧ StablyBefore second x y) ∨
        StablyBefore first y x ∧ StablyBefore second y x := (hbefore.and hbefore').imp .inl
    have hsymm : Std.Symm fun x y => (StablyBefore first x y ∧ StablyBefore second x y) ∨
        StablyBefore first y x ∧ StablyBefore second y x := ⟨fun _ _ h => h.symm⟩
    obtain ⟨-, h⟩ | ⟨h, -⟩ := hboth.forall (hmem a ha) (hmem b hb) hne
    · exact absurd h (hswap hgt)
    · exact absurd h (hswap hlt)

end StableSort

/-! ## Comparing by columns -/

/-- Two rows compared by one column after the other. A column that is too short for one of them fails. -/
def lexCompare {κ : Type} [Ord κ] : List (List κ) → Nat → Nat → Option Ordering
  | [], _, _ => some .eq
  | column :: columns, a, b =>
    (column[a]?).bind fun x => (column[b]?).bind fun y =>
      match compare x y with
      | .eq => lexCompare columns a b
      | o => some o

theorem lexCompare_swap {κ : Type} [LinearOrder κ] {columns : List (List κ)} {a b : Nat} {o : Ordering}
    (h : lexCompare columns a b = some o) : lexCompare columns b a = some o.swap := by
  induction columns with
  | nil =>
    cases h
    rfl
  | cons column columns ih =>
    obtain ⟨x, hx, h⟩ := Option.bind_eq_some_iff.mp h
    obtain ⟨y, hy, h⟩ := Option.bind_eq_some_iff.mp h
    rw [lexCompare, hy, Option.bind_some, hx, Option.bind_some, Std.OrientedOrd.eq_swap]
    cases hcompare : compare x y with
    | lt | gt =>
      rw [hcompare] at h
      rw [← Option.some.inj h]
      rfl
    | eq =>
      rw [hcompare] at h
      exact ih h

namespace StableSort

variable {κ : Type} [LinearOrder κ] {columns : List (List κ)} {n a b : Nat}

def filled (default : Nat → WithBot (WithTop κ)) (column : List κ) (i : Nat) : WithBot (WithTop κ) :=
  (column[i]?).elim (default i) fun x => ((x : WithTop κ) : WithBot (WithTop κ))

def totalCompare (default : Nat → WithBot (WithTop κ)) : List (List κ) → Nat → Nat → Ordering
  | [] => fun _ _ => .eq
  | column :: columns => compareLex (compareOn (filled default column)) (totalCompare default columns)

instance totalCompare_transCmp (default : Nat → WithBot (WithTop κ)) (columns : List (List κ)) :
    Std.TransCmp (totalCompare default columns) := by
  induction columns with
  | nil =>
    refine @Std.TransCmp.mk _ _ ⟨?_⟩ ?_
    · intro a b
      rfl
    · intro a b c _ _
      rfl
  | cons column columns ih =>
    unfold totalCompare
    infer_instance

theorem compare_coe (x y : κ) :
    compare ((x : WithTop κ) : WithBot (WithTop κ)) ((y : WithTop κ) : WithBot (WithTop κ)) = compare x y := by
  cases h : compare x y with
  | lt =>
    rw [compare_lt_iff_lt] at h ⊢
    exact WithBot.coe_lt_coe.mpr (WithTop.coe_lt_coe.mpr h)
  | eq => rw [compare_eq_iff_eq.mp h, compare_eq_iff_eq]
  | gt =>
    rw [compare_gt_iff_gt] at h ⊢
    exact WithBot.coe_lt_coe.mpr (WithTop.coe_lt_coe.mpr h)

theorem totalCompare_of_lexCompare (default : Nat → WithBot (WithTop κ)) {o : Ordering}
    (h : lexCompare columns a b = some o) : totalCompare default columns a b = o := by
  induction columns with
  | nil => exact Option.some.inj h
  | cons column columns ih =>
    obtain ⟨x, hx, h⟩ := Option.bind_eq_some_iff.mp h
    obtain ⟨y, hy, h⟩ := Option.bind_eq_some_iff.mp h
    have hfilled : compareOn (filled default column) a b = compare x y := by
      rw [compareOn, filled, filled, hx, hy]
      exact compare_coe x y
    rw [totalCompare, compareLex, hfilled]
    cases hcompare : compare x y with
    | lt | gt =>
      rw [hcompare] at h
      exact Option.some.inj h
    | eq =>
      rw [hcompare] at h
      exact ih h

variable {column : List κ}

omit [LinearOrder κ] in
theorem filled_of_some (default : Nat → WithBot (WithTop κ)) {x : κ} (h : column[a]? = some x) :
    filled default column a = ((x : WithTop κ) : WithBot (WithTop κ)) := by
  rw [filled, h]
  rfl

omit [LinearOrder κ] in
theorem filled_of_none (default : Nat → WithBot (WithTop κ)) (h : column[a]? = none) :
    filled default column a = default a := by
  rw [filled, h]
  rfl

theorem totalCompare_of_lt {default : Nat → WithBot (WithTop κ)}
    (h : filled default column a < filled default column b) : totalCompare default (column :: columns) a b = .lt := by
  have hcompare : compareOn (filled default column) a b = .lt := compare_lt_iff_lt.mpr h
  rw [totalCompare, compareLex, hcompare]
  rfl

theorem totalCompare_of_eq {default : Nat → WithBot (WithTop κ)}
    (h : filled default column a = filled default column b) :
    totalCompare default (column :: columns) a b = totalCompare default columns a b := by
  have hcompare : compareOn (filled default column) a b = .eq := compare_eq_iff_eq.mpr h
  rw [totalCompare, compareLex, hcompare]
  rfl

/-- With one filling the first row compares less, with the other one greater. -/
def Undecided (columns : List (List κ)) (missing other : Nat) : Prop :=
  (∀ default : Nat → WithBot (WithTop κ), default missing = ⊥ → default other = ⊤ →
    totalCompare default columns missing other = .lt) ∧
  ∀ default : Nat → WithBot (WithTop κ), default missing = ⊤ → default other = ⊥ →
    totalCompare default columns other missing = .lt

theorem undecided_of_missing {missing : Nat} (other : Nat) (h : column[missing]? = none) :
    Undecided (column :: columns) missing other := by
  refine ⟨?_, ?_⟩
  · intro default hbot htop
    apply totalCompare_of_lt
    rw [filled_of_none default h, hbot]
    cases hother : column[other]? with
    | none =>
      rw [filled_of_none default hother, htop]
      exact bot_lt_top
    | some y =>
      rw [filled_of_some default hother]
      exact WithBot.bot_lt_coe _
  · intro default htop hbot
    apply totalCompare_of_lt
    rw [filled_of_none default h, htop]
    cases hother : column[other]? with
    | none =>
      rw [filled_of_none default hother, hbot]
      exact bot_lt_top
    | some y =>
      rw [filled_of_some default hother]
      exact WithBot.coe_lt_coe.mpr (WithTop.coe_lt_top y)

theorem undecided_of_lexCompare (h : lexCompare columns a b = none) :
    Undecided columns a b ∨ Undecided columns b a := by
  induction columns with
  | nil => cases h
  | cons column columns ih =>
    cases hx : column[a]? with
    | none => exact .inl (undecided_of_missing b hx)
    | some x =>
      cases hy : column[b]? with
      | none => exact .inr (undecided_of_missing a hy)
      | some y =>
        rw [lexCompare, hx, Option.bind_some, hy, Option.bind_some] at h
        -- both have a value, so they are the same and the rest fails
        have heq : x = y := by
          cases hcompare : compare x y with
          | lt | gt =>
            rw [hcompare] at h
            cases h
          | eq => exact compare_eq_iff_eq.mp hcompare
        have hrest : lexCompare columns a b = none := by
          rw [heq, compare_eq_iff_eq.mpr rfl] at h
          exact h
        have hsame : ∀ default : Nat → WithBot (WithTop κ), filled default column a = filled default column b := by
          intro default
          rw [filled_of_some default hx, filled_of_some default hy, heq]
        obtain ⟨hfirst, hsecond⟩ | ⟨hfirst, hsecond⟩ := ih hrest
        · refine .inl ⟨?_, ?_⟩
          · intro default hbot htop
            rw [totalCompare_of_eq (hsame default)]
            exact hfirst default hbot htop
          · intro default htop hbot
            rw [totalCompare_of_eq (hsame default).symm]
            exact hsecond default htop hbot
        · refine .inr ⟨?_, ?_⟩
          · intro default hbot htop
            rw [totalCompare_of_eq (hsame default).symm]
            exact hfirst default hbot htop
          · intro default htop hbot
            rw [totalCompare_of_eq (hsame default)]
            exact hsecond default htop hbot

theorem run_eq_none_of_undecided (s : StableSort) (ha : a < n) (hb : b < n) (hne : a ≠ b)
    (h : Undecided columns a b) : (s.sort n).run (lexCompare columns) = none := by
  apply @run_eq_none n a b s (lexCompare columns) (totalCompare (fun i => if i = a then ⊥ else ⊤) columns)
    (totalCompare (fun i => if i = a then ⊤ else ⊥) columns) _ _ (fun _ _ _ => totalCompare_of_lexCompare _)
    (fun _ _ _ => totalCompare_of_lexCompare _) ha hb
  · exact h.1 _ (if_pos rfl) (if_neg hne.symm)
  · exact h.2 _ (if_pos rfl) (if_neg hne.symm)

theorem run_lexCompare_iff (s : StableSort) (columns : List (List κ)) (n : Nat) :
    ((s.sort n).run (lexCompare columns)).isSome ↔ ∀ a < n, ∀ b < n, a ≠ b → (lexCompare columns a b).isSome := by
  constructor
  · intro h a ha b hb hne
    by_contra hfails
    rw [Option.not_isSome_iff_eq_none] at hfails
    obtain hundecided | hundecided := undecided_of_lexCompare hfails
    · rw [run_eq_none_of_undecided s ha hb hne hundecided] at h
      cases h
    · rw [run_eq_none_of_undecided s hb ha hne.symm hundecided] at h
      cases h
  · intro h
    apply Comparing.run_isSome (s.asks n)
    intro a b hab
    exact h a hab.1 b hab.2.1 hab.2.2

theorem run_lexCompare_spec (s : StableSort) {order : List Nat}
    (hrun : (s.sort n).run (lexCompare columns) = some order) : order.Perm (List.range n) ∧
      order.Pairwise fun a b => lexCompare columns a b = some .lt ∨ lexCompare columns a b = some .eq ∧ a < b := by
  obtain ⟨hperm, hpairs⟩ := s.order_spec
    (fun _ _ _ => totalCompare_of_lexCompare fun _ => (⊥ : WithBot (WithTop κ))) hrun
  refine ⟨hperm, ?_⟩
  have hcompared := (run_lexCompare_iff s columns n).mp (Option.isSome_of_eq_some hrun)
  have hnodup : order.Nodup := hperm.nodup_iff.mpr List.nodup_range
  apply (hpairs.and hnodup).imp_of_mem
  intro a b ha hb hab
  obtain ⟨hbefore, hne⟩ := hab
  obtain ⟨o, ho⟩ := Option.isSome_iff_exists.mp
    (hcompared a (List.mem_range.mp (hperm.mem_iff.mp ha)) b (List.mem_range.mp (hperm.mem_iff.mp hb)) hne)
  have htotal := totalCompare_of_lexCompare (fun _ => (⊥ : WithBot (WithTop κ))) ho
  rw [StablyBefore, htotal] at hbefore
  rw [ho, Option.some.injEq, Option.some.injEq]
  exact hbefore

/-! ## Sorting by insertion -/

/-- Insert a place before the first one that it does not compare greater than. -/
def insert (a : Nat) : List Nat → Comparing Nat (List Nat)
  | [] => .done [a]
  | b :: l => .ask a b fun o => if o = .gt then (insert a l).bind fun r => .done (b :: r) else .done (a :: b :: l)

def insertAll : List Nat → Comparing Nat (List Nat)
  | [] => .done []
  | a :: l => (insertAll l).bind (insert a)

theorem insert_meets {places : List Nat} : ∀ {l : List Nat}, (∀ b ∈ l, a ≠ b) → (∀ b ∈ a :: l, b ∈ places) →
    (insert a l).Meets (fun x y => x ∈ places ∧ y ∈ places ∧ x ≠ y) fun r => r.Perm (a :: l)
  | [], _, _ => .refl _
  | b :: l, hne, hplaces => by
    refine ⟨⟨hplaces a List.mem_cons_self, hplaces b (List.mem_cons_of_mem a List.mem_cons_self),
      hne b List.mem_cons_self⟩, ?_⟩
    intro o
    dsimp only
    split
    · have ih := @insert_meets places l (fun b' hb' => hne b' (List.mem_cons_of_mem b hb')) (by
        intro b' hb'
        obtain rfl | hb' := List.mem_cons.mp hb'
        · exact hplaces b' List.mem_cons_self
        · exact hplaces b' (List.mem_cons_of_mem a (List.mem_cons_of_mem b hb')))
      apply ih.bind
      intro r hr
      exact (hr.cons b).trans (.swap a b l)
    · exact .refl _

theorem insertAll_meets {places : List Nat} : ∀ {l : List Nat}, l.Nodup → (∀ b ∈ l, b ∈ places) →
    (insertAll l).Meets (fun x y => x ∈ places ∧ y ∈ places ∧ x ≠ y) fun r => r.Perm l
  | [], _, _ => .refl _
  | a :: l, hnodup, hplaces => by
    obtain ⟨hnotMem, hnodup⟩ := List.nodup_cons.mp hnodup
    have ih := insertAll_meets hnodup fun b hb => hplaces b (List.mem_cons_of_mem a hb)
    apply ih.bind
    intro r hr
    have hmeets : (insert a r).Meets (fun x y => x ∈ places ∧ y ∈ places ∧ x ≠ y) fun r' => r'.Perm (a :: r) := by
      apply insert_meets
      · intro b hb heq
        exact hnotMem (hr.mem_iff.mp (heq ▸ hb))
      · intro b hb
        exact hplaces b ((hr.cons a).mem_iff.mp hb)
    exact hmeets.mono (fun _ _ h => h) fun r' hr' => hr'.trans (hr.cons a)

section Sorts

variable {cmp : Nat → Nat → Ordering} [Std.TransCmp cmp]

theorem stablyBefore_trans {x y z : Nat} (hxy : StablyBefore cmp x y) (hyz : StablyBefore cmp y z) :
    StablyBefore cmp x z := by
  obtain hxy | ⟨hxy, hlt⟩ := hxy
  · obtain hyz | ⟨hyz, -⟩ := hyz
    · exact .inl (Std.TransCmp.lt_trans hxy hyz)
    · exact .inl (Std.TransCmp.lt_of_lt_of_eq hxy hyz)
  · obtain hyz | ⟨hyz, hlt'⟩ := hyz
    · exact .inl (Std.TransCmp.lt_of_eq_of_lt hxy hyz)
    · exact .inr ⟨Std.TransCmp.eq_trans hxy hyz, hlt.trans hlt'⟩

theorem insert_sorts : ∀ {l : List Nat}, l.Pairwise (StablyBefore cmp) → (∀ b ∈ l, a < b) →
    ∃ r, (insert a l).run (fun x y => some (cmp x y)) = some r ∧ r.Perm (a :: l) ∧ r.Pairwise (StablyBefore cmp)
  | [], _, _ => ⟨[a], rfl, .refl _, List.pairwise_singleton _ a⟩
  | b :: l, h, hlt => by
    obtain ⟨hb, hl⟩ := List.pairwise_cons.mp h
    rw [insert, Comparing.run, Option.bind_some]
    by_cases hgt : cmp a b = .gt
    · obtain ⟨r, hrun, hperm, hpairs⟩ := insert_sorts hl fun b' hb' => hlt b' (List.mem_cons_of_mem b hb')
      refine ⟨b :: r, ?_, (hperm.cons b).trans (.swap a b l), ?_⟩
      · rw [if_pos hgt, Comparing.run_bind, hrun]
        rfl
      · apply List.pairwise_cons.mpr
        refine ⟨?_, hpairs⟩
        intro b' hb'
        obtain rfl | hb' := List.mem_cons.mp (hperm.mem_iff.mp hb')
        · exact .inl (Std.OrientedCmp.lt_of_gt hgt)
        · exact hb b' hb'
    · refine ⟨a :: b :: l, ?_, .refl _, ?_⟩
      · rw [if_neg hgt]
        rfl
      · have hab : StablyBefore cmp a b := by
          cases hcmp : cmp a b with
          | lt => exact .inl hcmp
          | eq => exact .inr ⟨hcmp, hlt b List.mem_cons_self⟩
          | gt => exact absurd hcmp hgt
        apply List.pairwise_cons.mpr
        refine ⟨?_, h⟩
        intro b' hb'
        obtain rfl | hb' := List.mem_cons.mp hb'
        · exact hab
        · exact stablyBefore_trans hab (hb b' hb')

theorem insertAll_sorts : ∀ {l : List Nat}, l.Pairwise (· < ·) →
    ∃ r, (insertAll l).run (fun x y => some (cmp x y)) = some r ∧ r.Perm l ∧ r.Pairwise (StablyBefore cmp)
  | [], _ => ⟨[], rfl, .refl _, .nil⟩
  | a :: l, h => by
    obtain ⟨ha, hl⟩ := List.pairwise_cons.mp h
    obtain ⟨r, hrun, hperm, hpairs⟩ := insertAll_sorts hl
    obtain ⟨r', hrun', hperm', hpairs'⟩ := @insert_sorts a cmp _ r hpairs fun b hb => ha b (hperm.mem_iff.mp hb)
    refine ⟨r', ?_, hperm'.trans (hperm.cons a), hpairs'⟩
    rw [insertAll, Comparing.run_bind, hrun]
    exact hrun'

end Sorts

def insertion : StableSort where
  sort n := insertAll (List.range n)
  asks n := (@insertAll_meets (List.range n) _ List.nodup_range fun _ h => h).mono
    (fun _ _ h => ⟨List.mem_range.mp h.1, List.mem_range.mp h.2.1, h.2.2⟩) fun _ _ => trivial
  sorts _ _ _ := insertAll_sorts List.pairwise_lt_range

end StableSort
