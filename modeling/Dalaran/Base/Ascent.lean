import Mathlib.Data.Finset.Card
import Mathlib.Logic.Relation
import Mathlib.Tactic.Common

/-
  Walking up a partial function, with what was walked before left out.

  A walk goes up and takes what it meets out of a set; so it ends at a top, at an
  element outside the set, or at one that it has met itself, which closes a cycle.
  It does so just where it is the first to come to it (`enters_of_mem`,
  `stop_of_enters`).
-/

namespace Ascent

open List Relation

variable {α : Type} (up : α → Option α)

def Above (a b : α) : Prop := up a = some b

/-- `b` is `a` or somewhere above it. -/
def Reaches : α → α → Prop := Relation.ReflTransGen (Above up)

def OnCycle (a : α) : Prop := Relation.TransGen (Above up) a a

/-- From `a` upwards, `p` is the first element on a cycle. -/
inductive Enters : α → α → Prop
  | here {a : α} (h : OnCycle up a) : Enters a a
  | above {a b p : α} (h : ¬ OnCycle up a) (hup : up a = some b) (hb : Enters b p) : Enters a p

/-- `p` is the first element of its cycle that one comes to from a sequence of elements. -/
def EntersFirst (starts : List α) (p : α) : Prop :=
  ∃ before a after, starts = before ++ a :: after ∧ Enters up a p ∧ ∀ b ∈ before, ¬ Reaches up b p

/-- A walk up from `next` through `rest`: what remains of it, the elements it met, and where it stopped. -/
inductive Walked [DecidableEq α] : Finset α → Option α → Finset α → List α → Option α → Prop
  | stop {rest : Finset α} {next : Option α} (h : ∀ a, next = some a → a ∉ rest) : Walked rest next rest [] next
  | go {rest left : Finset α} {a : α} {met : List α} {stop : Option α} (h : a ∈ rest)
      (hwalk : Walked (rest.erase a) (up a) left met stop) : Walked rest (some a) left (a :: met) stop

variable {up}

/-! ## Cycles -/

variable {a : α}

theorem Reaches.refl : Reaches up a a := Relation.ReflTransGen.refl

variable {b c : α}

theorem Reaches.trans (hab : Reaches up a b) (hbc : Reaches up b c) : Reaches up a c :=
  ReflTransGen.trans hab hbc

theorem reaches_of_up (h : up a = some b) : Reaches up a b := .single h

theorem eq_of_reaches_top (htop : up a = none) (h : Reaches up a b) : b = a := by
  rcases ReflTransGen.cases_head h with rfl | ⟨c, hc, -⟩
  · rfl
  · cases htop.symm.trans hc

theorem reaches_cases (hup : up a = some b) (h : Reaches up a c) : c = a ∨ Reaches up b c := by
  rcases ReflTransGen.cases_head h with rfl | ⟨d, hd, hdc⟩
  · exact .inl rfl
  · cases hup.symm.trans hd
    exact .inr hdc

theorem onCycle_iff : OnCycle up a ↔ ∃ b, up a = some b ∧ Reaches up b a :=
  TransGen.head'_iff

theorem OnCycle.reaches_back (ha : OnCycle up a) (h : Reaches up a b) : Reaches up b a := by
  induction h with
  | refl => exact .refl
  | tail _ hup ih =>
    rcases reaches_cases hup ih with rfl | hback
    · obtain ⟨d, hd, hback⟩ := onCycle_iff.mp ha
      cases hup.symm.trans hd
      exact hback
    · exact hback

theorem OnCycle.above (ha : OnCycle up a) (h : Reaches up a b) : OnCycle up b := by
  rcases ReflTransGen.cases_tail h with rfl | ⟨c, hac, hcb⟩
  · exact ha
  · exact TransGen.trans_right (ha.reaches_back h) (TransGen.tail' hac hcb)

variable {p : α}

theorem Enters.onCycle (h : Enters up a p) : OnCycle up p := by
  induction h with
  | here h => exact h
  | above _ _ _ ih => exact ih

variable {q : α}

theorem Enters.unique (hp : Enters up a p) (hq : Enters up a q) : p = q := by
  induction hp with
  | here hcycle =>
    cases hq with
    | here _ => rfl
    | above hnot _ _ => exact absurd hcycle hnot
  | above hnot hup _ ih =>
    cases hq with
    | here hcycle => exact absurd hcycle hnot
    | above _ hup' hb =>
      cases hup.symm.trans hup'
      exact ih hb

theorem entersFirst_append {starts : List α} :
    EntersFirst up (starts ++ [a]) p ↔
      EntersFirst up starts p ∨ Enters up a p ∧ ∀ b ∈ starts, ¬ Reaches up b p := by
  constructor
  · rintro ⟨before, b, after, heq, henters, hfirst⟩
    rcases eq_nil_or_concat after with rfl | ⟨after, c, rfl⟩
    · obtain ⟨rfl, hb⟩ := append_inj' heq rfl
      cases hb
      exact .inr ⟨henters, hfirst⟩
    · rw [concat_eq_append, ← cons_append, ← append_assoc] at heq
      exact .inl ⟨before, b, after, (append_inj' heq rfl).1, henters, hfirst⟩
  · rintro (⟨before, b, after, rfl, henters, hfirst⟩ | ⟨henters, hfirst⟩)
    · exact ⟨before, b, after ++ [a], by simp, henters, hfirst⟩
    · exact ⟨starts, a, [], rfl, henters, hfirst⟩

theorem Enters.reaches (h : Enters up a p) : Reaches up a p := by
  induction h with
  | here _ => exact .refl
  | above _ hup _ ih => exact .head hup ih

theorem EntersFirst.reached {starts : List α} (h : EntersFirst up starts p) : ∃ a ∈ starts, Reaches up a p := by
  obtain ⟨before, a, after, rfl, henters, -⟩ := h
  exact ⟨a, by simp, henters.reaches⟩

/-! ## Walks -/

namespace Walked

variable [DecidableEq α] {rest left : Finset α} {next stop : Option α} {met : List α}

theorem mem_rest (h : Walked up rest next left met stop) : ∀ a ∈ met, a ∈ rest := by
  induction h with
  | stop _ => simp
  | go ha _ ih =>
    intro b hb
    rcases mem_cons.mp hb with rfl | hb
    · exact ha
    · exact Finset.mem_of_mem_erase (ih b hb)

theorem nodup (h : Walked up rest next left met stop) : met.Nodup := by
  induction h with
  | stop _ => exact nodup_nil
  | go _ hwalk ih =>
    refine nodup_cons.mpr ⟨fun hmem => ?_, ih⟩
    exact Finset.notMem_erase _ _ (hwalk.mem_rest _ hmem)

theorem mem_left (h : Walked up rest next left met stop) (a : α) : a ∈ left ↔ a ∈ rest ∧ a ∉ met := by
  induction h with
  | stop _ => simp
  | go _ _ ih =>
    rw [ih, Finset.mem_erase, mem_cons]
    tauto

theorem stop_notMem (h : Walked up rest next left met stop) : ∀ p, stop = some p → p ∉ left := by
  induction h with
  | stop h => exact h
  | go _ _ ih => exact ih

theorem stop_cases (h : Walked up rest next left met stop) (hp : stop = some p) : p ∉ rest ∨ p ∈ met := by
  have hnot := h.stop_notMem p hp
  rw [h.mem_left] at hnot
  tauto

theorem head (h : Walked up rest next left met stop) (hnext : next = some a) (ha : a ∈ rest) :
    ∃ tail, met = a :: tail := by
  cases h with
  | stop h => exact absurd ha (h a hnext)
  | go _ _ =>
    cases hnext
    exact ⟨_, rfl⟩

theorem reaches_met (h : Walked up rest next left met stop) (hnext : next = some a) :
    ∀ b ∈ met, Reaches up a b := by
  induction h generalizing a with
  | stop _ => simp
  | @go _ _ a' _ _ _ hwalk ih =>
    cases hnext
    intro b hb
    rcases mem_cons.mp hb with rfl | hb
    · exact .refl
    · cases hup : up a' with
      | some c => exact .head hup (ih hup b hb)
      | none =>
        rw [hup] at hwalk
        cases hwalk
        cases hb

theorem mem_or_reaches (h : Walked up rest next left met stop) (hnext : next = some a)
    (hab : Reaches up a b) : b ∈ met ∨ ∃ p, stop = some p ∧ Reaches up p b := by
  induction h generalizing a with
  | stop _ => exact .inr ⟨a, hnext, hab⟩
  | @go _ _ a' _ _ _ _ ih =>
    cases hnext
    cases hup : up a' with
    | none =>
      cases eq_of_reaches_top hup hab
      exact .inl mem_cons_self
    | some c =>
      rcases reaches_cases hup hab with rfl | hcb
      · exact .inl mem_cons_self
      · exact (ih hup hcb).imp_left (mem_cons_of_mem _)

theorem up_last (h : Walked up rest next left met stop) : ∀ a, met.getLast? = some a → up a = stop := by
  induction h with
  | stop _ => simp
  | @go _ _ a met _ _ hwalk ih =>
    intro b hb
    cases met with
    | nil =>
      obtain rfl : a = b := by simpa using hb
      generalize up a = next at hwalk
      cases hwalk
      rfl
    | cons c met => exact ih b hb

theorem suffix (h : Walked up rest next left met stop) {before after : List α} (hmet : met = before ++ a :: after) :
    ∃ rest', rest' ⊆ rest ∧ Walked up rest' (some a) left (a :: after) stop := by
  induction h generalizing before with
  | stop _ => simp at hmet
  | go ha hwalk ih =>
    cases before with
    | nil =>
      cases hmet
      exact ⟨_, Finset.Subset.refl _, .go ha hwalk⟩
    | cons b before =>
      cases hmet
      obtain ⟨rest', hsub, hwalk⟩ := ih rfl
      exact ⟨rest', hsub.trans (Finset.erase_subset ..), hwalk⟩

theorem exists_up_stop (h : Walked up rest next left met stop) (hnext : next = some a) (hmet : met ≠ []) :
    ∃ l, Reaches up a l ∧ up l = stop := by
  induction h generalizing a with
  | stop _ => exact absurd rfl hmet
  | @go _ _ a' met' _ _ hwalk ih =>
    cases hnext
    by_cases hnil : met' = []
    · subst hnil
      refine ⟨a', .refl, ?_⟩
      generalize up a' = next at hwalk
      cases hwalk
      rfl
    · cases hup : up a' with
      | none =>
        rw [hup] at hwalk
        cases hwalk
        exact absurd rfl hnil
      | some b =>
        obtain ⟨l, hl, hstop⟩ := ih hup hnil
        exact ⟨l, .head hup hl, hstop⟩

theorem reaches_stop (h : Walked up rest next left met stop) (hnext : next = some a) (hstop : stop = some p) :
    Reaches up a p := by
  by_cases hmet : met = []
  · subst hmet
    cases h
    cases hnext.symm.trans hstop
    exact .refl
  · obtain ⟨l, hl, hup⟩ := h.exists_up_stop hnext hmet
    exact hl.trans (reaches_of_up (hup.trans hstop))

theorem up_mem (h : Walked up rest next left met stop) (hb : b ∈ met) (hup : up b = some c) :
    c ∈ met ∨ stop = some c := by
  induction h with
  | stop _ => cases hb
  | go _ hwalk ih =>
    rcases mem_cons.mp hb with rfl | hb
    · rw [hup] at hwalk
      cases hwalk with
      | stop _ => exact .inr rfl
      | go _ _ => exact .inl (mem_cons_of_mem _ mem_cons_self)
    · exact (ih hb).imp_left (mem_cons_of_mem _)

theorem mem_of_reaches (h : Walked up rest next left met stop) (hstop : stop = some p) (hp : p ∈ met) (hb : b ∈ met)
    (hbc : Reaches up b c) : c ∈ met := by
  induction hbc with
  | refl => exact hb
  | tail _ hup ih =>
    rcases h.up_mem ih hup with hmem | heq
    · exact hmem
    · cases hstop.symm.trans heq
      exact hp

theorem enters_of_mem (h : Walked up rest next left met stop) (hnext : next = some a) (hstop : stop = some p)
    (hp : p ∈ met) : Enters up a p := by
  induction h generalizing a with
  | stop _ => cases hp
  | @go _ _ a' met' _ ha hwalk ih =>
    cases hnext
    have hnodup := (Walked.go ha hwalk).nodup
    have hup : ∃ b, up a' = some b := by
      cases hup : up a' with
      | some b => exact ⟨b, rfl⟩
      | none =>
        rw [hup] at hwalk
        cases hwalk
        cases hstop
    obtain ⟨b, hup⟩ := hup
    have hbp := hwalk.reaches_stop hup hstop
    rcases mem_cons.mp hp with rfl | hp'
    · exact .here (onCycle_iff.mpr ⟨b, hup, hbp⟩)
    · -- an element of the cycle would be met again, from where the walk comes back to
      refine .above (fun hcycle => ?_) hup (ih hup hstop hp')
      have hback := hcycle.reaches_back (ReflTransGen.head hup hbp)
      exact (nodup_cons.mp hnodup).1 (hwalk.mem_of_reaches hstop hp' hp' hback)

theorem stop_of_enters (h : Walked up rest next left met stop) (hnext : next = some a) (henters : Enters up a p)
    (hfree : ∀ b, Reaches up a b → Reaches up b p → b ∈ rest) : stop = some p ∧ p ∈ met := by
  -- an element on the way at which the walk stops was met, so it is the one at which the cycle is entered
  have hstopped : ∀ q, stop = some q → Reaches up q p → q = p ∧ q ∈ met := by
    intro q hq hqp
    have hmem := (h.stop_cases hq).resolve_left fun hnot => hnot (hfree q (h.reaches_stop hnext hq) hqp)
    exact ⟨(h.enters_of_mem hnext hq hmem).unique henters, hmem⟩
  rcases h.mem_or_reaches hnext henters.reaches with hmem | ⟨q, hq, hqp⟩
  · obtain ⟨before, after, hmet⟩ := append_of_mem hmem
    obtain ⟨rest', -, hwalk⟩ := h.suffix hmet
    obtain ⟨l, hl, hup⟩ := hwalk.exists_up_stop rfl (by simp)
    obtain ⟨q, hq, -⟩ := onCycle_iff.mp (henters.onCycle.above hl)
    have hstop : stop = some q := hup.symm.trans hq
    have hpq := hl.trans (reaches_of_up hq)
    obtain ⟨rfl, hmem⟩ := hstopped q hstop (henters.onCycle.reaches_back hpq)
    exact ⟨hstop, hmem⟩
  · obtain ⟨rfl, hmem⟩ := hstopped q hq hqp
    exact ⟨hq, hmem⟩

end Walked

end Ascent
