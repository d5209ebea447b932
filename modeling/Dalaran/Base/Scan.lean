import Mathlib.Data.List.Nodup
import Mathlib.Data.Prod.Lex
import Mathlib.Order.MinMax
import Mathlib.Tactic.Common

/-
  Searching a sequence from front to back.

  `maxByKey` keeps the last of the elements with the greatest key; along ascending
  positions that is the greatest element by key and position
  (`maxByKey_eq_some_iff`). `foldl_greatest` is the same about a scan that starts
  somewhere and moves to eligible elements of a greater key only.
-/

namespace Seq

open List

variable {α β κ ρ : Type}

/-! ## The last greatest element -/

/-- `max_by_key`: the last of the elements with the greatest key. -/
def maxByKey [LinearOrder κ] (key : α → κ) : List α → Option α
  | [] => none
  | a :: l => some (l.foldl (fun best x => if key best ≤ key x then x else best) a)

variable {l : List α}

theorem maxByKey_eq_none_iff [LinearOrder κ] {key : α → κ} : maxByKey key l = none ↔ l = [] := by
  cases l with
  | nil => simp [maxByKey]
  | cons a l => simp [maxByKey]

theorem maxByKey_mem [LinearOrder κ] {key : α → κ} {a : α} (h : maxByKey key l = some a) : a ∈ l := by
  have hfoldl : ∀ (l : List α) (b : α),
      l.foldl (fun best x => if key best ≤ key x then x else best) b ∈ b :: l := by
    intro l
    induction l with
    | nil => exact fun b => mem_singleton_self b
    | cons c l ih =>
      intro b
      rw [foldl_cons]
      split
      · exact mem_cons_of_mem b (ih c)
      · rcases mem_cons.mp (ih b) with heq | hmem
        · exact mem_cons.mpr (.inl heq)
        · exact mem_cons_of_mem b (mem_cons_of_mem c hmem)
  cases l with
  | nil => cases h
  | cons b l =>
    rw [← Option.some.inj h]
    exact hfoldl l b

theorem foldl_maxByKey [LinearOrder κ] [LinearOrder ρ] (key : α → κ) (pos : α → ρ) :
    ∀ (l : List α) (a : α), (a :: l).Pairwise (fun x y => pos x < pos y) →
      (l.foldl (fun best x => if key best ≤ key x then x else best) a) ∈ a :: l ∧
        ∀ x ∈ a :: l, (toLex (key x, pos x) : κ ×ₗ ρ) ≤
          toLex (key (l.foldl (fun best x => if key best ≤ key x then x else best) a),
            pos (l.foldl (fun best x => if key best ≤ key x then x else best) a))
  | [], a, _ => ⟨mem_singleton_self a, fun x hx => by rw [mem_singleton.mp hx]; exact le_rfl⟩
  | b :: l, a, h => by
    obtain ⟨ha, hb⟩ := pairwise_cons.mp h
    rw [foldl_cons]
    by_cases hkey : key a ≤ key b
    · rw [if_pos hkey]
      obtain ⟨hmem, hle⟩ := foldl_maxByKey key pos l b hb
      refine ⟨mem_cons_of_mem a hmem, fun x hx => ?_⟩
      rcases mem_cons.mp hx with rfl | hx
      · have hab : (toLex (key x, pos x) : κ ×ₗ ρ) ≤ toLex (key b, pos b) := by
          rcases hkey.lt_or_eq with hlt | heq
          · exact Prod.Lex.le_iff.mpr (.inl hlt)
          · exact Prod.Lex.le_iff.mpr (.inr ⟨heq, (ha b mem_cons_self).le⟩)
        exact hab.trans (hle b mem_cons_self)
      · exact hle x hx
    · rw [if_neg hkey]
      have hal : (a :: l).Pairwise (fun x y => pos x < pos y) :=
        pairwise_cons.mpr ⟨fun x hx => ha x (mem_cons_of_mem b hx), (pairwise_cons.mp hb).2⟩
      obtain ⟨hmem, hle⟩ := foldl_maxByKey key pos l a hal
      refine ⟨?_, fun x hx => ?_⟩
      · rcases mem_cons.mp hmem with heq | hmem
        · rw [heq]
          exact mem_cons_self
        · exact mem_cons_of_mem a (mem_cons_of_mem b hmem)
      · rcases mem_cons.mp hx with rfl | hx
        · exact hle x mem_cons_self
        · rcases mem_cons.mp hx with rfl | hx
          · have hba : (toLex (key x, pos x) : κ ×ₗ ρ) ≤ toLex (key a, pos a) :=
              Prod.Lex.le_iff.mpr (.inl (not_le.mp hkey))
            exact hba.trans (hle a mem_cons_self)
          · exact hle x (mem_cons_of_mem a hx)

theorem maxByKey_eq_some_iff [LinearOrder κ] [LinearOrder ρ] {key : α → κ} {pos : α → ρ}
    (h : l.Pairwise fun x y => pos x < pos y) {a : α} : maxByKey key l = some a ↔
      a ∈ l ∧ ∀ x ∈ l, (toLex (key x, pos x) : κ ×ₗ ρ) ≤ toLex (key a, pos a) := by
  have hinj : ∀ x ∈ l, ∀ y ∈ l, pos x = pos y → x = y := by
    have hnodup : (l.map pos).Nodup := pairwise_map.mpr (h.imp fun hlt => hlt.ne)
    exact fun x hx y hy hxy => inj_on_of_nodup_map hnodup hx hy hxy
  cases l with
  | nil =>
    constructor
    · intro hnone
      cases hnone
    · intro hmem
      cases hmem.1
  | cons b l =>
    obtain ⟨hmem, hle⟩ := foldl_maxByKey key pos l b h
    constructor
    · intro hsome
      rw [← Option.some.inj hsome]
      exact ⟨hmem, hle⟩
    · intro hgreatest
      have heq := toLex.injective (le_antisymm (hle a hgreatest.1) (hgreatest.2 _ hmem))
      exact congrArg some (hinj _ hmem _ hgreatest.1 (congrArg Prod.snd heq).symm)

/-! ## Scans that only rise -/

theorem foldl_greatest [LinearOrder κ] {f : β → α → β} {good : β → Prop} {eligible : α → Prop}
    {key : β → κ} {of : α → β} (hof : ∀ x, eligible x → good (of x))
    (hstep : ∀ acc x, good acc → (f acc x = acc ∧ (eligible x → key (of x) ≤ key acc)) ∨
      (f acc x = of x ∧ eligible x ∧ key acc < key (of x))) :
    ∀ (l : List α) (acc : β), good acc →
      (l.foldl f acc = acc ∨ ∃ x ∈ l, eligible x ∧ l.foldl f acc = of x ∧ key acc < key (of x)) ∧
        ∀ x ∈ l, eligible x → key (of x) ≤ key (l.foldl f acc)
  | [], acc, _ => ⟨.inl rfl, fun x hx => absurd hx not_mem_nil⟩
  | a :: l, acc, hacc => by
    rw [foldl_cons]
    rcases hstep acc a hacc with ⟨hkeep, hle⟩ | ⟨hmove, ha, hlt⟩
    · rw [hkeep]
      obtain ⟨hend, hall⟩ := foldl_greatest hof hstep l acc hacc
      have hrise : key acc ≤ key (l.foldl f acc) := by
        rcases hend with heq | ⟨x, -, -, heq, hlt⟩
        · rw [heq]
        · rw [heq]
          exact hlt.le
      refine ⟨?_, fun x hx hx' => ?_⟩
      · exact hend.imp_right fun ⟨x, hx, hx'⟩ => ⟨x, mem_cons_of_mem a hx, hx'⟩
      · rcases mem_cons.mp hx with rfl | hx
        · exact (hle hx').trans hrise
        · exact hall x hx hx'
    · rw [hmove]
      obtain ⟨hend, hall⟩ := foldl_greatest hof hstep l (of a) (hof a ha)
      refine ⟨.inr ?_, fun x hx hx' => ?_⟩
      · rcases hend with hend | ⟨x, hx, hx', heq, hlt'⟩
        · exact ⟨a, mem_cons_self, ha, hend, hlt⟩
        · exact ⟨x, mem_cons_of_mem a hx, hx', heq, hlt.trans hlt'⟩
      · rcases mem_cons.mp hx with rfl | hx
        · rcases hend with hend | ⟨y, -, -, heq, hlt'⟩
          · rw [hend]
          · rw [heq]
            exact hlt'.le
        · exact hall x hx hx'

/-! ## Prefixes -/

variable {p : α → Bool}

theorem lt_length_takeWhile_iff : ∀ {l : List α} {i : Nat} {a : α},
    l.Pairwise (fun x y => p y = true → p x = true) → l[i]? = some a → (i < (l.takeWhile p).length ↔ p a = true)
  | [], i, a, _, ha => by cases ha
  | b :: l, i, a, h, ha => by
    obtain ⟨hb, hl⟩ := pairwise_cons.mp h
    rw [takeWhile_cons]
    cases i with
    | zero =>
      cases ha
      cases p b <;> simp
    | succ i =>
      have hmem : a ∈ l := mem_of_getElem? ha
      split
      · rw [length_cons, Nat.succ_lt_succ_iff]
        exact lt_length_takeWhile_iff hl ha
      · rename_i hpb
        constructor
        · intro hlt
          cases hlt
        · intro hpa
          exact absurd (hb a hmem hpa) hpb

theorem takeWhile_eq_filter : ∀ {l : List α}, l.Pairwise (fun x y => p y = true → p x = true) →
    l.takeWhile p = l.filter p
  | [], _ => rfl
  | a :: l, h => by
    obtain ⟨ha, hl⟩ := pairwise_cons.mp h
    rw [takeWhile_cons, filter_cons, takeWhile_eq_filter hl]
    split
    · rfl
    · next hpa => exact (filter_eq_nil_iff.mpr fun x hx hpx => hpa (ha x hx hpx)).symm

variable {q : α → Bool}

theorem drop_take_eq_filter : ∀ {l : List α}, l.Pairwise (fun x y => p y = true → p x = true) →
    l.Pairwise (fun x y => q y = true → q x = true) →
    (l.drop (l.takeWhile p).length).take ((l.takeWhile q).length - (l.takeWhile p).length) =
      l.filter fun x => !p x && q x
  | [], _, _ => rfl
  | a :: l, hp, hq => by
    have hqa := (pairwise_cons.mp hq).1
    cases hpa : p a with
    | true =>
      rw [takeWhile_cons_of_pos hpa, filter_cons_of_neg (by simp [hpa])]
      cases hqb : q a with
      | true =>
        rw [takeWhile_cons_of_pos hqb, length_cons, length_cons, drop_succ_cons, Nat.add_sub_add_right]
        exact drop_take_eq_filter (pairwise_cons.mp hp).2 (pairwise_cons.mp hq).2
      | false =>
        rw [takeWhile_cons_of_neg (by simp [hqb]), length_nil, Nat.zero_sub, take_zero]
        refine (filter_eq_nil_iff.mpr fun x hx hbits => ?_).symm
        rw [hqa x hx (Bool.and_eq_true_iff.mp hbits).2] at hqb
        cases hqb
    | false =>
      -- the first property holds of no element
      have hnone : ∀ x ∈ a :: l, p x = false := by
        intro x hx
        rcases mem_cons.mp hx with rfl | hx
        · exact hpa
        · by_contra hpx
          rw [(pairwise_cons.mp hp).1 x hx (by simpa using hpx)] at hpa
          cases hpa
      have hnil : (a :: l).takeWhile p = [] := takeWhile_cons_of_neg (by simp [hpa])
      rw [hnil, length_nil, drop_zero, Nat.sub_zero,
        ← prefix_iff_eq_take.mp ( takeWhile_prefix q), takeWhile_eq_filter hq]
      refine filter_congr fun x hx => ?_
      rw [hnone x hx]
      rfl

/-! ## The bottom of a valley -/

variable {l' : List α}

theorem min?_map_of_dominated [LinearOrder κ] {f : α → κ} (hsub : l' ⊆ l)
    (hdom : ∀ a ∈ l, ∃ b ∈ l', f b ≤ f a) : (l'.map f).min? = (l.map f).min? := by
  cases hm : (l'.map f).min? with
  | none =>
    have hnil : l' = [] := map_eq_nil_iff.mp (List.min?_eq_none_iff.mp hm)
    cases l with
    | nil => rfl
    | cons a l =>
      obtain ⟨b, hb, -⟩ := hdom a (by simp)
      rw [hnil] at hb
      cases hb
  | some m =>
    obtain ⟨hmem, hle⟩ := List.min?_eq_some_iff.mp hm
    symm
    apply List.min?_eq_some_iff.mpr
    refine ⟨map_subset f hsub hmem, fun k hk => ?_⟩
    obtain ⟨a, ha, rfl⟩ := mem_map.mp hk
    obtain ⟨b, hb, hba⟩ := hdom a ha
    exact (hle (f b) (mem_map_of_mem hb)).trans hba

theorem min?_valley [LinearOrder κ] {f : α → κ} (hp : l.Pairwise fun a b => p b = true → p a = true)
    (hfalls : l.Pairwise fun a b => p b = true → f b ≤ f a) (hrises : l.Pairwise fun a b => p a = false → f a ≤ f b) :
    (([l[(l.takeWhile p).length - 1]?, l[(l.takeWhile p).length]?].filterMap id).map f).min? = (l.map f).min? := by
  generalize hn : (l.takeWhile p).length = n
  have hside : ∀ {i : Nat} {a : α}, l[i]? = some a → (i < n ↔ p a = true) := by
    intro i a ha
    rw [← hn]
    exact lt_length_takeWhile_iff hp ha
  have hpair : ∀ {R : α → α → Prop}, l.Pairwise R → ∀ {i j : Nat} {a b : α}, l[i]? = some a →
      l[j]? = some b → i < j → R a b := by
    intro R hR i j a b ha hb hij
    obtain ⟨hi, rfl⟩ := List.getElem?_eq_some_iff.mp ha
    obtain ⟨hj, rfl⟩ := List.getElem?_eq_some_iff.mp hb
    exact pairwise_iff_getElem.mp hR i j hi hj hij
  have hmem : ∀ {i : Nat} {a : α}, (i = n - 1 ∨ i = n) → l[i]? = some a → a ∈ [l[n - 1]?, l[n]?].filterMap id := by
    intro i a hi ha
    apply mem_filterMap.mpr
    refine ⟨some a, ?_, rfl⟩
    rcases hi with rfl | rfl <;> simp [ha]
  apply min?_map_of_dominated
  · intro a ha
    obtain ⟨o, ho, hoa⟩ := mem_filterMap.mp ha
    have ho' : o = l[n - 1]? ∨ o = l[n]? := by simpa using ho
    rcases ho' with rfl | rfl
    · exact mem_of_getElem? hoa
    · exact mem_of_getElem? hoa
  · intro a ha
    obtain ⟨i, hi, hia⟩ := getElem_of_mem ha
    have hia' : l[i]? = some a := by rw [List.getElem?_eq_getElem hi, hia]
    by_cases hlt : i < n
    · -- the last element in front of the point
      have hn' : n - 1 < l.length := by
        have := (takeWhile_sublist (l := l) p).length_le
        omega
      have hlast := List.getElem?_eq_getElem hn'
      refine ⟨l[n - 1], hmem (.inl rfl) hlast, ?_⟩
      rcases Nat.lt_or_ge i (n - 1) with hlt' | hge
      · apply hpair hfalls hia' hlast hlt'
        exact (hside hlast).mp (by omega)
      · have heq : i = n - 1 := by omega
        subst heq
        rw [← hia]
    · -- the first element after it
      have hn' : n < l.length := by omega
      have hfirst := List.getElem?_eq_getElem hn'
      refine ⟨l[n], hmem (.inr rfl) hfirst, ?_⟩
      rcases Nat.lt_or_ge n i with hlt' | hge
      · apply hpair hrises hfirst hia' hlt'
        exact Bool.eq_false_iff.mpr fun h => absurd ((hside hfirst).mpr h) (Nat.lt_irrefl n)
      · have heq : i = n := by omega
        subst heq
        rw [← hia]

end Seq
