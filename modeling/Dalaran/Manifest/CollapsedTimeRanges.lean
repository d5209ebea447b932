import Mathlib.Data.List.Basic
import Mathlib.Data.List.Pairwise
import Mathlib.Order.MinMax
import Dalaran.Chunk.Time

/-
  The time ranges that have data (`dlr_manifest_index::collapsed_time_ranges`).

  Ranges are sorted by start, and those that overlap or touch are merged. Whether they
  touch is told by the time after the end of one, which is a plain `i64` addition: it
  overflows as soon as something follows a range that ends at `i64::MAX`
  (`mergeAndSortRanges_iff`). An overflow is `none`.

  Correspondence (Rust ↔ Lean):
    `Vec::sort_by_key` ↔ `sortByStart`
    the loop, from a last range ↔ `mergeRest`
-/

namespace Dalaran

open List TimeInt

def nextI64 (t : TimeInt) : Option Int :=
  if t.asI64 = I64.MAX then none else some (t.asI64.val + 1)

/-- What the last range and those that follow are merged to. -/
def mergeRest (last : AbsoluteTimeRange) : List AbsoluteTimeRange → Option (List AbsoluteTimeRange)
  | [] => some [last]
  | range :: rest => do
    let next ← nextI64 last.max
    if range.min.asI64.val ≤ next then
      mergeRest (if last.max.asI64 < range.max.asI64 then { last with max := range.max } else last) rest
    else
      return last :: (← mergeRest range rest)

/-- The ranges by start. The sort is stable. -/
def sortByStart (ranges : List AbsoluteTimeRange) : List AbsoluteTimeRange :=
  ranges.mergeSort fun a b => decide (a.min.asI64 ≤ b.min.asI64)

def mergeAndSortRanges (ranges : List AbsoluteTimeRange) : Option (List AbsoluteTimeRange) :=
  match sortByStart ranges with
  | [] => some []
  | first :: rest => mergeRest first rest

/-- Ranges in ascending order, with a time between any two, that have the times of others. -/
structure UnionOf (ranges out : List AbsoluteTimeRange) : Prop where
  nonempty : ∀ o ∈ out, o.min ≤ o.max
  separated : out.Pairwise fun a b => a.max.asI64.val + 1 < b.min.asI64.val
  times : ∀ t, (∃ o ∈ out, o.contains t = true) ↔ ∃ r ∈ ranges, r.contains t = true

/-- Of two ranges in a list, one that ends at `i64::MAX` is sorted behind the other. -/
def EndsLast (a b : AbsoluteTimeRange) : Prop :=
  (a.max = TimeInt.MAX → b.min < a.min) ∧ (b.max = TimeInt.MAX → a.min ≤ b.min)

variable {ranges rest : List AbsoluteTimeRange} {last range : AbsoluteTimeRange}

/-! ## The loop -/

theorem nextI64_of_ne {t : TimeInt} (h : t ≠ TimeInt.MAX) : nextI64 t = some (t.asI64.val + 1) :=
  if_neg fun hmax => h (asI64_injective hmax)

def extended (last range : AbsoluteTimeRange) : AbsoluteTimeRange := { last with max := max last.max range.max }

theorem mergeRest_cons (h : last.max ≠ TimeInt.MAX) :
    mergeRest last (range :: rest) =
      if range.min.asI64.val ≤ last.max.asI64.val + 1 then mergeRest (extended last range) rest
      else (mergeRest range rest).map (last :: ·) := by
  have hmax : (if last.max.asI64 < range.max.asI64 then { last with max := range.max } else last) =
      extended last range := by
    by_cases hlt : last.max < range.max
    · rw [extended, max_eq_right hlt.le]
      exact if_pos hlt
    · rw [extended, max_eq_left (not_lt.mp hlt)]
      exact if_neg hlt
  rw [mergeRest, nextI64_of_ne h, ← hmax, Option.map_eq_bind]
  rfl

theorem mergeRest_max (h : last.max = TimeInt.MAX) : mergeRest last (range :: rest) = none := by
  rw [mergeRest, h]
  rfl

/-- Nothing follows a range that ends at `i64::MAX`. -/
def Bounded (ranges : List AbsoluteTimeRange) : Prop := ranges.Pairwise fun a _ => a.max ≠ TimeInt.MAX

theorem bounded_extended (h : last.max ≠ TimeInt.MAX) :
    Bounded (extended last range :: rest) ↔ Bounded (range :: rest) := by
  have hend : max last.max range.max = MAX ↔ range.max = MAX := by
    constructor
    · intro hmax
      exact (max_choice last.max range.max).elim (fun hl => absurd (hl.symm.trans hmax) h) fun hr => hr.symm.trans hmax
    · intro hmax
      rw [hmax]
      exact max_eq_right (le_MAX _)
  simp [Bounded, extended, hend]

theorem mergeRest_of_not_bounded (h : ¬ Bounded (last :: rest)) : mergeRest last rest = none := by
  induction rest generalizing last with
  | nil => exact absurd (pairwise_singleton ..) h
  | cons range rest ih =>
    by_cases hmax : last.max = MAX
    · exact mergeRest_max hmax
    · have hrest : ¬ Bounded (range :: rest) := fun hb => h (pairwise_cons.mpr ⟨fun _ _ => hmax, hb⟩)
      rw [mergeRest_cons hmax]
      split
      · exact ih fun hb => hrest ((bounded_extended hmax).mp hb)
      · rw [ih hrest]
        rfl

theorem contains_extended (hstart : last.min ≤ range.min)
    (htouch : range.min.asI64.val ≤ last.max.asI64.val + 1) (t : TimeInt) :
    (extended last range).contains t = true ↔ last.contains t = true ∨ range.contains t = true := by
  simp only [AbsoluteTimeRange.contains_iff, extended, le_def, le_max_iff] at hstart ⊢
  omega

theorem mergeRest_unionOf (hstart : (last :: rest).Pairwise fun a b => a.min ≤ b.min)
    (hne : ∀ r ∈ last :: rest, r.min ≤ r.max) (hb : Bounded (last :: rest)) :
    ∃ o out, mergeRest last rest = some (o :: out) ∧ o.min = last.min ∧ UnionOf (last :: rest) (o :: out) := by
  induction rest generalizing last with
  | nil => exact ⟨last, [], rfl, rfl, hne, pairwise_singleton .., fun _ => Iff.rfl⟩
  | cons range rest ih =>
    obtain ⟨hfirst, hsorted⟩ := pairwise_cons.mp hstart
    obtain ⟨hends, hbrest⟩ := pairwise_cons.mp hb
    have hle := hfirst range mem_cons_self
    have hlast := hne last mem_cons_self
    have hmax : last.max ≠ MAX := hends range mem_cons_self
    rw [mergeRest_cons hmax]
    by_cases htouch : range.min.asI64.val ≤ last.max.asI64.val + 1
    · rw [if_pos htouch]
      obtain ⟨o, out, heq, hmin, hunion⟩ := @ih (extended last range)
        (pairwise_cons.mpr ⟨fun r hr => hfirst r (mem_cons_of_mem _ hr), (pairwise_cons.mp hsorted).2⟩)
        (by
          intro r hr
          rcases mem_cons.mp hr with rfl | hr
          · exact hlast.trans (le_max_left ..)
          · exact hne r (mem_cons_of_mem _ (mem_cons_of_mem _ hr)))
        ((bounded_extended hmax).mpr hbrest)
      refine ⟨o, out, heq, hmin, hunion.nonempty, hunion.separated, fun t => (hunion.times t).trans ?_⟩
      simp only [mem_cons, exists_eq_or_imp, contains_extended hle htouch, or_assoc]
    · rw [if_neg htouch]
      obtain ⟨o, out, heq, hmin, hunion⟩ := ih hsorted (fun r hr => hne r (mem_cons_of_mem _ hr)) hbrest
      refine ⟨last, o :: out, by rw [heq]; rfl, rfl, ?_, pairwise_cons.mpr ⟨?_, hunion.separated⟩, fun t => ?_⟩
      · intro r hr
        rcases mem_cons.mp hr with rfl | hr
        · exact hlast
        · exact hunion.nonempty r hr
      · -- The next range starts at the gap, and those after it start later.
        have hgap : last.max.asI64.val + 1 < o.min.asI64.val := hmin ▸ not_le.mp htouch
        intro r hr
        rcases mem_cons.mp hr with rfl | hr
        · exact hgap
        · have hnext := (pairwise_cons.mp hunion.separated).1 r hr
          have ho := le_def.mp (hunion.nonempty o mem_cons_self)
          omega
      · rw [exists_mem_cons_iff _ last (o :: out), exists_mem_cons_iff _ last, hunion.times t]

/-! ## The order of the loop -/

theorem sortByStart_perm (ranges : List AbsoluteTimeRange) : (sortByStart ranges).Perm ranges := mergeSort_perm _ _

theorem startsBefore_trans (a b c : AbsoluteTimeRange) (hab : decide (a.min.asI64 ≤ b.min.asI64) = true)
    (hbc : decide (b.min.asI64 ≤ c.min.asI64) = true) : decide (a.min.asI64 ≤ c.min.asI64) = true :=
  decide_eq_true ((of_decide_eq_true hab).trans (of_decide_eq_true hbc))

theorem startsBefore_total (a b : AbsoluteTimeRange) :
    (decide (a.min.asI64 ≤ b.min.asI64) || decide (b.min.asI64 ≤ a.min.asI64)) = true := by
  simpa using le_total a.min.asI64 b.min.asI64

theorem sortByStart_pairwise (ranges : List AbsoluteTimeRange) :
    (sortByStart ranges).Pairwise fun a b => a.min ≤ b.min :=
  (pairwise_mergeSort startsBefore_trans startsBefore_total ranges).imp of_decide_eq_true

theorem pair_sublist_sortByStart {a b : AbsoluteTimeRange} (hle : a.min ≤ b.min) (h : [a, b] <+ ranges) :
    [a, b] <+ sortByStart ranges :=
  pair_sublist_mergeSort startsBefore_trans startsBefore_total (decide_eq_true hle) h

theorem filter_sortByStart (s : TimeInt) (ranges : List AbsoluteTimeRange) :
    (sortByStart ranges).filter (fun r => decide (r.min = s)) = ranges.filter fun r => decide (r.min = s) := by
  have hsub : ranges.filter (fun r => decide (r.min = s)) <+ sortByStart ranges := by
    refine sublist_mergeSort startsBefore_trans startsBefore_total ?_ filter_sublist
    refine pairwise_of_forall_mem_list fun a ha b hb => ?_
    have hab := (of_decide_eq_true (mem_filter.mp ha).2).trans (of_decide_eq_true (mem_filter.mp hb).2).symm
    exact decide_eq_true hab.le
  have hsub' := hsub.filter fun r => decide (r.min = s)
  simp only [filter_filter, Bool.and_self] at hsub'
  exact (hsub'.eq_of_length ((sortByStart_perm ranges).filter _).length_eq.symm).symm

theorem either_of_pairwise {R : AbsoluteTimeRange → AbsoluteTimeRange → Prop} (h : ranges.Pairwise R)
    {a b : AbsoluteTimeRange} (ha : a ∈ ranges) (hb : b ∈ ranges) (hne : a ≠ b) : R a b ∨ R b a :=
  have : Std.Symm fun a b => R a b ∨ R b a := ⟨fun _ _ => Or.symm⟩
  (h.imp (S := fun a b => R a b ∨ R b a) .inl).forall ha hb hne

theorem bounded_sortByStart : Bounded (sortByStart ranges) ↔ ranges.Pairwise EndsLast := by
  have hmem : ∀ {r}, r ∈ sortByStart ranges ↔ r ∈ ranges := (sortByStart_perm ranges).mem_iff
  have hsorted := sortByStart_pairwise ranges
  constructor
  · intro hb
    refine pairwise_iff_forall_sublist.mpr fun {a b} hab => ⟨fun hmax => ?_, fun hmax => ?_⟩
    · by_contra hlt
      exact pairwise_iff_forall_sublist.mp hb (pair_sublist_sortByStart (not_lt.mp hlt) hab) hmax
    · by_contra hlt
      have hne : a ≠ b := fun heq => hlt (heq ▸ le_refl _)
      rcases either_of_pairwise (hb.and hsorted) (hmem.mpr (hab.subset (by simp))) (hmem.mpr (hab.subset (by simp)))
        hne with h | h
      · exact hlt h.2
      · exact h.1 hmax
  · intro h
    refine pairwise_iff_forall_sublist.mpr fun {a b} hab hmax => ?_
    rcases (pairwise_iff_forall_sublist.mp hsorted hab).lt_or_eq with hlt | heq
    · have hne : a ≠ b := fun heq => absurd hlt (heq ▸ lt_irrefl _)
      rcases either_of_pairwise h (hmem.mp (hab.subset (by simp))) (hmem.mp (hab.subset (by simp))) hne with h | h
      · exact lt_asymm hlt (h.1 hmax)
      · exact absurd (h.2 hmax) (not_le.mpr hlt)
    · -- The sort is stable.
      have hsub := hab.filter fun r => decide (r.min = b.min)
      have hpair : [a, b].filter (fun r => decide (r.min = b.min)) = [a, b] := by simp [heq]
      rw [filter_sortByStart, hpair] at hsub
      have hends := pairwise_iff_forall_sublist.mp h (hsub.trans filter_sublist)
      exact absurd (hends.1 hmax) (heq ▸ lt_irrefl _)

/-- Ranges are merged to their union exactly if none of them that ends at `i64::MAX` is followed by another. -/
theorem mergeAndSortRanges_iff (ranges : List AbsoluteTimeRange) (hne : ∀ r ∈ ranges, r.min ≤ r.max) :
    (∃ out, mergeAndSortRanges ranges = some out ∧ UnionOf ranges out) ↔ ranges.Pairwise EndsLast := by
  have hperm := sortByStart_perm ranges
  have hsorted := sortByStart_pairwise ranges
  rw [← bounded_sortByStart, mergeAndSortRanges]
  cases hs : sortByStart ranges with
  | nil =>
    rw [hs] at hperm
    obtain rfl := hperm.nil_eq
    exact ⟨fun _ => Pairwise.nil, fun _ => ⟨[], rfl, by simp, Pairwise.nil, fun _ => Iff.rfl⟩⟩
  | cons first rest =>
    rw [hs] at hperm hsorted
    constructor
    · rintro ⟨out, heq, -⟩
      by_contra hb
      cases heq.symm.trans (mergeRest_of_not_bounded hb)
    · intro hb
      obtain ⟨o, out, heq, -, hunion⟩ := mergeRest_unionOf hsorted (fun r hr => hne r (hperm.mem_iff.mp hr)) hb
      refine ⟨o :: out, heq, hunion.nonempty, hunion.separated, fun t => (hunion.times t).trans ?_⟩
      simp only [hperm.mem_iff]

def openEnded : List AbsoluteTimeRange := [⟨TimeInt.MIN, TimeInt.MAX⟩, ⟨⟨I64.ONE⟩, ⟨I64.ONE⟩⟩]

theorem mergeAndSortRanges_openEnded : (∀ r ∈ openEnded, r.min ≤ r.max) ∧ mergeAndSortRanges openEnded = none := by
  have hsort : sortByStart openEnded = openEnded := mergeSort_of_pairwise (by decide)
  refine ⟨by decide, ?_⟩
  rw [mergeAndSortRanges, hsort]
  exact mergeRest_max rfl

theorem mergeAndSortRanges_iff_touching :
    ∃ out, mergeAndSortRanges [⟨⟨I64.ONE⟩, TimeInt.MAX⟩, ⟨TimeInt.MIN, ⟨I64.ONE⟩⟩] = some out ∧
      UnionOf [⟨⟨I64.ONE⟩, TimeInt.MAX⟩, ⟨TimeInt.MIN, ⟨I64.ONE⟩⟩] out :=
  (mergeAndSortRanges_iff _ (by decide)).mpr (by
    refine pairwise_pair.mpr ⟨fun _ => by decide, fun h => absurd h (by decide)⟩)

end Dalaran
