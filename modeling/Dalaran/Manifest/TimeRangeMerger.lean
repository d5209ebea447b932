import Mathlib.Data.List.Chain
import Mathlib.Algebra.Order.BigOperators.Group.List
import Mathlib.Algebra.Order.Group.Nat
import Dalaran.Base.OrdSet
import Dalaran.Chunk.Chunk

/-
  Merging time ranges (`dlr_manifest_index::time_range_merger`).

  Each range comes with the chunks it depends on. Merging cuts and extends them
  until they are sorted and have no gaps and no overlaps: the end of each is the
  start of the next (`mergeRanges_adjacent`).

  Correspondence (Rust ↔ Lean):
    `BinaryHeap::pop` ↔ `popFirst`: the first start, then the shortest
  `Ranges.new` has the last range first. What the heap does with two equal ranges
  is not specified; here the earlier one comes first. A range that is cut can put
  a part of it back, so the loop has a budget, which is enough
  (`Linked.drain`).
-/

namespace Dalaran

open List TimeInt

structure TimeRange where
  range : AbsoluteTimeRange
  dependsOn : OrdSet ChunkId
  deriving DecidableEq

namespace TimeRange

def new (chunk : ChunkId) (range : AbsoluteTimeRange) : TimeRange := ⟨range, OrdSet.ofList [chunk]⟩

def withMax (r : TimeRange) (max : TimeInt) : TimeRange := { r with range := { r.range with max := max } }

/-- Whether a range comes out of the heap strictly before another. -/
def before (a b : TimeRange) : Bool :=
  decide (a.range.min < b.range.min) ||
    decide (a.range.min = b.range.min) && decide (a.range.absLength < b.range.absLength)

def Valid (r : TimeRange) : Prop := TimeInt.MIN ≤ r.range.min ∧ r.range.min ≤ r.range.max

end TimeRange

/-! ## The heap -/

/-- The range that comes first, and the others. -/
def popFirst (a : TimeRange) : List TimeRange → TimeRange × List TimeRange
  | [] => (a, [])
  | b :: l =>
    if b.before a then ((popFirst b l).1, a :: (popFirst b l).2)
    else ((popFirst a l).1, b :: (popFirst a l).2)

theorem popFirst_perm : ∀ (a : TimeRange) (l : List TimeRange),
    ((popFirst a l).1 :: (popFirst a l).2).Perm (a :: l) := by
  intro a l
  induction l generalizing a with
  | nil => exact Perm.refl _
  | cons b l ih =>
    rw [popFirst]
    split
    · exact (Perm.swap ..).trans ((ih b).cons a)
    · exact (Perm.swap ..).trans (((ih a).cons b).trans (Perm.swap ..))

theorem popFirst_min_le (a : TimeRange) (l : List TimeRange) :
    ∀ x ∈ a :: l, (popFirst a l).1.range.min ≤ x.range.min := by
  induction l generalizing a with
  | nil =>
    intro x hx
    rw [mem_singleton.mp hx]
    exact le_refl _
  | cons b l ih =>
    intro x hx
    rw [popFirst]
    split
    · rename_i hbefore
      have hba : b.range.min ≤ a.range.min := by
        simp only [TimeRange.before, Bool.or_eq_true, Bool.and_eq_true, decide_eq_true_eq] at hbefore
        rcases hbefore with h | ⟨h, -⟩
        · exact h.le
        · exact h.le
      rcases mem_cons.mp hx with rfl | hx
      · exact (ih b b mem_cons_self).trans hba
      · exact ih b x hx
    · rename_i hbefore
      have hab : a.range.min ≤ b.range.min := by
        by_contra hlt
        exact hbefore (by simp [TimeRange.before, not_le.mp hlt])
      rcases mem_cons.mp hx with rfl | hx
      · exact ih x x mem_cons_self
      · rcases mem_cons.mp hx with rfl | hx
        · exact (ih a a mem_cons_self).trans hab
        · exact ih a x (mem_cons_of_mem _ hx)

/-! ## The loop -/

/-- The merged ranges, the last one first, and the ranges that are still to come. -/
structure Ranges where
  new : List TimeRange
  incoming : List TimeRange

/-- The part of the longer range past the end of the shorter one. -/
def delayed (last range : TimeRange) : List TimeRange :=
  if last.range.max < range.range.max then
    [⟨AbsoluteTimeRange.new last.range.max range.range.max, range.dependsOn⟩]
  else if range.range.max < last.range.max then
    [⟨AbsoluteTimeRange.new range.range.max last.range.max, last.dependsOn⟩]
  else []

/-- Merge the next range. -/
def Ranges.push (ranges : Ranges) (range : TimeRange) : Ranges :=
  match ranges.new with
  | [] => { ranges with new := [range] }
  | last :: earlier =>
    if last.dependsOn = range.dependsOn then
      -- Equal dependants for both ranges.
      { ranges with new := last.withMax (max last.range.max range.range.max) :: earlier }
    else if last.range.max ≤ range.range.min then
      -- The last range is extended, for what a latest-at query has available.
      { ranges with new := range :: last.withMax range.range.min :: earlier }
    else if last.range.min = range.range.min then
      { new := ⟨⟨last.range.min, min last.range.max range.range.max⟩,
          last.dependsOn.union range.dependsOn⟩ :: earlier
        incoming := delayed last range ++ ranges.incoming }
    else
      -- The range starts within the last one.
      { new := ⟨AbsoluteTimeRange.new range.range.min (min range.range.max last.range.max),
          last.dependsOn.union range.dependsOn⟩ :: last.withMax range.range.min :: earlier
        incoming := delayed last range ++ ranges.incoming }

/-- Merge the ranges that are still to come. -/
def Ranges.drain : Nat → Ranges → Ranges
  | 0, ranges => ranges
  | n + 1, ranges =>
    match ranges.incoming with
    | [] => ranges
    | a :: l => drain n (Ranges.push { ranges with incoming := (popFirst a l).2 } (popFirst a l).1)

/-- How many ranges can still come of a range: each one starts later, or as late and is longer. -/
def TimeRange.weight (r : TimeRange) : Nat :=
  (9223372036854775807 - r.range.min.asI64.val).toNat * 2 ^ 65 + (2 ^ 65 - r.range.absLength)

/-- The ranges, sorted, without gaps or overlaps. -/
def mergeRanges (ranges : List TimeRange) : List TimeRange :=
  (Ranges.drain (ranges.map TimeRange.weight).sum ⟨[], ranges⟩).new.reverse

/-! ## The budget is enough -/

theorem AbsoluteTimeRange.absLength_le (r : AbsoluteTimeRange) : r.absLength < 2 ^ 64 := by
  have hmin := r.min.asI64.lo
  have hmin' := r.min.asI64.hi
  have hmax := r.max.asI64.lo
  have hmax' := r.max.asI64.hi
  unfold AbsoluteTimeRange.absLength I64.absDiff
  omega

theorem TimeRange.weight_pos (r : TimeRange) : 0 < r.weight := by
  have := r.range.absLength_le
  unfold TimeRange.weight
  omega

theorem TimeRange.weight_lt_of_min_lt {a b : TimeRange} (h : b.range.min < a.range.min) : a.weight < b.weight := by
  have hlt := lt_def.mp h
  have ha := a.range.min.asI64.hi
  have hlen := b.range.absLength_le
  unfold TimeRange.weight
  omega

theorem TimeRange.weight_lt_of_longer {a b : TimeRange} (h : b.range.min = a.range.min)
    (hlen : b.range.absLength < a.range.absLength) : a.weight < b.weight := by
  have ha := a.range.absLength_le
  unfold TimeRange.weight
  rw [h]
  omega

theorem mem_delayed {last range x : TimeRange} (hlast : last.Valid) (hrange : range.Valid)
    (hx : x ∈ delayed last range) :
    x.range.min = min last.range.max range.range.max ∧
      x.range.max = max last.range.max range.range.max ∧ x.range.min < x.range.max := by
  have hlmax : TimeInt.MIN ≤ last.range.max := hlast.1.trans hlast.2
  have hrmax : TimeInt.MIN ≤ range.range.max := hrange.1.trans hrange.2
  unfold delayed at hx
  split at hx
  · rename_i h
    rw [mem_singleton.mp hx]
    simp only [AbsoluteTimeRange.new, saturatedTemporal_of_le hlmax, saturatedTemporal_of_le hrmax]
    exact ⟨(min_eq_left h.le).symm, (max_eq_right h.le).symm, h⟩
  · split at hx
    · rename_i h
      rw [mem_singleton.mp hx]
      simp only [AbsoluteTimeRange.new, saturatedTemporal_of_le hlmax, saturatedTemporal_of_le hrmax]
      exact ⟨(min_eq_right h.le).symm, (max_eq_left h.le).symm, h⟩
    · simp at hx

theorem delayed_length_le (last range : TimeRange) : (delayed last range).length ≤ 1 := by
  unfold delayed
  split
  · simp
  · split
    · simp
    · simp

theorem sum_delayed_lt {last range : TimeRange} (hlast : last.Valid) (hrange : range.Valid)
    (hin : range.range.min < last.range.max) :
    ((delayed last range).map TimeRange.weight).sum < range.weight := by
  have hlt : ∀ x ∈ delayed last range, x.weight < range.weight := by
    intro x hx
    obtain ⟨hmin, hmax, -⟩ := mem_delayed hlast hrange hx
    have hle : range.range.min ≤ x.range.min := by
      rw [hmin]
      exact le_min hin.le hrange.2
    rcases hle.lt_or_eq with h | h
    · exact TimeRange.weight_lt_of_min_lt h
    · -- The range is a single time, and what is put back starts there and is longer.
      refine TimeRange.weight_lt_of_longer h ?_
      have h₁ := lt_def.mp hin
      have h₂ := le_def.mp hrange.2
      have hend : range.range.max = range.range.min := by
        rw [h, hmin]
        refine (min_eq_right ?_).symm
        by_contra hc
        rw [hmin, min_eq_left (not_le.mp hc).le] at h
        exact absurd h hin.ne
      have hxmax : x.range.max = last.range.max := by
        rw [hmax, hend]
        exact max_eq_left hin.le
      unfold AbsoluteTimeRange.absLength I64.absDiff
      rw [← h, hxmax, hend]
      omega
  have hlen := delayed_length_le last range
  match hd : delayed last range with
  | [] => simpa using range.weight_pos
  | [x] =>
    have := hlt x (by simp [hd])
    simpa using this
  | _ :: _ :: _ => simp [hd] at hlen

theorem push_weight {ranges : Ranges} {range : TimeRange} (hnew : ∀ last ∈ ranges.new, last.Valid)
    (hrange : range.Valid) :
    ((ranges.push range).incoming.map TimeRange.weight).sum <
      range.weight + (ranges.incoming.map TimeRange.weight).sum := by
  have hpos := range.weight_pos
  unfold Ranges.push
  cases hn : ranges.new with
  | nil => simpa using hpos
  | cons last earlier =>
    have hlast : last.Valid := hnew last (by simp [hn])
    simp only
    split
    · simpa using hpos
    · split
      · simpa using hpos
      · rename_i hle
        have hdelayed := sum_delayed_lt hlast hrange (not_le.mp hle)
        split <;> (simp only [map_append, sum_append]; omega)

/-! ## The merged ranges are adjacent -/

/-- The merged ranges, the last one first, each start where the one before ends, nothing to come
starts before the last of them, and no range ends after a bound. -/
structure Ranges.Linked (bound : TimeInt) (ranges : Ranges) : Prop where
  chain : ranges.new.IsChain fun later earlier => earlier.range.max = later.range.min
  valid : ∀ r ∈ ranges.new, r.Valid ∧ r.range.max ≤ bound
  coming : ∀ r ∈ ranges.incoming, r.Valid ∧ r.range.max ≤ bound
  sorted : ∀ last ∈ ranges.new.head?, ∀ r ∈ ranges.incoming, last.range.min ≤ r.range.min

namespace Ranges.Linked

variable {bound : TimeInt} {ranges : Ranges} {range : TimeRange}

theorem push (h : ranges.Linked bound) (hrange : range.Valid) (hmax : range.range.max ≤ bound)
    (hlast : ∀ last ∈ ranges.new.head?, last.range.min ≤ range.range.min)
    (hfirst : ∀ r ∈ ranges.incoming, range.range.min ≤ r.range.min) :
    (ranges.push range).Linked bound := by
  unfold Ranges.push
  cases hn : ranges.new with
  | nil =>
    refine ⟨by simp, ?_, h.coming, ?_⟩
    · intro r hr
      rw [mem_singleton.mp hr]
      exact ⟨hrange, hmax⟩
    · rintro _ ⟨⟩
      exact hfirst
  | cons last earlier =>
    obtain ⟨hlvalid, hlmax⟩ := h.valid last (by simp [hn])
    have hle : last.range.min ≤ range.range.min := hlast last (by simp [hn])
    have hchain := h.chain
    rw [hn, isChain_cons] at hchain
    obtain ⟨hlink, hchain⟩ := hchain
    have hearlier : ∀ r ∈ earlier, r.Valid ∧ r.range.max ≤ bound := fun r hr =>
      h.valid r (by simp [hn, hr])
    have hcoming : ∀ last' : TimeRange, last'.range.min = last.range.min ∨
        last'.range.min = range.range.min → ∀ r ∈ ranges.incoming, last'.range.min ≤ r.range.min := by
      intro last' hlast' r hr
      rcases hlast' with hmin | hmin
      · exact hmin ▸ hle.trans (hfirst r hr)
      · exact hmin ▸ hfirst r hr
    have hcut : ∀ r ∈ { last with range := ⟨last.range.min, range.range.min⟩ } :: earlier,
        r.Valid ∧ r.range.max ≤ bound :=
      forall_mem_cons.mpr ⟨⟨⟨hlvalid.1, hle⟩, hrange.2.trans hmax⟩, hearlier⟩
    simp only
    split
    · -- Equal dependants: the last range grows.
      refine ⟨?_, ?_, h.coming, ?_⟩
      · exact isChain_cons.mpr ⟨hlink, hchain⟩
      · exact forall_mem_cons.mpr
          ⟨⟨⟨hlvalid.1, hlvalid.2.trans (le_max_left ..)⟩, max_le hlmax hmax⟩, hearlier⟩
      · rintro _ ⟨⟩
        exact hcoming _ (.inl rfl)
    · split
      · -- A gap, or nothing between the two.
        refine ⟨?_, ?_, h.coming, ?_⟩
        · refine isChain_cons_cons.mpr ⟨rfl, isChain_cons.mpr ⟨hlink, hchain⟩⟩
        · exact forall_mem_cons.mpr ⟨⟨hrange, hmax⟩, hcut⟩
        · rintro _ ⟨⟩
          exact hcoming _ (.inr rfl)
      · rename_i hgap
        have hin : range.range.min < last.range.max := not_le.mp hgap
        have hmid : range.range.min ≤ min last.range.max range.range.max := le_min hin.le hrange.2
        have hdelayed : ∀ r ∈ delayed last range, (r.Valid ∧ r.range.max ≤ bound) ∧
            range.range.min ≤ r.range.min := by
          intro r hr
          obtain ⟨hrmin, hrmax, hrlt⟩ := mem_delayed hlvalid hrange hr
          have hge : range.range.min ≤ r.range.min := hrmin ▸ hmid
          exact ⟨⟨⟨hrange.1.trans hge, hrlt.le⟩, hrmax ▸ max_le hlmax hmax⟩, hge⟩
        split
        · rename_i hmin
          refine ⟨?_, ?_, ?_, ?_⟩
          · exact isChain_cons.mpr ⟨hlink, hchain⟩
          · exact forall_mem_cons.mpr ⟨⟨⟨hlvalid.1, hmin ▸ hmid⟩, (min_le_left ..).trans hlmax⟩, hearlier⟩
          · exact forall_mem_append.mpr ⟨fun r hr => (hdelayed r hr).1, h.coming⟩
          · rintro _ ⟨⟩
            exact forall_mem_append.mpr ⟨fun r hr => hmin ▸ (hdelayed r hr).2, hcoming _ (.inl rfl)⟩
        · have hnew : AbsoluteTimeRange.new range.range.min (min range.range.max last.range.max) =
              ⟨range.range.min, min last.range.max range.range.max⟩ := by
            rw [AbsoluteTimeRange.new, saturatedTemporal_of_le hrange.1, min_comm,
              saturatedTemporal_of_le (hrange.1.trans hmid)]
          rw [hnew]
          refine ⟨?_, ?_, ?_, ?_⟩
          · exact isChain_cons_cons.mpr ⟨rfl, isChain_cons.mpr ⟨hlink, hchain⟩⟩
          · exact forall_mem_cons.mpr ⟨⟨⟨hrange.1, hmid⟩, (min_le_left ..).trans hlmax⟩, hcut⟩
          · exact forall_mem_append.mpr ⟨fun r hr => (hdelayed r hr).1, h.coming⟩
          · rintro _ ⟨⟩
            exact forall_mem_append.mpr ⟨fun r hr => (hdelayed r hr).2, hcoming _ (.inr rfl)⟩

theorem pop {rest : List TimeRange} (h : ranges.Linked bound) (hperm : (range :: rest).Perm ranges.incoming)
    (hfirst : ∀ r ∈ rest, range.range.min ≤ r.range.min) :
    (Ranges.push { ranges with incoming := rest } range).Linked bound ∧
      ((Ranges.push { ranges with incoming := rest } range).incoming.map TimeRange.weight).sum <
        (ranges.incoming.map TimeRange.weight).sum := by
  have hpop := hperm.subset mem_cons_self
  have hrest : Ranges.Linked bound { ranges with incoming := rest } :=
    ⟨h.chain, h.valid, fun r hr => h.coming r (hperm.subset (mem_cons_of_mem _ hr)),
      fun last hl r hr => h.sorted last hl r (hperm.subset (mem_cons_of_mem _ hr))⟩
  obtain ⟨hvalid, hmax⟩ := h.coming range hpop
  refine ⟨hrest.push hvalid hmax (fun last hl => h.sorted last hl range hpop) hfirst, ?_⟩
  have hsum := (hperm.map TimeRange.weight).sum_eq
  rw [← hsum]
  exact push_weight (fun last hl => (h.valid last hl).1) hvalid

/-- With a budget of the weights of all that is to come, the loop ends with nothing to come. -/
theorem drain : ∀ {n : Nat} {ranges : Ranges}, ranges.Linked bound →
    (ranges.incoming.map TimeRange.weight).sum ≤ n →
    (ranges.drain n).Linked bound ∧ (ranges.drain n).incoming = [] := by
  intro n
  induction n with
  | zero =>
    intro ranges h hn
    refine ⟨h, ?_⟩
    cases hi : ranges.incoming with
    | nil => exact hi
    | cons a l =>
      have := a.weight_pos
      rw [hi, map_cons, sum_cons] at hn
      omega
  | succ n ih =>
    intro ranges h hn
    rw [Ranges.drain]
    cases hi : ranges.incoming with
    | nil => exact ⟨h, hi⟩
    | cons a l =>
      have hperm := popFirst_perm a l
      obtain ⟨hlinked, hlt⟩ := h.pop (hi ▸ hperm) fun r hr =>
        popFirst_min_le a l r (hperm.subset (mem_cons_of_mem _ hr))
      exact ih hlinked (by omega)

end Ranges.Linked

theorem mergeRanges_adjacent {bound : TimeInt} {ranges : List TimeRange}
    (h : ∀ r ∈ ranges, r.Valid ∧ r.range.max ≤ bound) :
    (mergeRanges ranges).IsChain (fun a b => a.range.max = b.range.min) ∧
      ∀ r ∈ mergeRanges ranges, r.Valid ∧ r.range.max ≤ bound := by
  have hstart : Ranges.Linked bound ⟨[], ranges⟩ := ⟨by simp, by simp, h, by simp⟩
  obtain ⟨hlinked, -⟩ := hstart.drain (le_refl _)
  exact ⟨isChain_reverse.mpr hlinked.chain, fun r hr => hlinked.valid r (mem_reverse.mp hr)⟩

end Dalaran
