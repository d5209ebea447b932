import Mathlib.Logic.Relation
import Dalaran.Manifest.TimeRangeMerger

/-
  What merged time ranges depend on (`dlr_manifest_index::time_range_merger`).

  A heap gives out some range with the first start; which one of several is not
  specified, and nothing here depends on it. Every run of the loop ends, and what it
  ends with covers the ranges it began with (`merge_covers`).
-/

namespace Dalaran

open List TimeInt OrdSet

/-- A time of a range that is not its end. -/
def TimeRange.Has (r : TimeRange) (t : TimeInt) : Prop := r.range.min ≤ t ∧ t < r.range.max

/-- Some range that is still to come brings the chunk at a time. -/
def Pending (c : ChunkId) (t : TimeInt) (incoming : List TimeRange) : Prop :=
  ∃ r ∈ incoming, c ∈ r.dependsOn ∧ r.Has t

/-- Some range has the chunk, and the time. -/
def Covered (inputs : List TimeRange) (c : ChunkId) (t : TimeInt) : Prop :=
  ∃ i ∈ inputs, c ∈ i.dependsOn ∧ i.range.contains t = true

/-- Some range with the first start is merged. -/
inductive Ranges.Step : Ranges → Ranges → Prop where
  | pop {ranges : Ranges} {range : TimeRange} {rest : List TimeRange} (hperm : (range :: rest).Perm ranges.incoming)
      (hfirst : ∀ r ∈ rest, range.range.min ≤ r.range.min) :
      Step ranges (Ranges.push { ranges with incoming := rest } range)

/-- The start of the first of some ranges, the last one first. -/
def firstMin (last : TimeRange) : List TimeRange → TimeInt
  | [] => last.range.min
  | earlier :: rest => firstMin earlier rest

/-- Where the merging of ranges stands once there is a merged one. -/
structure Merging (inputs : List TimeRange) (last : TimeRange) (earlier incoming : List TimeRange) : Prop where
  ended : ∀ o ∈ earlier, o.range.max ≤ last.range.min
  least : ∀ i ∈ inputs, firstMin last earlier ≤ i.range.min
  leastIn : ∃ i ∈ inputs, i.range.min = firstMin last earlier
  greatest : ∀ i ∈ inputs, ∃ r ∈ last :: incoming, i.range.max ≤ r.range.max
  attained : ∀ r ∈ last :: incoming, ∃ i ∈ inputs, r.range.max ≤ i.range.max
  kept : ∀ i ∈ inputs, ∀ c ∈ i.dependsOn, ∀ t, i.Has t →
    (∀ o ∈ last :: earlier, o.Has t → c ∈ o.dependsOn ∨ Pending c t incoming) ∧
      (last.range.max ≤ t → Pending c t incoming)
  starts : ∀ o ∈ last :: earlier, ∀ c ∈ o.dependsOn, Covered inputs c o.range.min
  within : ∀ r ∈ incoming, ∀ c ∈ r.dependsOn, ∀ t, r.range.min ≤ t → t ≤ r.range.max → Covered inputs c t
  recent : ∀ c ∈ last.dependsOn, ∀ t, (∃ r ∈ incoming, r.range.min ≤ t) → t ≤ last.range.max → Covered inputs c t

/-- What ranges are merged to. -/
structure Merged (inputs out : List TimeRange) : Prop where
  adjacent : out.IsChain fun a b => a.range.max = b.range.min
  valid : ∀ o ∈ out, o.range.min ≤ o.range.max
  nil_iff : out = [] ↔ inputs = []
  first : ∀ o ∈ out.head?, (∃ i ∈ inputs, i.range.min = o.range.min) ∧ ∀ i ∈ inputs, o.range.min ≤ i.range.min
  last : ∀ o ∈ out.getLast?, (∃ i ∈ inputs, i.range.max = o.range.max) ∧ ∀ i ∈ inputs, i.range.max ≤ o.range.max
  covers : ∀ i ∈ inputs, ∀ o ∈ out, max i.range.min o.range.min < min i.range.max o.range.max →
    ∀ c ∈ i.dependsOn, c ∈ o.dependsOn
  sound : ∀ o ∈ out, ∀ c ∈ o.dependsOn, Covered inputs c o.range.min

section Push

variable {inputs earlier rest : List TimeRange} {last range : TimeRange} {c : ChunkId} {t : TimeInt}

theorem pending_cons : Pending c t (range :: rest) ↔ c ∈ range.dependsOn ∧ range.Has t ∨ Pending c t rest := by
  simp [Pending]

theorem mem_delayed_iff (hlast : last.Valid) (hrange : range.Valid) {x : TimeRange} :
    x ∈ delayed last range ↔
      (last.range.max < range.range.max ∧ x = ⟨⟨last.range.max, range.range.max⟩, range.dependsOn⟩) ∨
        (range.range.max < last.range.max ∧ x = ⟨⟨range.range.max, last.range.max⟩, last.dependsOn⟩) := by
  rw [delayed, AbsoluteTimeRange.new, AbsoluteTimeRange.new,
    saturatedTemporal_of_le (hlast.1.trans hlast.2), saturatedTemporal_of_le (hrange.1.trans hrange.2)]
  split
  · next h => simp [h, h.le]
  · next h =>
    split
    · next h' => simp [h, h']
    · next h' => simp [h, h']

theorem Merging.combine (h : Merging inputs last earlier (range :: rest))
    (hfirst : ∀ r ∈ rest, range.range.min ≤ r.range.min) (hle : last.range.min ≤ range.range.min)
    (hdeps : last.dependsOn = range.dependsOn) :
    Merging inputs (last.withMax (max last.range.max range.range.max)) earlier rest where
  ended := h.ended
  least := by
    have := h.least
    cases earlier <;> exact this
  leastIn := by
    have := h.leastIn
    cases earlier <;> exact this
  greatest i hi := by
    obtain ⟨r, hr, hir⟩ := h.greatest i hi
    rcases mem_cons.mp hr with rfl | hr
    · exact ⟨_, mem_cons_self, hir.trans (le_max_left ..)⟩
    · rcases mem_cons.mp hr with rfl | hr
      · exact ⟨_, mem_cons_self, hir.trans (le_max_right ..)⟩
      · exact ⟨r, mem_cons_of_mem _ hr, hir⟩
  attained r hr := by
    rcases mem_cons.mp hr with rfl | hr
    · rcases max_choice last.range.max range.range.max with hmax | hmax
      · exact hmax.symm ▸ h.attained last mem_cons_self
      · exact hmax.symm ▸ h.attained range (by simp)
    · exact h.attained r (by simp [hr])
  kept i hi c hc t ht := by
    obtain ⟨hhas, hafter⟩ := h.kept i hi c hc t ht
    simp only [pending_cons] at hhas hafter
    refine ⟨fun o ho hot => ?_, fun hend => ?_⟩
    · rcases mem_cons.mp ho with rfl | ho
      · show c ∈ last.dependsOn ∨ _
        by_cases hin : t < last.range.max
        · rcases hhas last mem_cons_self ⟨hot.1, hin⟩ with hdep | ⟨hdep, -⟩ | hpending
          · exact .inl hdep
          · exact .inl (hdeps ▸ hdep)
          · exact .inr hpending
        · rcases hafter (not_lt.mp hin) with ⟨hdep, -⟩ | hpending
          · exact .inl (hdeps ▸ hdep)
          · exact .inr hpending
      · rcases hhas o (mem_cons_of_mem _ ho) hot with hdep | ⟨-, hrange⟩ | hpending
        · exact .inl hdep
        · exact absurd (hot.2.trans_le ((h.ended o ho).trans (hle.trans hrange.1))) (lt_irrefl _)
        · exact .inr hpending
    · rcases hafter ((le_max_left ..).trans hend) with ⟨-, hrange⟩ | hpending
      · exact absurd hrange.2 (not_lt.mpr ((le_max_right ..).trans hend))
      · exact hpending
  starts o ho c hc := by
    rcases mem_cons.mp ho with rfl | ho
    · exact h.starts last mem_cons_self c hc
    · exact h.starts o (mem_cons_of_mem _ ho) c hc
  within r hr := h.within r (mem_cons_of_mem _ hr)
  recent c hc t hr ht := by
    obtain ⟨r, hr, hrt⟩ := hr
    have hrange := (hfirst r hr).trans hrt
    rcases le_max_iff.mp ht with ht | ht
    · exact h.recent c hc t ⟨range, mem_cons_self, hrange⟩ ht
    · exact h.within range mem_cons_self c (hdeps ▸ hc) t hrange ht

theorem Merging.extend (h : Merging inputs last earlier (range :: rest))
    (hfirst : ∀ r ∈ rest, range.range.min ≤ r.range.min) (hle : last.range.min ≤ range.range.min)
    (hrange : range.range.min ≤ range.range.max) (hgap : last.range.max ≤ range.range.min) :
    Merging inputs range (last.withMax range.range.min :: earlier) rest where
  ended o ho := by
    rcases mem_cons.mp ho with rfl | ho
    · exact le_refl _
    · exact (h.ended o ho).trans hle
  least := by
    have := h.least
    cases earlier <;> exact this
  leastIn := by
    have := h.leastIn
    cases earlier <;> exact this
  greatest i hi := by
    obtain ⟨r, hr, hir⟩ := h.greatest i hi
    rcases mem_cons.mp hr with rfl | hr
    · exact ⟨range, mem_cons_self, hir.trans (hgap.trans hrange)⟩
    · exact ⟨r, hr, hir⟩
  attained r hr := h.attained r (mem_cons_of_mem _ hr)
  kept i hi c hc t ht := by
    obtain ⟨hhas, hafter⟩ := h.kept i hi c hc t ht
    simp only [pending_cons] at hhas hafter
    refine ⟨fun o ho hot => ?_, fun hend => ?_⟩
    · rcases mem_cons.mp ho with rfl | ho
      · exact (hafter (hgap.trans hot.1)).imp_left And.left
      · -- Nothing that is still to come, and so nothing there was, lies in the gap.
        have hbefore : t < range.range.min := by
          rcases mem_cons.mp ho with rfl | ho
          · exact hot.2
          · exact hot.2.trans_le ((h.ended o ho).trans hle)
        have hnone : ¬ Pending c t rest := by
          rintro ⟨r, hr, -, hrt⟩
          exact absurd hbefore (not_lt.mpr ((hfirst r hr).trans hrt.1))
        have hnot : ¬ (c ∈ range.dependsOn ∧ range.Has t) := fun hr => absurd hbefore (not_lt.mpr hr.2.1)
        rcases mem_cons.mp ho with rfl | ho
        · have hin : t < last.range.max := by
            by_contra hout
            exact (hafter (not_lt.mp hout)).elim hnot hnone
          exact (hhas last mem_cons_self ⟨hot.1, hin⟩).imp_right fun hp => hp.resolve_left hnot
        · exact (hhas o (mem_cons_of_mem _ ho) hot).imp_right fun hp => hp.resolve_left hnot
    · rcases hafter (hgap.trans (hrange.trans hend)) with ⟨-, hr⟩ | hpending
      · exact absurd hr.2 (not_lt.mpr hend)
      · exact hpending
  starts o ho c hc := by
    rcases mem_cons.mp ho with rfl | ho
    · exact h.within o mem_cons_self c hc _ (le_refl _) hrange
    · rcases mem_cons.mp ho with rfl | ho
      · exact h.starts last mem_cons_self c hc
      · exact h.starts o (mem_cons_of_mem _ ho) c hc
  within r hr := h.within r (mem_cons_of_mem _ hr)
  recent c hc t hr ht := by
    obtain ⟨r, hr, hrt⟩ := hr
    exact h.within range mem_cons_self c hc t ((hfirst r hr).trans hrt) ht

/-- The range begins within the last one: what both have is merged, what only the last one has
before it is split off, and what only one of them has after it is put back. -/
theorem Merging.cut (h : Merging inputs last earlier (range :: rest)) (hlast : last.Valid) (hrange : range.Valid)
    (hfirst : ∀ r ∈ rest, range.range.min ≤ r.range.min) (hle : last.range.min ≤ range.range.min)
    (hin : range.range.min < last.range.max) {before : List TimeRange}
    (hbefore : before = [] ∧ last.range.min = range.range.min ∨ before = [last.withMax range.range.min]) :
    Merging inputs
      ⟨⟨range.range.min, min last.range.max range.range.max⟩, last.dependsOn.union range.dependsOn⟩
      (before ++ earlier) (delayed last range ++ rest) := by
  have hmem : ∀ o ∈ before ++ earlier, o = last.withMax range.range.min ∨ o ∈ earlier := by
    intro o ho
    rcases mem_append.mp ho with ho | ho
    · rcases hbefore with ⟨rfl, -⟩ | rfl
      · cases ho
      · exact .inl (mem_singleton.mp ho)
    · exact .inr ho
  have hfirstMin : firstMin ⟨⟨range.range.min, min last.range.max range.range.max⟩,
      last.dependsOn.union range.dependsOn⟩ (before ++ earlier) = firstMin last earlier := by
    rcases hbefore with ⟨rfl, hmin⟩ | rfl
    · cases earlier with
      | nil => exact hmin.symm
      | cons => rfl
    · cases earlier <;> rfl
  have hdelayed : ∀ r ∈ delayed last range, range.range.min ≤ r.range.min := by
    intro r hr
    rcases (mem_delayed_iff hlast hrange).mp hr with ⟨-, rfl⟩ | ⟨-, rfl⟩
    · exact hin.le
    · exact hrange.2
  have hlastCovered : ∀ c ∈ last.dependsOn, ∀ t, range.range.min ≤ t → t ≤ last.range.max → Covered inputs c t :=
    fun c hc t ht => h.recent c hc t ⟨range, mem_cons_self, ht⟩
  have hrangeCovered := h.within range mem_cons_self
  refine ⟨fun o ho => ?_, ?_, ?_, fun i hi => ?_, fun r hr => ?_, fun i hi c hc t ht => ?_, fun o ho c hc => ?_,
    fun r hr c hc t hrt htr => ?_, fun c hc t hr ht => ?_⟩
  · rcases hmem o ho with rfl | ho
    · exact le_refl _
    · exact (h.ended o ho).trans hle
  · rw [hfirstMin]
    exact h.least
  · rw [hfirstMin]
    exact h.leastIn
  · obtain ⟨r, hr, hir⟩ := h.greatest i hi
    have hboth : r.range.max ≤ max last.range.max range.range.max ∨ r ∈ rest := by
      rcases mem_cons.mp hr with rfl | hr
      · exact .inl (le_max_left ..)
      · rcases mem_cons.mp hr with rfl | hr
        · exact .inl (le_max_right ..)
        · exact .inr hr
    rcases hboth with hmax | hr
    · rcases lt_trichotomy last.range.max range.range.max with hlt | heq | hlt
      · refine ⟨_, mem_cons_of_mem _ (mem_append_left _
          ((mem_delayed_iff hlast hrange).mpr (.inl ⟨hlt, rfl⟩))), hir.trans (hmax.trans_eq (max_eq_right hlt.le))⟩
      · refine ⟨_, mem_cons_self, hir.trans (hmax.trans ?_)⟩
        show max _ _ ≤ min _ _
        rw [heq, max_self, min_self]
      · refine ⟨_, mem_cons_of_mem _ (mem_append_left _
          ((mem_delayed_iff hlast hrange).mpr (.inr ⟨hlt, rfl⟩))), hir.trans (hmax.trans_eq (max_eq_left hlt.le))⟩
    · exact ⟨r, by simp [hr], hir⟩
  · have hl := h.attained last mem_cons_self
    have hr' := h.attained range (by simp)
    rcases mem_cons.mp hr with rfl | hr
    · exact hl.imp fun i hi => ⟨hi.1, (min_le_left ..).trans hi.2⟩
    · rcases mem_append.mp hr with hr | hr
      · rcases (mem_delayed_iff hlast hrange).mp hr with ⟨-, rfl⟩ | ⟨-, rfl⟩
        · exact hr'
        · exact hl
      · exact h.attained r (by simp [hr])
  · obtain ⟨hhas, hafter⟩ := h.kept i hi c hc t ht
    simp only [pending_cons] at hhas hafter
    have happend : Pending c t rest → Pending c t (delayed last range ++ rest) := fun ⟨r, hr, hp⟩ =>
      ⟨r, mem_append_right _ hr, hp⟩
    refine ⟨fun o ho hot => ?_, fun hend => ?_⟩
    · rcases mem_cons.mp ho with rfl | ho
      · rcases hhas last mem_cons_self ⟨hle.trans hot.1, hot.2.trans_le (min_le_left ..)⟩ with
          hdep | ⟨hdep, -⟩ | hp
        · exact .inl (mem_union.mpr (.inl hdep))
        · exact .inl (mem_union.mpr (.inr hdep))
        · exact .inr (happend hp)
      · have hold : t < range.range.min ∧ (c ∈ o.dependsOn ∨ c ∈ range.dependsOn ∧ range.Has t ∨ Pending c t rest) := by
          rcases hmem o ho with rfl | ho
          · exact ⟨hot.2, hhas last mem_cons_self ⟨hot.1, hot.2.trans hin⟩⟩
          · exact ⟨hot.2.trans_le ((h.ended o ho).trans hle), hhas o (mem_cons_of_mem _ ho) hot⟩
        rcases hold.2 with hdep | ⟨-, hr⟩ | hp
        · exact .inl hdep
        · exact absurd hold.1 (not_lt.mpr hr.1)
        · exact .inr (happend hp)
    · by_cases hout : last.range.max ≤ t
      · rcases hafter hout with ⟨hdep, hr⟩ | hp
        · exact ⟨_, mem_append_left _ ((mem_delayed_iff hlast hrange).mpr
            (.inl ⟨hout.trans_lt hr.2, rfl⟩)), hdep, hout, hr.2⟩
        · exact happend hp
      · have hrt : range.range.max ≤ t := (min_le_iff.mp hend).resolve_left hout
        rcases hhas last mem_cons_self ⟨hle.trans (hrange.2.trans hrt), not_le.mp hout⟩ with
          hdep | ⟨-, hr⟩ | hp
        · exact ⟨_, mem_append_left _ ((mem_delayed_iff hlast hrange).mpr
            (.inr ⟨hrt.trans_lt (not_le.mp hout), rfl⟩)), hdep, hrt, not_le.mp hout⟩
        · exact absurd hr.2 (not_lt.mpr hrt)
        · exact happend hp
  · rcases mem_cons.mp ho with rfl | ho
    · rcases mem_union.mp hc with hc | hc
      · exact hlastCovered c hc _ (le_refl _) hin.le
      · exact hrangeCovered c hc _ (le_refl _) hrange.2
    · rcases hmem o ho with rfl | ho
      · exact h.starts last mem_cons_self c hc
      · exact h.starts o (mem_cons_of_mem _ ho) c hc
  · rcases mem_append.mp hr with hr | hr
    · rcases (mem_delayed_iff hlast hrange).mp hr with ⟨-, rfl⟩ | ⟨-, rfl⟩
      · exact hrangeCovered c hc t (hin.le.trans hrt) htr
      · exact hlastCovered c hc t (hrange.2.trans hrt) htr
    · exact h.within r (mem_cons_of_mem _ hr) c hc t hrt htr
  · obtain ⟨r, hr, hrt⟩ := hr
    have hge : range.range.min ≤ t := by
      rcases mem_append.mp hr with hr | hr
      · exact (hdelayed r hr).trans hrt
      · exact (hfirst r hr).trans hrt
    rcases mem_union.mp hc with hc | hc
    · exact hlastCovered c hc t hge (ht.trans (min_le_left ..))
    · exact hrangeCovered c hc t hge (ht.trans (min_le_right ..))

theorem Merging.perm {incoming incoming' : List TimeRange} (h : Merging inputs last earlier incoming)
    (hperm : incoming'.Perm incoming) : Merging inputs last earlier incoming' := by
  have hmem : ∀ r, r ∈ incoming' ↔ r ∈ incoming := fun r => hperm.mem_iff
  obtain ⟨hended, hleast, hleastIn, hgreatest, hattained, hkept, hstarts, hwithin, hrecent⟩ := h
  simp only [mem_cons, Pending, ← hmem] at hgreatest hattained hkept hwithin hrecent
  refine ⟨hended, hleast, hleastIn, ?_, ?_, ?_, hstarts, hwithin, hrecent⟩
  · simpa only [mem_cons] using hgreatest
  · simpa only [mem_cons] using hattained
  · simpa only [mem_cons, Pending] using hkept

theorem Merging.start (hvalid : ∀ r ∈ inputs, r.Valid) (hperm : (range :: rest).Perm inputs)
    (hfirst : ∀ r ∈ rest, range.range.min ≤ r.range.min) : Merging inputs range [] rest := by
  have hmem : ∀ i, i ∈ inputs ↔ i = range ∨ i ∈ rest := fun i => hperm.mem_iff.symm.trans mem_cons
  have hrange := (hmem range).mpr (.inl rfl)
  have hcontains : ∀ i ∈ inputs, ∀ c ∈ i.dependsOn, ∀ t, i.range.min ≤ t → t ≤ i.range.max → Covered inputs c t :=
    fun i hi c hc t hmin hmax => ⟨i, hi, hc, by simp [AbsoluteTimeRange.contains, hmin, hmax]⟩
  refine ⟨by simp, fun i hi => ?_, ⟨range, hrange, rfl⟩, fun i hi => ?_, fun r hr => ?_, fun i hi c hc t ht => ?_,
    fun o ho c hc => ?_, fun r hr => hcontains r ((hmem r).mpr (.inr hr)), fun c hc t hr ht => ?_⟩
  · rcases (hmem i).mp hi with rfl | hi
    · exact le_refl _
    · exact hfirst i hi
  · exact ⟨i, mem_cons.mpr ((hmem i).mp hi), le_refl _⟩
  · exact ⟨r, (hmem r).mpr (mem_cons.mp hr), le_refl _⟩
  · rcases (hmem i).mp hi with rfl | hi
    · exact ⟨fun o ho _ => .inl (mem_singleton.mp ho ▸ hc), fun hend => absurd ht.2 (not_lt.mpr hend)⟩
    · exact ⟨fun _ _ _ => .inr ⟨i, hi, hc, ht⟩, fun _ => ⟨i, hi, hc, ht⟩⟩
  · obtain rfl := mem_singleton.mp ho
    exact hcontains o hrange c hc _ (le_refl _) (hvalid o hrange).2
  · obtain ⟨r, hr, hrt⟩ := hr
    exact hcontains range hrange c hc t ((hfirst r hr).trans hrt) ht

end Push

/-! ## Every run -/

section Runs

variable {inputs : List TimeRange} {ranges next : Ranges}

def Standing (inputs : List TimeRange) (ranges : Ranges) : Prop :=
  match ranges.new with
  | [] => ranges.incoming.Perm inputs
  | last :: earlier => Merging inputs last earlier ranges.incoming

theorem Standing.step (hvalid : ∀ r ∈ inputs, r.Valid) (hlinked : ranges.Linked TimeInt.MAX)
    (h : Standing inputs ranges) (hstep : ranges.Step next) : Standing inputs next := by
  obtain ⟨hperm, hfirst⟩ := hstep
  rename_i range rest
  have hrange := (hlinked.coming range (hperm.subset mem_cons_self)).1
  unfold Standing at h
  cases hnew : ranges.new with
  | nil =>
    rw [hnew] at h
    exact Merging.start hvalid (hperm.trans h) hfirst
  | cons last earlier =>
    rw [hnew] at h
    have h := h.perm hperm
    have hlast := (hlinked.valid last (by simp [hnew])).1
    have hle := hlinked.sorted last (by simp [hnew]) range (hperm.subset mem_cons_self)
    rw [Ranges.push]
    simp only
    by_cases hdeps : last.dependsOn = range.dependsOn
    · rw [if_pos hdeps]
      exact h.combine hfirst hle hdeps
    · rw [if_neg hdeps]
      by_cases hgap : last.range.max ≤ range.range.min
      · rw [if_pos hgap]
        exact h.extend hfirst hle hrange.2 hgap
      · rw [if_neg hgap]
        have hin := not_le.mp hgap
        by_cases hmin : last.range.min = range.range.min
        · rw [if_pos hmin]
          show Merging inputs ⟨⟨last.range.min, _⟩, _⟩ earlier _
          rw [hmin]
          exact h.cut hlast hrange hfirst hle hin (.inl ⟨rfl, hmin⟩)
        · rw [if_neg hmin, AbsoluteTimeRange.new, saturatedTemporal_of_le hrange.1, min_comm,
            saturatedTemporal_of_le (hrange.1.trans (le_min hin.le hrange.2))]
          exact h.cut hlast hrange hfirst hle hin (.inr rfl)

theorem getLast?_firstMin (last : TimeRange) (earlier : List TimeRange) :
    ∀ o ∈ (last :: earlier).getLast?, o.range.min = firstMin last earlier := by
  induction earlier generalizing last with
  | nil =>
    rintro o ⟨⟩
    rfl
  | cons a earlier ih =>
    intro o ho
    exact ih a o ho

theorem Standing.merged (h : Standing inputs ranges) (hlinked : ranges.Linked TimeInt.MAX)
    (hdone : ranges.incoming = []) : Merged inputs ranges.new.reverse := by
  have hvalid : ∀ o ∈ ranges.new.reverse, o.range.min ≤ o.range.max := fun o ho =>
    (hlinked.valid o (mem_reverse.mp ho)).1.2
  have hchain := isChain_reverse.mpr hlinked.chain
  unfold Standing at h
  rw [hdone] at h
  cases hnew : ranges.new with
  | nil =>
    rw [hnew] at h
    obtain rfl := Perm.nil_eq h
    exact ⟨isChain_nil, by simp, by simp, by simp, by simp, by simp, by simp⟩
  | cons last earlier =>
    rw [hnew] at h hvalid hchain
    refine ⟨hchain, hvalid, ?_, fun o ho => ?_, fun o ho => ?_, fun i hi o ho hover c hc => ?_, fun o ho c hc => ?_⟩
    · obtain ⟨i, hi, -⟩ := h.leastIn
      exact ⟨fun h => by simp at h, fun h => by simp [h] at hi⟩
    · rw [List.head?_reverse] at ho
      rw [getLast?_firstMin last earlier o ho]
      exact ⟨h.leastIn, h.least⟩
    · rw [List.getLast?_reverse] at ho
      cases ho
      have hgreatest : ∀ i ∈ inputs, i.range.max ≤ last.range.max := by
        intro i hi
        obtain ⟨r, hr, hir⟩ := h.greatest i hi
        exact mem_singleton.mp hr ▸ hir
      obtain ⟨i, hi, hle⟩ := h.attained last mem_cons_self
      exact ⟨⟨i, hi, le_antisymm (hgreatest i hi) hle⟩, hgreatest⟩
    · obtain ⟨hmin, hmax⟩ := lt_min_iff.mp hover
      have hkept := (h.kept i hi c hc _ ⟨le_max_left .., hmin⟩).1 o (mem_reverse.mp ho) ⟨le_max_right .., hmax⟩
      apply hkept.resolve_right
      rintro ⟨r, hr, -⟩
      cases hr
    · exact h.starts o (mem_reverse.mp ho) c hc

theorem Ranges.Linked.step (h : ranges.Linked TimeInt.MAX) (hstep : ranges.Step next) :
    next.Linked TimeInt.MAX ∧
      (next.incoming.map TimeRange.weight).sum < (ranges.incoming.map TimeRange.weight).sum := by
  obtain ⟨hperm, hfirst⟩ := hstep
  exact h.pop hperm hfirst

theorem Ranges.Linked.acc (h : ranges.Linked TimeInt.MAX) : Acc (fun b a => Ranges.Step a b) ranges := by
  induction hn : (ranges.incoming.map TimeRange.weight).sum using Nat.strong_induction_on generalizing ranges with
  | _ n ih =>
    apply Acc.intro
    intro next hstep
    obtain ⟨hlinked, hlt⟩ := h.step hstep
    exact ih _ (hn ▸ hlt) hlinked rfl

theorem step_popFirst {a : TimeRange} {l : List TimeRange} (h : ranges.incoming = a :: l) :
    ranges.Step (Ranges.push { ranges with incoming := (popFirst a l).2 } (popFirst a l).1) :=
  .pop (h ▸ popFirst_perm a l) fun r hr =>
    popFirst_min_le a l r ((popFirst_perm a l).subset (mem_cons_of_mem _ hr))

theorem drain_run (n : Nat) (ranges : Ranges) : Relation.ReflTransGen Ranges.Step ranges (ranges.drain n) := by
  induction n generalizing ranges with
  | zero => exact .refl
  | succ n ih =>
    rw [Ranges.drain]
    cases hi : ranges.incoming with
    | nil => exact .refl
    | cons a l => exact .head (step_popFirst hi) (ih _)

/-- Every run of the loop ends, and what it ends with is merged; so is what the loop gives here. -/
theorem merge_covers (h : ∀ r ∈ inputs, r.Valid) :
    Acc (fun b a => Ranges.Step a b) ⟨[], inputs⟩ ∧
      (∀ ranges, Relation.ReflTransGen Ranges.Step ⟨[], inputs⟩ ranges →
        if ranges.incoming = [] then Merged inputs ranges.new.reverse else ∃ next, ranges.Step next) ∧
      Merged inputs (mergeRanges inputs) := by
  have hstart : Ranges.Linked TimeInt.MAX ⟨[], inputs⟩ :=
    ⟨by simp, by simp, fun r hr => ⟨h r hr, le_MAX _⟩, by simp⟩
  have hrun : ∀ ranges, Relation.ReflTransGen Ranges.Step ⟨[], inputs⟩ ranges →
      ranges.Linked TimeInt.MAX ∧ Standing inputs ranges := by
    intro ranges hrun
    induction hrun with
    | refl => exact ⟨hstart, Perm.refl _⟩
    | tail _ hstep ih => exact ⟨(ih.1.step hstep).1, ih.2.step h ih.1 hstep⟩
  refine ⟨hstart.acc, fun ranges hreached => ?_, ?_⟩
  · obtain ⟨hlinked, hstanding⟩ := hrun ranges hreached
    split
    · next hdone => exact hstanding.merged hlinked hdone
    · next hnot =>
      obtain ⟨a, l, hi⟩ := exists_cons_of_ne_nil hnot
      exact ⟨_, step_popFirst hi⟩
  · obtain ⟨hlinked, hstanding⟩ := hrun _ (drain_run _ ⟨[], inputs⟩)
    exact hstanding.merged hlinked (hstart.drain (le_refl _)).2

end Runs

def overlappingRanges : List TimeRange :=
  [.new 1 ⟨⟨.sat 0⟩, ⟨.sat 20⟩⟩, .new 2 ⟨⟨.sat 10⟩, ⟨.sat 30⟩⟩, .new 3 ⟨⟨.sat 20⟩, ⟨.sat 40⟩⟩]

/-- Their ends are cut off and come again later. -/
theorem merge_covers_overlapping : Merged overlappingRanges (mergeRanges overlappingRanges) ∧
    mergeRanges overlappingRanges =
      [⟨⟨⟨.sat 0⟩, ⟨.sat 10⟩⟩, OrdSet.ofList [1]⟩, ⟨⟨⟨.sat 10⟩, ⟨.sat 20⟩⟩, OrdSet.ofList [1, 2]⟩,
        ⟨⟨⟨.sat 20⟩, ⟨.sat 30⟩⟩, OrdSet.ofList [2, 3]⟩, ⟨⟨⟨.sat 30⟩, ⟨.sat 40⟩⟩, OrdSet.ofList [3]⟩] := by
  have hvalid : ∀ r ∈ overlappingRanges, r.Valid := by
    unfold overlappingRanges TimeRange.Valid
    decide
  refine ⟨(merge_covers hvalid).2.2, ?_⟩
  rfl

end Dalaran
