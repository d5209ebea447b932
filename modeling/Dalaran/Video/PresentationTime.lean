import Dalaran.Base.I64
import Dalaran.Video.StableIndexDeque
import Mathlib.Data.List.TakeWhile
import Mathlib.Data.Set.Finite.Lemmas

/-
  The sample of a presentation time (`dl_video::demux`).

  Samples are kept in decode order, and their presentation times may be in another one.
  The search goes backwards from the last sample that is decoded by the given time, and
  keeps the best sample it has seen. It stops at a sample that has the highest
  presentation time so far once it has a best one, although the sample itself may be
  later than the given time (`lookup_iff`).

  Correspondence (Rust ↔ Lean):
    `Time` ↔ `I64`
    `decode_timestamp`, `presentation_timestamp` ↔ `dts`, `pts`
    `latest_sample_index_at_presentation_timestamp_internal` ↔
      `latestSampleIndexAtPresentationTimestamp`
  An index out of bounds panics, which is `none`.
-/

namespace Dalaran.Video

open List Option StableIndexDeque

structure SampleMetadata where
  dts : I64
  pts : I64
  deriving DecidableEq

inductive SampleMetadataState where
  | present (sample : SampleMetadata)
  | unloaded (minDts : I64)

namespace SampleMetadataState

def sample : SampleMetadataState → Option SampleMetadata
  | present sample => some sample
  | unloaded _ => none

def dts : SampleMetadataState → I64
  | present sample => sample.dts
  | unloaded minDts => minDts

def isUnloaded : SampleMetadataState → Bool
  | present _ => false
  | unloaded _ => true

end SampleMetadataState

structure SamplesStatistics where
  dtsAlwaysEqualPts : Bool
  hasSampleHighestPtsSoFar : Option (List Bool)

/-- Whether each sample is later than all those before it. -/
def highestPtsSoFar (biggestPtsSoFar : I64) : List SampleMetadataState → List Bool
  | [] => []
  | .present sample :: samples =>
    if biggestPtsSoFar < sample.pts then
      true :: highestPtsSoFar sample.pts samples
    else false :: highestPtsSoFar biggestPtsSoFar samples
  | .unloaded _ :: samples => false :: highestPtsSoFar biggestPtsSoFar samples

def SamplesStatistics.new (samples : StableIndexDeque SampleMetadataState) : SamplesStatistics :=
  let dtsAlwaysEqualPts := (samples.vec.filterMap SampleMetadataState.sample).all fun s =>
    decide (s.dts = s.pts)
  { dtsAlwaysEqualPts
    hasSampleHighestPtsSoFar := if dtsAlwaysEqualPts then none else some (highestPtsSoFar I64.MIN samples.vec) }

/-- The last sample that is decoded by the given time. -/
def latestSampleIndexAtDecodeTimestamp (samples : StableIndexDeque SampleMetadataState) (decodeTime : I64) :
    Option Nat := do
  let idx ← subtract (samples.partitionPoint fun sample => decide (sample.dts ≤ decodeTime)) 1
  if samples.minIndex ≤ idx then some idx else none

/-- The backward search through as many samples from the first one on. -/
def searchBackwards (samples : StableIndexDeque SampleMetadataState) (hasSampleHighestPtsSoFar : List Bool)
    (presentationTimestamp : I64) : Nat → Nat → I64 → Option (Except (Option Nat) Nat)
  | 0, _, _ => some (.error none)
  | n + 1, bestIndex, bestPts => do
    let sampleIdx := samples.minIndex + n
    match (← samples.get sampleIdx).sample with
    | none => some (.error (some sampleIdx))
    | some sample =>
      if sample.pts = presentationTimestamp then some (.ok sampleIdx)
      else
        let better := sample.pts < presentationTimestamp ∧ bestPts < sample.pts
        let bestIndex := if better then sampleIdx else bestIndex
        let bestPts := if better then sample.pts else bestPts
        if bestPts ≠ I64.MIN then
          if (← hasSampleHighestPtsSoFar[sampleIdx - samples.minIndex]?) then some (.ok bestIndex)
          else searchBackwards samples hasSampleHighestPtsSoFar presentationTimestamp n bestIndex bestPts
        else searchBackwards samples hasSampleHighestPtsSoFar presentationTimestamp n bestIndex bestPts

def latestSampleIndexAtPresentationTimestamp (samples : StableIndexDeque SampleMetadataState)
    (sampleStatistics : SamplesStatistics) (presentationTimestamp : I64) : Option (Except (Option Nat) Nat) :=
  match latestSampleIndexAtDecodeTimestamp samples presentationTimestamp with
  | none => some (.error none)
  | some decodeSampleIdx =>
    if (samples.get decodeSampleIdx).any SampleMetadataState.isUnloaded then some (.error (some decodeSampleIdx))
    else
      match sampleStatistics.hasSampleHighestPtsSoFar with
      | none => some (.ok decodeSampleIdx)
      | some hasSampleHighestPtsSoFar =>
        searchBackwards samples hasSampleHighestPtsSoFar presentationTimestamp
          (decodeSampleIdx + 1 - samples.minIndex) (2 ^ 64 - 1) I64.MIN

/-! ## Loaded samples -/

def loaded (minIndex : Nat) (samples : List SampleMetadata) : StableIndexDeque SampleMetadataState :=
  ⟨samples.map .present, minIndex⟩

/-- The search in them, with their own statistics. -/
def lookup (minIndex : Nat) (samples : List SampleMetadata) (t : I64) : Option (Except (Option Nat) Nat) :=
  latestSampleIndexAtPresentationTimestamp (loaded minIndex samples) (SamplesStatistics.new (loaded minIndex samples)) t

/-- Samples in decode order, each decoded before it is presented, at times of their own. -/
structure DecodeOrder (samples : List SampleMetadata) : Prop where
  sorted : samples.Pairwise fun a b => a.dts ≤ b.dts
  le : ∀ s ∈ samples, s.dts ≤ s.pts
  distinct : (samples.map SampleMetadata.pts).Nodup

/-- The last sample that is presented by a time. -/
structure Latest (samples : List SampleMetadata) (t : I64) (m : SampleMetadata) : Prop where
  le : m.pts ≤ t
  max : ∀ s ∈ samples, s.pts ≤ t → s.pts ≤ m.pts

/-- The index of the latest sample, or no index if there is no such sample. -/
def Answers (minIndex : Nat) (samples : List SampleMetadata) (t : I64) (answer : Option (Except (Option Nat) Nat)) :
    Prop :=
  (∀ before m after, samples = before ++ m :: after → Latest samples t m →
    answer = some (.ok (minIndex + before.length))) ∧
    (answer = some (.error none) ↔ ∀ s ∈ samples, t < s.pts)

/-- A sample that is later than all those before it has samples by the time on both sides of
it only if the latest one by the time is not before it. -/
def NoEarlyStop (samples : List SampleMetadata) (t : I64) : Prop :=
  ∀ before s after, samples = before ++ s :: after → (∀ x ∈ before, x.pts < s.pts) →
    ∀ b ∈ after, I64.MIN < b.pts → b.pts ≤ t →
    ∀ c ∈ before, c.pts ≤ t → ∃ x ∈ s :: after, c.pts < x.pts ∧ x.pts ≤ t

theorem forall_split_iff {samples : List SampleMetadata}
    {P : List SampleMetadata → SampleMetadata → List SampleMetadata → Prop} :
    (∀ before s after, samples = before ++ s :: after → P before s after) ↔
      ∀ i, (h : i < samples.length) → P (samples.take i) samples[i] (samples.drop (i + 1)) := by
  constructor
  · intro h i hi
    apply h
    rw [List.getElem_cons_drop, take_append_drop]
  · rintro h before s after rfl
    simpa using h before.length (by simp)

instance (samples : List SampleMetadata) (t : I64) : Decidable (NoEarlyStop samples t) :=
  decidable_of_iff _ forall_split_iff.symm

/-- The least time is asked for itself, or is not the latest by the one that is. -/
def NotMin (samples : List SampleMetadata) (t : I64) : Prop :=
  ∀ s ∈ samples, s.pts = I64.MIN → t = I64.MIN ∨ ∃ x ∈ samples, I64.MIN < x.pts ∧ x.pts ≤ t

instance (samples : List SampleMetadata) (t : I64) : Decidable (NotMin samples t) :=
  inferInstanceAs (Decidable (∀ s ∈ samples, s.pts = I64.MIN → _))

section Search

variable {minIndex : Nat} {samples : List SampleMetadata} {t : I64}

theorem highestPtsSoFar_getElem? (b : I64) (before : List SampleMetadata) (s : SampleMetadata)
    (after : List SampleMetadata) :
    (highestPtsSoFar b ((before ++ s :: after).map .present))[before.length]? =
      some (decide (b < s.pts ∧ ∀ x ∈ before, x.pts < s.pts)) := by
  induction before generalizing b with
  | nil =>
    rw [nil_append, map_cons, highestPtsSoFar]
    by_cases h : b < s.pts
    · simp [h]
    · simp [h]
  | cons x before ih =>
    rw [cons_append, map_cons, highestPtsSoFar]
    by_cases h : b < x.pts
    · rw [if_pos h, length_cons, List.getElem?_cons_succ, ih, some_inj, decide_eq_decide, forall_mem_cons]
      exact ⟨fun hx => ⟨h.trans hx.1, hx⟩, fun hx => hx.2⟩
    · rw [if_neg h, length_cons, List.getElem?_cons_succ, ih, some_inj, decide_eq_decide, forall_mem_cons]
      exact ⟨fun hx => ⟨hx.1, (not_lt.mp h).trans_lt hx.1, hx.2⟩, fun hx => ⟨hx.1, hx.2.2⟩⟩

def search (minIndex : Nat) (samples : List SampleMetadata) (t : I64) :
    Nat → Nat → I64 → Option (Except (Option Nat) Nat) :=
  searchBackwards (loaded minIndex samples) (highestPtsSoFar I64.MIN (samples.map .present)) t

def Highest (before : List SampleMetadata) (s : SampleMetadata) : Prop :=
  I64.MIN < s.pts ∧ ∀ x ∈ before, x.pts < s.pts

variable {after before : List SampleMetadata}

variable (minIndex t) in
/-- One step of the search, at the sample between those before and those after it: it is the
one, or the best one is it or the one there was, and then the search stops or goes on. -/
theorem search_step {s : SampleMetadata} (hsamples : samples = before ++ [s] ++ after) (bestIndex : Nat)
    (bestPts : I64) :
    s.pts = t ∧ search minIndex samples t (before ++ [s]).length bestIndex bestPts =
        some (.ok (minIndex + before.length)) ∨
      s.pts ≠ t ∧ ∃ index pts,
        (s.pts < t ∧ bestPts < s.pts ∧ index = minIndex + before.length ∧ pts = s.pts ∨
          (s.pts < t → s.pts ≤ bestPts) ∧ index = bestIndex ∧ pts = bestPts) ∧
        (pts ≠ I64.MIN ∧ Highest before s ∧
            search minIndex samples t (before ++ [s]).length bestIndex bestPts = some (.ok index) ∨
          ¬(pts ≠ I64.MIN ∧ Highest before s) ∧
            search minIndex samples t (before ++ [s]).length bestIndex bestPts =
              search minIndex samples t before.length index pts) := by
  have hsplit : samples = before ++ s :: after := by rw [hsamples, append_assoc, singleton_append]
  have hget : (loaded minIndex samples).get ((loaded minIndex samples).minIndex + before.length) =
      some (.present s) := by
    show (loaded minIndex samples).get ((loaded minIndex samples).indexOffset + before.length) = _
    rw [get_add, loaded, hsplit]
    simp
  have hbit := highestPtsSoFar_getElem? I64.MIN before s after
  rw [← hsplit] at hbit
  rw [search, length_append, length_singleton, searchBackwards]
  simp only [hget, bind, Option.bind, SampleMetadataState.sample, Nat.add_sub_cancel_left, hbit, decide_eq_true_eq]
  rw [show (loaded minIndex samples).minIndex = minIndex from rfl]
  by_cases hexact : s.pts = t
  · exact .inl ⟨hexact, if_pos hexact⟩
  · refine .inr ⟨hexact, if s.pts < t ∧ bestPts < s.pts then
      minIndex + before.length else bestIndex, if s.pts < t ∧ bestPts < s.pts
      then s.pts else bestPts, ?_, ?_⟩
    · by_cases hbetter : s.pts < t ∧ bestPts < s.pts
      · exact .inl ⟨hbetter.1, hbetter.2, if_pos hbetter, if_pos hbetter⟩
      · exact .inr ⟨fun hlt => not_lt.mp fun h => hbetter ⟨hlt, h⟩, if_neg hbetter, if_neg hbetter⟩
    · rw [if_neg hexact]
      generalize (if s.pts < t ∧ bestPts < s.pts then minIndex + before.length
        else bestIndex) = index
      generalize (if s.pts < t ∧ bestPts < s.pts then s.pts
        else bestPts) = pts
      by_cases hstop : pts ≠ I64.MIN ∧ Highest before s
      · rw [if_pos hstop.1]
        exact .inl ⟨hstop.1, hstop.2, if_pos hstop.2⟩
      · apply Or.inr
        apply And.intro hstop
        by_cases hbest : pts = I64.MIN
        · exact if_neg (not_not.mpr hbest)
        · rw [if_pos hbest]
          exact if_neg fun h => hstop ⟨hbest, h⟩

variable (minIndex) in
theorem search_eq_none (hsamples : samples = before ++ after)
    (hnone : ∀ x ∈ before, x.pts ≤ t → x.pts = I64.MIN ∧ t ≠ I64.MIN)
    (bestIndex : Nat) : search minIndex samples t before.length bestIndex I64.MIN = some (.error none) := by
  induction before using reverseRecOn generalizing after with
  | nil => rfl
  | append_singleton before s ih =>
    have hs := hnone s (mem_append_right _ (mem_singleton_self s))
    rcases search_step minIndex t hsamples bestIndex I64.MIN with
      ⟨hexact, -⟩ | ⟨-, index, pts, hbest, hstop⟩
    · exact absurd (hexact ▸ (hs hexact.le).1) (hs hexact.le).2
    · rcases hbest with ⟨hlt, hmin, -, -⟩ | ⟨-, rfl, rfl⟩
      · exact absurd (hs hlt.le).1 hmin.ne'
      · rcases hstop with ⟨hne, -, -⟩ | ⟨-, hsearch⟩
        · exact absurd rfl hne
        · rw [hsearch]
          exact ih (by rw [hsamples, append_assoc]) fun x hx => hnone x (mem_append_left _ hx)

theorem search_eq_best (hsamples : samples = before ++ after) {bestPts : I64} (hbestPts : bestPts ≠ I64.MIN)
    (hlt : bestPts < t) (hbest : ∀ x ∈ before, x.pts ≤ t → x.pts ≤ bestPts) (hex : ∃ x ∈ before, I64.MIN < x.pts)
    (bestIndex : Nat) :
    search minIndex samples t before.length bestIndex bestPts = some (.ok bestIndex) := by
  induction before using reverseRecOn generalizing after with
  | nil =>
    obtain ⟨x, hx, -⟩ := hex
    cases hx
  | append_singleton before s ih =>
    have hs := hbest s (mem_append_right _ (mem_singleton_self s))
    rcases search_step minIndex t hsamples bestIndex bestPts with
      ⟨hexact, -⟩ | ⟨-, index, pts, hupdate, hstop⟩
    · exact absurd ((hs hexact.le).trans_lt hlt) (hexact ▸ lt_irrefl _)
    · rcases hupdate with ⟨hst, hbetter, -, -⟩ | ⟨-, rfl, rfl⟩
      · exact absurd (hs hst.le) (not_le.mpr hbetter)
      · rcases hstop with ⟨-, -, hsearch⟩ | ⟨hgo, hsearch⟩
        · exact hsearch
        · rw [hsearch]
          apply ih (by rw [hsamples, append_assoc]) fun x hx => hbest x (mem_append_left _ hx)
          by_contra hall
          push Not at hall
          -- All those before have the least time, and this one does not, so its bit is set.
          apply hgo
          obtain ⟨x, hx, hmin⟩ := hex
          have hpts : I64.MIN < s.pts := by
            rcases mem_append.mp hx with hx | hx
            · exact absurd hmin (not_lt.mpr (hall x hx))
            · exact mem_singleton.mp hx ▸ hmin
          exact ⟨hbestPts, hpts, fun y hy => (hall y hy).trans_lt hpts⟩

variable {mid : List SampleMetadata}

theorem search_eq_latest {m : SampleMetadata} (hsamples : samples = before ++ m :: mid ++ after) (hm : m.pts ≤ t)
    (hmin : m.pts = I64.MIN → t = I64.MIN) (hbefore : ∀ x ∈ before, x.pts ≤ t → x.pts ≤ m.pts)
    (hmid : ∀ x ∈ mid, x.pts ≤ t → x.pts < m.pts) {bestPts : I64} (hbestPts : bestPts = I64.MIN ∨ bestPts < m.pts)
    (hstop : ∀ mid₁ s mid₂, mid = mid₁ ++ s :: mid₂ → Highest (before ++ m :: mid₁) s →
      bestPts = I64.MIN ∧ ∀ b ∈ mid₂, b.pts ≤ t → b.pts = I64.MIN) (bestIndex : Nat) :
    search minIndex samples t (before ++ m :: mid).length bestIndex bestPts =
      some (.ok (minIndex + before.length)) := by
  induction mid using reverseRecOn generalizing after bestPts bestIndex with
  | nil =>
    rcases search_step minIndex t hsamples bestIndex bestPts with
      ⟨-, hsearch⟩ | ⟨hexact, index, pts, hupdate, hgo⟩
    · exact hsearch
    · have hlt : m.pts < t := lt_of_le_of_ne hm hexact
      have hpos : I64.MIN < m.pts := by
        apply lt_of_le_of_ne (I64.MIN_le _)
        intro h
        exact hexact (h.symm.trans (hmin h.symm).symm)
      rcases hupdate with ⟨-, -, rfl, rfl⟩ | ⟨hle, -, -⟩
      · rcases hgo with ⟨-, -, hsearch⟩ | ⟨hnot, hsearch⟩
        · exact hsearch
        · rw [hsearch]
          apply search_eq_best (by rw [hsamples, append_assoc]) hpos.ne' hlt hbefore
          by_contra hall
          push Not at hall
          exact hnot ⟨hpos.ne', hpos, fun x hx => (hall x hx).trans_lt hpos⟩
      · rcases hbestPts with rfl | hbest
        · exact absurd (hle hlt) (not_le.mpr hpos)
        · exact absurd (hle hlt) (not_le.mpr hbest)
  | append_singleton mid s ih =>
    have hs := hmid s (mem_append_right _ (mem_singleton_self s))
    have hsamples' : samples = (before ++ m :: mid) ++ [s] ++ after := by
      rw [hsamples]
      simp
    have hlength : before ++ m :: (mid ++ [s]) = (before ++ m :: mid) ++ [s] := by simp
    rw [hlength]
    have hhighest : Highest (before ++ m :: mid) s → bestPts = I64.MIN ∧ ¬ s.pts ≤ t := by
      intro h
      refine ⟨(hstop mid s [] rfl h).1, fun hle => ?_⟩
      exact lt_asymm (hs hle) (h.2 m (by simp))
    rcases search_step minIndex t hsamples' bestIndex bestPts with
      ⟨hexact, -⟩ | ⟨-, index, pts, hupdate, hgo⟩
    · exact absurd (hs hexact.le) (not_lt.mpr (hexact ▸ hm))
    · rcases hgo with ⟨hne, hbit, -⟩ | ⟨-, hsearch⟩
      · rcases hupdate with ⟨hlt, -, -, -⟩ | ⟨-, -, rfl⟩
        · exact absurd hlt.le (hhighest hbit).2
        · exact absurd (hhighest hbit).1 hne
      · rw [hsearch]
        have hsamples'' : samples = before ++ m :: mid ++ s :: after := by
          rw [hsamples']
          simp
        apply ih hsamples''
        · exact fun x hx => hmid x (mem_append_left _ hx)
        · rcases hupdate with ⟨hlt, -, -, rfl⟩ | ⟨-, -, rfl⟩
          · exact .inr (hs hlt.le)
          · exact hbestPts
        · intro mid₁ s' mid₂ hsplit hbit
          have h := hstop mid₁ s' (mid₂ ++ [s]) (by rw [hsplit]; simp) hbit
          refine ⟨?_, fun b hb => h.2 b (mem_append_left _ hb)⟩
          rcases hupdate with ⟨hlt, -, -, rfl⟩ | ⟨-, -, rfl⟩
          · exact h.2 s (mem_append_right _ (mem_singleton_self s)) hlt.le
          · exact h.1

variable (minIndex) in
theorem search_stops {s : SampleMetadata} {bestPts : I64} (bestIndex : Nat)
    (hsamples : samples = before ++ s :: mid ++ after) (hs : Highest before s)
    (hindex : bestPts = I64.MIN ∨ minIndex + before.length ≤ bestIndex)
    (hbest : bestPts ≠ I64.MIN ∨ ∃ b ∈ mid, I64.MIN < b.pts ∧ b.pts ≤ t) :
    ∃ k, minIndex + before.length ≤ k ∧
      search minIndex samples t (before ++ s :: mid).length bestIndex bestPts = some (.ok k) := by
  induction mid using reverseRecOn generalizing after bestPts bestIndex with
  | nil =>
    rcases search_step minIndex t hsamples bestIndex bestPts with
      ⟨-, hsearch⟩ | ⟨-, index, pts, hupdate, hgo⟩
    · exact ⟨_, le_rfl, hsearch⟩
    · have hne : bestPts ≠ I64.MIN := hbest.resolve_right (by simp)
      have hpts : pts ≠ I64.MIN ∧ minIndex + before.length ≤ index := by
        rcases hupdate with ⟨-, hlt, rfl, rfl⟩ | ⟨-, rfl, rfl⟩
        · exact ⟨((I64.MIN_le _).trans_lt hlt).ne', le_rfl⟩
        · exact ⟨hne, hindex.resolve_left hne⟩
      rcases hgo with ⟨-, -, hsearch⟩ | ⟨hnot, -⟩
      · exact ⟨index, hpts.2, hsearch⟩
      · exact absurd ⟨hpts.1, hs⟩ hnot
  | append_singleton mid x ih =>
    have hsamples' : samples = (before ++ s :: mid) ++ [x] ++ after := by
      rw [hsamples]
      simp
    have hlength : before ++ s :: (mid ++ [x]) = (before ++ s :: mid) ++ [x] := by simp
    have hle : before.length ≤ (before ++ s :: mid).length := by simp
    rw [hlength]
    rcases search_step minIndex t hsamples' bestIndex bestPts with
      ⟨-, hsearch⟩ | ⟨hexact, index, pts, hupdate, hgo⟩
    · exact ⟨_, Nat.add_le_add_left hle _, hsearch⟩
    · have hpts : pts = I64.MIN ∨ minIndex + before.length ≤ index := by
        rcases hupdate with ⟨-, -, rfl, -⟩ | ⟨-, rfl, rfl⟩
        · exact .inr (Nat.add_le_add_left hle _)
        · exact hindex
      rcases hgo with ⟨hne, -, hsearch⟩ | ⟨-, hsearch⟩
      · exact ⟨index, hpts.resolve_left hne, hsearch⟩
      · rw [hsearch]
        have hsamples'' : samples = before ++ s :: mid ++ x :: after := by
          rw [hsamples']
          simp
        apply ih _ hsamples'' hpts
        rcases hupdate with ⟨-, hlt, -, rfl⟩ | ⟨hnot, -, rfl⟩
        · exact .inl ((I64.MIN_le _).trans_lt hlt).ne'
        · rcases hbest with hne | ⟨b, hb, hmin, hbt⟩
          · exact .inl hne
          · rcases mem_append.mp hb with hb | hb
            · exact .inr ⟨b, hb, hmin, hbt⟩
            · obtain rfl := mem_singleton.mp hb
              exact .inl (hmin.trans_le (hnot (lt_of_le_of_ne hbt hexact))).ne'

/-! ## The samples that are searched -/

def decoded (samples : List SampleMetadata) (t : I64) : List SampleMetadata :=
  samples.takeWhile fun s => decide (s.dts ≤ t)

def AlwaysEqual (samples : List SampleMetadata) : Prop :=
  ∀ s ∈ samples, s.dts = s.pts

instance (samples : List SampleMetadata) : Decidable (AlwaysEqual samples) :=
  inferInstanceAs (Decidable (∀ s ∈ samples, s.dts = s.pts))

theorem latestSampleIndexAtDecodeTimestamp_eq : latestSampleIndexAtDecodeTimestamp (loaded minIndex samples) t =
    if (decoded samples t).length = 0 then none else some (minIndex + ((decoded samples t).length - 1)) := by
  have hpoint : (loaded minIndex samples).partitionPoint (fun s => decide (s.dts ≤ t)) =
      (decoded samples t).length + minIndex := by
    show ((samples.map SampleMetadataState.present).takeWhile _).length + minIndex = _
    rw [takeWhile_map, length_map]
    rfl
  have hmin : (loaded minIndex samples).minIndex = minIndex := rfl
  rw [latestSampleIndexAtDecodeTimestamp, hpoint, hmin, subtract]
  by_cases h : (decoded samples t).length = 0
  · rw [if_pos h]
    by_cases hone : 1 ≤ (decoded samples t).length + minIndex
    · rw [if_pos hone]
      show (if minIndex ≤ (decoded samples t).length + minIndex - 1 then _ else none) = none
      rw [if_neg (by omega)]
    · rw [if_neg hone]
      rfl
  · rw [if_pos (by omega), if_neg h]
    show (if minIndex ≤ (decoded samples t).length + minIndex - 1 then _ else none) = _
    rw [if_pos (by omega)]
    congr 1
    omega

theorem statistics_eq : (SamplesStatistics.new (loaded minIndex samples)).hasSampleHighestPtsSoFar =
    if AlwaysEqual samples then none else some (highestPtsSoFar I64.MIN (samples.map .present)) := by
  have hall : ((samples.map SampleMetadataState.present).filterMap SampleMetadataState.sample).all
      (fun s => decide (s.dts = s.pts)) = true ↔ AlwaysEqual samples := by
    rw [filterMap_map, show SampleMetadataState.sample ∘ SampleMetadataState.present = some from rfl,
      filterMap_some, List.all_eq_true]
    exact forall₂_congr fun s _ => decide_eq_true_iff
  exact if_congr hall rfl rfl

theorem lookup_eq : lookup minIndex samples t =
    if AlwaysEqual samples then
      if (decoded samples t).length = 0 then some (.error none)
      else some (.ok (minIndex + ((decoded samples t).length - 1)))
    else search minIndex samples t (decoded samples t).length (2 ^ 64 - 1) I64.MIN := by
  have hloaded : ((loaded minIndex samples).get (minIndex + ((decoded samples t).length - 1))).any
      SampleMetadataState.isUnloaded = false := by
    show ((loaded minIndex samples).get ((loaded minIndex samples).indexOffset + _)).any _ = _
    rw [get_add, loaded, List.getElem?_map, Option.any_map]
    cases samples[(decoded samples t).length - 1]? <;> rfl
  rw [lookup, latestSampleIndexAtPresentationTimestamp, latestSampleIndexAtDecodeTimestamp_eq, statistics_eq]
  have hcount (h : (decoded samples t).length ≠ 0) :
      minIndex + ((decoded samples t).length - 1) + 1 - minIndex = (decoded samples t).length := by omega
  by_cases hempty : (decoded samples t).length = 0
  · rw [if_pos hempty, if_pos hempty, hempty]
    by_cases hall : AlwaysEqual samples
    · exact (if_pos hall).symm
    · exact (if_neg hall).symm
  · rw [if_neg hempty, if_neg hempty]
    by_cases hall : AlwaysEqual samples
    · simp [hloaded, hall]
    · simp only [hloaded, hall, Bool.false_eq_true, if_false]
      show search minIndex samples t (_ - minIndex) _ _ = _
      rw [hcount hempty]

theorem lt_of_mem_dropWhile (horder : DecodeOrder samples) :
    ∀ s ∈ samples.dropWhile (fun s => decide (s.dts ≤ t)), t < s.pts := by
  obtain ⟨hsorted, hle, -⟩ := horder
  induction samples with
  | nil =>
    intro s hs
    cases hs
  | cons a samples ih =>
    obtain ⟨ha, hsorted⟩ := pairwise_cons.mp hsorted
    intro s hs
    rw [dropWhile_cons] at hs
    split at hs
    · exact ih hsorted (fun x hx => hle x (mem_cons_of_mem _ hx)) s hs
    · next hlate =>
      have hlt : t < a.dts := not_le.mp fun h => hlate (decide_eq_true h)
      rcases mem_cons.mp hs with rfl | hs'
      · exact hlt.trans_le (hle _ hs)
      · exact hlt.trans_le ((ha s hs').trans (hle s (mem_cons_of_mem _ hs')))

variable {early late : List SampleMetadata}

theorem exists_mid {s b : SampleMetadata} (hsplit : before ++ s :: after = early ++ late)
    (hlate : ∀ x ∈ late, t < x.pts) (hb : b ∈ s :: after) (hbt : b.pts ≤ t) :
    ∃ mid, early = before ++ s :: mid ∧ after = mid ++ late := by
  have hnot : b ∉ late := fun h => absurd hbt (not_le.mpr (hlate b h))
  rcases append_eq_append_iff.mp hsplit with ⟨c, hearly, hlate'⟩ | ⟨c, -, hlate'⟩
  · cases c with
    | nil =>
      rw [hlate', nil_append] at hb
      exact absurd hb hnot
    | cons x mid =>
      cases hlate'
      exact ⟨mid, hearly, rfl⟩
  · exact absurd (hlate' ▸ mem_append_right c hb) hnot

theorem exists_latest {l : List SampleMetadata} (h : ∃ s ∈ l, s.pts ≤ t) :
    ∃ before m after, l = before ++ m :: after ∧ Latest l t m := by
  have hfinite : {s | s ∈ l ∧ s.pts ≤ t}.Finite := l.finite_toSet.subset fun s hs => hs.1
  obtain ⟨m, hm, hmax⟩ := Set.exists_max_image _ SampleMetadata.pts hfinite h
  obtain ⟨before, after, hl⟩ := append_of_mem hm.1
  exact ⟨before, m, after, hl, hm.2, fun x hx hxt => hmax x ⟨hx, hxt⟩⟩

variable (samples t) in
theorem decoded_append : decoded samples t ++ samples.dropWhile (fun s => decide (s.dts ≤ t)) = samples :=
  takeWhile_append_dropWhile

theorem answers_of_alwaysEqual (horder : DecodeOrder samples) (hall : AlwaysEqual samples) :
    Answers minIndex samples t (lookup minIndex samples t) := by
  have hlate := lt_of_mem_dropWhile (t := t) horder
  have hearly : ∀ s ∈ decoded samples t, s.pts ≤ t := by
    intro s hs
    rw [← hall s (takeWhile_subset _ hs)]
    have hp := mem_takeWhile_imp (p := fun s : SampleMetadata => decide (s.dts ≤ t)) hs
    exact of_decide_eq_true hp
  rw [lookup_eq, if_pos hall]
  constructor
  · intro before m after hsplit hm
    obtain ⟨mid, hmid, -⟩ := exists_mid (hsplit.symm.trans (decoded_append samples t).symm) hlate mem_cons_self hm.le
    have hsub : (m :: mid).Sublist samples := by
      apply Sublist.trans _ (takeWhile_sublist fun s => decide (s.dts ≤ t))
      show (m :: mid).Sublist (decoded samples t)
      rw [hmid]
      exact sublist_append_right ..
    -- The times ascend, so nothing decoded comes after the latest.
    have hnil : mid = [] := by
      apply eq_nil_iff_forall_not_mem.mpr
      intro x hx
      have hxdecoded : x ∈ decoded samples t := by
        rw [hmid]
        exact mem_append_right _ (mem_cons_of_mem _ hx)
      have hxm := hm.max x (hsub.subset (mem_cons_of_mem _ hx)) (hearly x hxdecoded)
      have hmx := rel_of_pairwise_cons (horder.sorted.sublist hsub) hx
      rw [hall m (hsub.subset mem_cons_self), hall x (hsub.subset (mem_cons_of_mem _ hx))] at hmx
      have hne := rel_of_pairwise_cons (horder.distinct.sublist (hsub.map SampleMetadata.pts))
        (List.mem_map_of_mem hx)
      exact hne (le_antisymm hmx hxm)
    rw [hmid, hnil, length_append, length_singleton, if_neg (Nat.succ_ne_zero _)]
    rfl
  · constructor
    · intro h
      split at h
      · next hlength =>
        have hsplit := decoded_append samples t
        rw [eq_nil_of_length_eq_zero hlength, nil_append] at hsplit
        exact fun s hs => hlate s (hsplit.symm ▸ hs)
      · cases h
    · intro hnone
      rw [if_pos]
      rw [length_eq_zero_iff, eq_nil_iff_forall_not_mem]
      exact fun s hs => absurd (hearly s hs) (not_le.mpr (hnone s (takeWhile_subset _ hs)))

theorem search_decoded (horder : DecodeOrder samples) (hstop : NoEarlyStop samples t) (hmin : NotMin samples t)
    {m : SampleMetadata} (hsplit : samples = before ++ m :: after) (hm : Latest samples t m)
    (bestIndex : Nat) : search minIndex samples t (decoded samples t).length bestIndex I64.MIN =
      some (.ok (minIndex + before.length)) := by
  obtain ⟨mid, hmid, hafter⟩ := exists_mid (hsplit.symm.trans (decoded_append samples t).symm)
    (lt_of_mem_dropWhile (t := t) horder) mem_cons_self hm.le
  obtain ⟨late, hlate⟩ : ∃ late, late = samples.dropWhile fun s => decide (s.dts ≤ t) := ⟨_, rfl⟩
  rw [← hlate] at hafter
  have hmem : m ∈ samples := hsplit ▸ mem_append_right _ mem_cons_self
  have hsub : (m :: mid).Sublist samples := by
    rw [hsplit, hafter]
    exact (sublist_append_left (m :: mid) _).trans (sublist_append_right ..)
  have hmid' : ∀ x ∈ mid, x.pts ≤ t → x.pts < m.pts := by
    intro x hx hxt
    have hne := rel_of_pairwise_cons (horder.distinct.sublist (hsub.map SampleMetadata.pts))
      (List.mem_map_of_mem hx)
    exact lt_of_le_of_ne (hm.max x (hsub.subset (mem_cons_of_mem _ hx)) hxt) hne.symm
  have hmin' : m.pts = I64.MIN → t = I64.MIN := by
    intro heq
    apply (hmin m hmem heq).resolve_right
    rintro ⟨x, hx, hpos, hxt⟩
    exact absurd (hm.max x hx hxt) (not_le.mpr (heq ▸ hpos))
  have hbits : ∀ mid₁ s mid₂, mid = mid₁ ++ s :: mid₂ → Highest (before ++ m :: mid₁) s →
      I64.MIN = I64.MIN ∧ ∀ b ∈ mid₂, b.pts ≤ t → b.pts = I64.MIN := by
    intro mid₁ s mid₂ hs hbit
    refine ⟨rfl, fun b hb hbt => ?_⟩
    by_contra hne
    have hsplit' : samples = (before ++ m :: mid₁) ++ s :: (mid₂ ++ late) := by
      rw [hsplit, hafter, hs]
      simp
    obtain ⟨x, hx, hlt, hxt⟩ := hstop _ _ _ hsplit' hbit.2 b (mem_append_left _ hb)
      (lt_of_le_of_ne (I64.MIN_le _) (Ne.symm hne)) hbt m (by simp) hm.le
    exact absurd (hm.max x (hsplit' ▸ mem_append_right _ hx) hxt) (not_le.mpr hlt)
  rw [hmid]
  apply search_eq_latest (hmid ▸ (decoded_append samples t).symm) hm.le hmin' _ hmid' (.inl rfl) hbits
  exact fun x hx => hm.max x (hsplit ▸ mem_append_left _ hx)

theorem answers_of_noEarlyStop (horder : DecodeOrder samples) (hall : ¬ AlwaysEqual samples)
    (hstop : NoEarlyStop samples t) (hmin : NotMin samples t) :
    Answers minIndex samples t (lookup minIndex samples t) := by
  rw [lookup_eq, if_neg hall]
  refine ⟨fun before m after hsplit hm => search_decoded horder hstop hmin hsplit hm _, fun hnone => ?_,
    fun hnone => ?_⟩
  · by_contra hex
    push Not at hex
    obtain ⟨before, m, after, hsplit, hm⟩ := exists_latest hex
    rw [search_decoded horder hstop hmin hsplit hm] at hnone
    cases hnone
  · apply search_eq_none minIndex (decoded_append samples t).symm
    exact fun x hx hxt => absurd hxt (not_le.mpr (hnone x (takeWhile_subset _ hx)))

theorem noEarlyStop_of_answers (horder : DecodeOrder samples) {bestIndex : Nat}
    (hanswers : Answers minIndex samples t
      (search minIndex samples t (decoded samples t).length bestIndex I64.MIN)) : NoEarlyStop samples t := by
  have hlate := lt_of_mem_dropWhile (t := t) horder
  intro before s after hsplit hs b hb hpos hbt c hc hct
  by_contra hnone
  push Not at hnone
  obtain ⟨before₁, m, before₂, hbefore, hm, hmax⟩ := exists_latest ⟨c, hc, hct⟩
  have hlatest : Latest samples t m := by
    refine ⟨hm, fun x hx hxt => ?_⟩
    rw [hsplit] at hx
    rcases mem_append.mp hx with hx | hx
    · exact hmax x hx hxt
    · by_contra hlt
      exact absurd hxt (not_le.mpr (hnone x hx ((hmax c hc hct).trans_lt (not_le.mp hlt))))
  have hfound := hanswers.1 before₁ m (before₂ ++ s :: after) (by rw [hsplit, hbefore]; simp) hlatest
  obtain ⟨mid, hmid, hafter⟩ := exists_mid (hsplit.symm.trans (decoded_append samples t).symm) hlate
    (mem_cons_of_mem _ hb) hbt
  have hbmid : b ∈ mid := by
    rw [hafter] at hb
    exact (mem_append.mp hb).resolve_right fun h => absurd hbt (not_le.mpr (hlate b h))
  have hhighest : Highest before s := ⟨(I64.MIN_le _).trans_lt (hs c hc), hs⟩
  obtain ⟨k, hk, hsearch⟩ := search_stops minIndex bestIndex
    (hmid ▸ (decoded_append samples t).symm) hhighest (.inl rfl) (.inr ⟨b, hbmid, hpos, hbt⟩)
  rw [hmid, hsearch] at hfound
  cases hfound
  rw [hbefore, length_append, length_cons] at hk
  omega

theorem notMin_of_answers {bestIndex : Nat} (hanswers : Answers minIndex samples t
    (search minIndex samples t (decoded samples t).length bestIndex I64.MIN)) : NotMin samples t := by
  intro s hs heq
  by_contra hnot
  push Not at hnot
  have hleast : ∀ x ∈ decoded samples t, x.pts ≤ t → x.pts = I64.MIN ∧ t ≠ I64.MIN := by
    intro x hx hxt
    refine ⟨?_, hnot.1⟩
    by_contra hne
    exact absurd hxt (not_le.mpr
      (hnot.2 x (takeWhile_subset _ hx) (lt_of_le_of_ne (I64.MIN_le _) (Ne.symm hne))))
  have hnone := search_eq_none minIndex (decoded_append samples t).symm hleast bestIndex
  exact absurd (hanswers.2.mp hnone s hs) (not_lt.mpr (heq ▸ I64.MIN_le t))

/-- The lookup gives the latest sample by the time if and only if the times are equal, or
the search is not stopped before the sample and the sample does not have the least time. -/
theorem lookup_iff (horder : DecodeOrder samples) :
    Answers minIndex samples t (lookup minIndex samples t) ↔
      AlwaysEqual samples ∨ (NoEarlyStop samples t ∧ NotMin samples t) := by
  constructor
  · intro hanswers
    by_cases hall : AlwaysEqual samples
    · exact .inl hall
    · rw [lookup_eq, if_neg hall] at hanswers
      exact .inr ⟨noEarlyStop_of_answers horder hanswers, notMin_of_answers hanswers⟩
  · intro h
    by_cases hall : AlwaysEqual samples
    · exact answers_of_alwaysEqual horder hall
    · obtain ⟨hstop, hmin⟩ := h.resolve_left hall
      exact answers_of_noEarlyStop horder hall hstop hmin

end Search

/-- Two groups of frames, each with its last frame decoded first. -/
def bFrames : List SampleMetadata :=
  [⟨I64.sat (-2), I64.sat 0⟩, ⟨I64.sat (-1), I64.sat 4⟩, ⟨I64.sat 0, I64.sat 2⟩, ⟨I64.sat 1, I64.sat 3⟩,
    ⟨I64.sat 2, I64.sat 8⟩, ⟨I64.sat 3, I64.sat 6⟩]

theorem lookup_iff_bFrames :
    lookup 3 bFrames (I64.sat 5) = some (.ok 4) ∧ Answers 3 bFrames (I64.sat 5) (lookup 3 bFrames (I64.sat 5)) :=
  ⟨rfl, (lookup_iff ⟨by decide, by decide, by decide⟩).mpr (.inr ⟨by decide, by decide⟩)⟩

/-- Samples whose third is presented last. -/
def reordered : List SampleMetadata :=
  [⟨I64.sat (-10), I64.sat 0⟩, ⟨I64.sat (-9), I64.sat 3⟩, ⟨I64.sat (-8), I64.sat 10⟩, ⟨I64.sat (-7), I64.sat 1⟩]

/-- The search stops at the third sample, with the fourth, and the second one is the latest. -/
theorem lookup_reordered :
    DecodeOrder reordered ∧ lookup 0 reordered (I64.sat 5) = some (.ok 3) ∧
      ¬ Answers 0 reordered (I64.sat 5) (lookup 0 reordered (I64.sat 5)) := by
  have hlookup : lookup 0 reordered (I64.sat 5) = some (.ok 3) := by rfl
  refine ⟨⟨by decide, by decide, by decide⟩, hlookup, fun hanswers => ?_⟩
  have hsecond := hanswers.1 [⟨I64.sat (-10), I64.sat 0⟩] ⟨I64.sat (-9), I64.sat 3⟩ _ rfl
    ⟨by decide, by decide⟩
  cases hsecond

end Dalaran.Video
