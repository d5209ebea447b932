import Mathlib.Order.MinMax
import Dalaran.Base.BinarySearch

/-
  Ranges in the order of their starts (`dl_entity_db::sorted_range_map`).

  A query begins at the first entry up to which some range ends late enough, which is
  found by binary search, and stops at the first one that starts too late. It yields
  the entries that overlap the range in question (`query_exact`).

  Correspondence (Rust ↔ Lean):
    `RangeInclusive::{start, end}` ↔ `RangeInclusive.start`, `RangeInclusive.stop`
    `OverlapIterState` ↔ an index
-/

namespace Dalaran

open List

structure RangeInclusive (K : Type) where
  start : K
  stop : K

structure SortedRangeMap (K V : Type) where
  entries : List (RangeInclusive K × V)
  /-- The greatest end of the entries up to each. -/
  maxEnd : List K

structure OverlapIter (K V : Type) where
  map : SortedRangeMap K V
  query : RangeInclusive K
  idx : Nat

variable {K V : Type}

def OverlapIter.cursor (it : OverlapIter K V) : Nat := it.idx

namespace SortedRangeMap

def empty : SortedRangeMap K V := ⟨[], []⟩

/-- A query that goes on where another one stopped. -/
def resumeQuery (m : SortedRangeMap K V) (query : RangeInclusive K) (cursor : Nat) : OverlapIter K V :=
  ⟨m, query, cursor⟩

variable [LinearOrder K]

def updateMaxEnd : Option K → List (RangeInclusive K × V) → List K
  | _, [] => []
  | none, entry :: entries => entry.1.stop :: updateMaxEnd (some entry.1.stop) entries
  | some m, entry :: entries => max m entry.1.stop :: updateMaxEnd (some (max m entry.1.stop)) entries

def extend (m : SortedRangeMap K V) (newEntries : List (RangeInclusive K × V)) : SortedRangeMap K V :=
  let entries := (m.entries ++ newEntries).mergeSort fun a b => decide (a.1.start ≤ b.1.start)
  ⟨entries, updateMaxEnd none entries⟩

def findFirstPossible (m : SortedRangeMap K V) (query : RangeInclusive K) : Nat :=
  Seq.partitionPoint (fun max => decide (max < query.start)) m.maxEnd

def query (m : SortedRangeMap K V) (query : RangeInclusive K) : OverlapIter K V :=
  ⟨m, query, m.findFirstPossible query⟩

end SortedRangeMap

namespace OverlapIter

variable [LinearOrder K]

/-- The loop of `next` over the entries from an index on. -/
def nextFrom (query : RangeInclusive K) (idx : Nat) :
    List (RangeInclusive K × V) → Option (RangeInclusive K × V) × Nat
  | [] => (none, idx)
  | entry :: entries =>
    -- All that follow start even later.
    if query.stop < entry.1.start then (none, idx)
    else if query.start ≤ entry.1.stop then (some entry, idx + 1)
    else nextFrom query (idx + 1) entries

def next (it : OverlapIter K V) : Option (RangeInclusive K × V) × OverlapIter K V :=
  let (item, idx) := nextFrom it.query it.idx (it.map.entries.drop it.idx)
  (item, { it with idx := idx })

def run : Nat → OverlapIter K V → List (RangeInclusive K × V) × OverlapIter K V
  | 0, it => ([], it)
  | n + 1, it => ((it.next.1.toList ++ (run n it.next.2).1), (run n it.next.2).2)

end OverlapIter

/-- Whether an entry starts before the query ends and ends after it starts. -/
def overlaps [LinearOrder K] (query : RangeInclusive K) (entry : RangeInclusive K × V) : Bool :=
  decide (entry.1.start ≤ query.stop) && decide (query.start ≤ entry.1.stop)

/-- A key of a range. -/
def RangeInclusive.Has [LinearOrder K] (r : RangeInclusive K) (k : K) : Prop := r.start ≤ k ∧ k ≤ r.stop

/-- The entries of a map are in order, and it has their greatest ends. -/
structure SortedRangeMap.Sorted [LinearOrder K] (m : SortedRangeMap K V) : Prop where
  ascending : m.entries.Pairwise fun a b => a.1.start ≤ b.1.start
  ends : m.maxEnd = SortedRangeMap.updateMaxEnd none m.entries

variable [LinearOrder K] {m : SortedRangeMap K V} {query : RangeInclusive K} {entry : RangeInclusive K × V}
  {entries : List (RangeInclusive K × V)}

theorem overlaps_iff (hquery : query.start ≤ query.stop) (hentry : entry.1.start ≤ entry.1.stop) :
    overlaps query entry = true ↔ ∃ k, query.Has k ∧ entry.1.Has k := by
  rw [overlaps, Bool.and_eq_true, decide_eq_true_eq, decide_eq_true_eq]
  constructor
  · rintro ⟨hstart, hstop⟩
    exact ⟨max query.start entry.1.start, ⟨le_max_left .., max_le hquery hstart⟩,
      le_max_right .., max_le hstop hentry⟩
  · rintro ⟨k, hk, hk'⟩
    exact ⟨hk'.1.trans hk.2, hk.1.trans hk'.2⟩

/-! ## The greatest ends -/

namespace SortedRangeMap

theorem length_updateMaxEnd : ∀ (running : Option K) (entries : List (RangeInclusive K × V)),
    (updateMaxEnd running entries).length = entries.length
  | _, [] => rfl
  | none, _ :: entries => congrArg (· + 1) (length_updateMaxEnd _ entries)
  | some _, _ :: entries => congrArg (· + 1) (length_updateMaxEnd _ entries)

theorem le_of_mem_updateMaxEnd {running k : K} (hk : k ∈ updateMaxEnd (some running) entries) : running ≤ k := by
  induction entries generalizing running with
  | nil => cases hk
  | cons entry entries ih =>
    rcases mem_cons.mp hk with rfl | hk
    · exact le_max_left ..
    · exact (le_max_left ..).trans (ih hk)

theorem updateMaxEnd_pairwise (running : Option K) : (updateMaxEnd running entries).Pairwise (· ≤ ·) := by
  induction entries generalizing running with
  | nil => exact Pairwise.nil
  | cons entry entries ih =>
    cases running with
    | none | some running => exact pairwise_cons.mpr ⟨fun _ hk => le_of_mem_updateMaxEnd hk, ih _⟩

theorem stop_le_updateMaxEnd {running : Option K} {i : Nat} {k : K} (hentry : entries[i]? = some entry)
    (hk : (updateMaxEnd running entries)[i]? = some k) : entry.1.stop ≤ k := by
  induction entries generalizing running i with
  | nil => cases hentry
  | cons head entries ih =>
    cases i with
    | zero =>
      obtain rfl := Option.some.inj hentry
      cases running with
      | none => exact (Option.some.inj hk).le
      | some running => exact (le_max_right ..).trans (Option.some.inj hk).le
    | succ i =>
      cases running with
      | none => exact ih hentry hk
      | some running => exact ih hentry hk

theorem Sorted.skipped (h : m.Sorted) (hentry : entry ∈ m.entries.take (m.findFirstPossible query)) :
    overlaps query entry = false := by
  obtain ⟨i, hi, rfl⟩ := mem_take_iff_getElem.mp hentry
  have hlen : i < m.maxEnd.length := by
    rw [h.ends, length_updateMaxEnd]
    exact lt_of_lt_of_le hi (Nat.min_le_right ..)
  have hmono : m.maxEnd.Pairwise fun a b => decide (b < query.start) = true → decide (a < query.start) = true := by
    rw [h.ends]
    exact (updateMaxEnd_pairwise none).imp fun hab hb => decide_eq_true (hab.trans_lt (of_decide_eq_true hb))
  have hlt := (Seq.lt_partitionPoint_iff hmono (getElem?_eq_getElem hlen)).mp (lt_of_lt_of_le hi (Nat.min_le_left ..))
  have hget : (updateMaxEnd none m.entries)[i]? = some m.maxEnd[i] := by
    rw [← h.ends]
    exact getElem?_eq_getElem hlen
  have hle := stop_le_updateMaxEnd (getElem?_eq_getElem (lt_of_lt_of_le hi (Nat.min_le_right ..))) hget
  simp [overlaps, hle.trans_lt (of_decide_eq_true hlt)]

/-! ## Extending a map -/

theorem Sorted.empty : (SortedRangeMap.empty : SortedRangeMap K V).Sorted := ⟨Pairwise.nil, rfl⟩

theorem Sorted.extend (m : SortedRangeMap K V) (newEntries : List (RangeInclusive K × V)) :
    (m.extend newEntries).Sorted := by
  have htrans : ∀ a b c : RangeInclusive K × V, decide (a.1.start ≤ b.1.start) = true →
      decide (b.1.start ≤ c.1.start) = true → decide (a.1.start ≤ c.1.start) = true :=
    fun a b c hab hbc => decide_eq_true ((of_decide_eq_true hab).trans (of_decide_eq_true hbc))
  have htotal : ∀ a b : RangeInclusive K × V,
      (decide (a.1.start ≤ b.1.start) || decide (b.1.start ≤ a.1.start)) = true :=
    fun a b => by simpa using le_total a.1.start b.1.start
  exact ⟨(pairwise_mergeSort htrans htotal _).imp of_decide_eq_true, rfl⟩

theorem foldl_extend (m : SortedRangeMap K V) (hm : m.Sorted) (extensions : List (List (RangeInclusive K × V))) :
    (extensions.foldl SortedRangeMap.extend m).Sorted ∧
      (extensions.foldl SortedRangeMap.extend m).entries.Perm (m.entries ++ extensions.flatten) := by
  induction extensions generalizing m with
  | nil => exact ⟨hm, by simp⟩
  | cons newEntries extensions ih =>
    obtain ⟨hsorted, hperm⟩ := ih _ (Sorted.extend m newEntries)
    refine ⟨hsorted, hperm.trans ?_⟩
    rw [flatten_cons, ← append_assoc]
    exact (mergeSort_perm _ _).append_right _

end SortedRangeMap

/-! ## Iterating -/

namespace OverlapIter

/-- What an iterator has still to yield. -/
def left (it : OverlapIter K V) : List (RangeInclusive K × V) :=
  (it.map.entries.drop it.idx).filter (overlaps it.query)

theorem nextFrom_spec (hsorted : entries.Pairwise fun a b => a.1.start ≤ b.1.start) (idx : Nat) :
    (nextFrom query idx entries).1 = (entries.filter (overlaps query)).head? ∧
      ∃ k, (nextFrom query idx entries).2 = idx + k ∧
        (entries.drop k).filter (overlaps query) = (entries.filter (overlaps query)).tail := by
  induction entries generalizing idx with
  | nil => exact ⟨rfl, 0, rfl, rfl⟩
  | cons entry entries ih =>
    obtain ⟨hfirst, hrest⟩ := pairwise_cons.mp hsorted
    rw [nextFrom]
    by_cases hlate : query.stop < entry.1.start
    · have hnone : (entry :: entries).filter (overlaps query) = [] := by
        refine filter_eq_nil_iff.mpr fun e he => ?_
        have hle : entry.1.start ≤ e.1.start := by
          rcases mem_cons.mp he with rfl | he
          · exact le_refl _
          · exact hfirst e he
        simp [overlaps, hlate.trans_le hle]
      rw [if_pos hlate, hnone]
      exact ⟨rfl, 0, rfl, hnone⟩
    · rw [if_neg hlate]
      by_cases hends : query.start ≤ entry.1.stop
      · rw [if_pos hends, filter_cons_of_pos (by simp [overlaps, not_lt.mp hlate, hends])]
        exact ⟨rfl, 1, rfl, rfl⟩
      · obtain ⟨hitem, k, hidx, hleft⟩ := ih hrest (idx + 1)
        rw [if_neg hends, filter_cons_of_neg (by simp [overlaps, hends])]
        exact ⟨hitem, k + 1, by omega, hleft⟩

theorem next_left (it : OverlapIter K V) (h : it.map.Sorted) :
    it.next.1 = it.left.head? ∧ it.next.2.left = it.left.tail := by
  obtain ⟨hitem, k, hidx, hleft⟩ := @nextFrom_spec _ _ _ it.query _ (h.ascending.drop (i := it.idx)) it.idx
  refine ⟨hitem, ?_⟩
  rw [drop_drop, ← hidx] at hleft
  exact hleft

theorem run_left (n : Nat) (it : OverlapIter K V) (h : it.map.Sorted) :
    (run n it).1 = it.left.take n ∧ (run n it).2.left = it.left.drop n ∧
      (run n it).2 = ⟨it.map, it.query, (run n it).2.cursor⟩ := by
  induction n generalizing it with
  | zero => exact ⟨rfl, rfl, rfl⟩
  | succ n ih =>
    obtain ⟨hitem, hleft⟩ := next_left it h
    obtain ⟨hitems, hleft', hcursor⟩ := ih it.next.2 h
    rw [hleft] at hitems hleft'
    refine ⟨?_, ?_, hcursor⟩
    · rw [run, hitem, hitems]
      cases it.left with
      | nil => exact take_nil
      | cons e l => rfl
    · rw [run, hleft']
      cases it.left with
      | nil => exact drop_nil
      | cons e l => rfl

end OverlapIter

theorem SortedRangeMap.Sorted.left_query (h : m.Sorted) (query : RangeInclusive K) :
    (m.query query).left = m.entries.filter (overlaps query) := by
  conv_rhs => rw [← take_append_drop (m.findFirstPossible query) m.entries, filter_append]
  rw [filter_eq_nil_iff.mpr fun e he => by simp [h.skipped he], nil_append]
  rfl

/-- A query yields the entries of a map that overlap a range, in the order of their starts, however
often it is suspended. -/
theorem query_exact (extensions : List (List (RangeInclusive K × V)))
    (hranges : ∀ entry ∈ extensions.flatten, entry.1.start ≤ entry.1.stop) (query : RangeInclusive K) :
    let m := extensions.foldl SortedRangeMap.extend .empty
    ∃ items : List (RangeInclusive K × V), items.Perm (extensions.flatten.filter (overlaps query)) ∧
      items.Pairwise (fun a b => a.1.start ≤ b.1.start) ∧
      (∀ entry ∈ extensions.flatten, query.start ≤ query.stop →
        (overlaps query entry = true ↔ ∃ k, query.Has k ∧ entry.1.Has k)) ∧
      ∀ n k, ((m.query query).run n).1 = items.take n ∧
        ((m.resumeQuery query ((m.query query).run n).2.cursor).run k).1 = (items.drop n).take k := by
  intro m
  obtain ⟨hsorted, hperm⟩ := SortedRangeMap.foldl_extend .empty .empty extensions
  refine ⟨m.entries.filter (overlaps query), hperm.filter _, hsorted.ascending.filter _,
    fun entry hentry hquery => overlaps_iff hquery (hranges entry hentry), fun n k => ?_⟩
  obtain ⟨hitems, hleft, hcursor⟩ := OverlapIter.run_left n (m.query query) hsorted
  rw [hsorted.left_query] at hitems hleft
  refine ⟨hitems, ?_⟩
  rw [← hleft, ← (OverlapIter.run_left k _ (hcursor ▸ hsorted)).1]
  exact congrArg (fun it => (OverlapIter.run k it).1) hcursor.symm

def nestedEntries : List (List (RangeInclusive Nat × String)) := [[(⟨0, 9⟩, "long"), (⟨2, 3⟩, "short")]]

theorem query_exact_nested : let m := nestedEntries.foldl SortedRangeMap.extend .empty
    ∃ items : List (RangeInclusive Nat × String), items.Perm (nestedEntries.flatten.filter (overlaps ⟨5, 6⟩)) ∧
      items.Pairwise (fun a b => a.1.start ≤ b.1.start) ∧
      (∀ entry ∈ nestedEntries.flatten, 5 ≤ 6 →
        (overlaps ⟨5, 6⟩ entry = true ↔ ∃ k, (⟨5, 6⟩ : RangeInclusive Nat).Has k ∧ entry.1.Has k)) ∧
      ∀ n k, ((m.query ⟨5, 6⟩).run n).1 = items.take n ∧
        ((m.resumeQuery ⟨5, 6⟩ ((m.query ⟨5, 6⟩).run n).2.cursor).run k).1 = (items.drop n).take k :=
  query_exact _ (by decide) _

end Dalaran
