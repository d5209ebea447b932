import Mathlib.Algebra.Order.BigOperators.Group.List
import Mathlib.Algebra.Order.Ring.Nat
import Dalaran.Store.StaticData

/-
  The counters of a store (`ChunkStoreChunkStats` in `stats.rs`).

  A chunk is added to a counter before it is stored, so between the two a counter is
  ahead of the store: `Tally extra st` says that the counters are the sums over the
  chunks there are and some `extra` ones. Adding, storing and removing a chunk each
  keep a tally (`Tally.count`, `Tally.store`, `Tally.release`).

  The code picks the counter by where it finds the id: a shallow removal takes every
  chunk for a temporal one, an overwrite for a static one, and dropping an entity
  goes by the map that mentions the id. `Kinded` says that these places are right
  about the chunk.
-/

namespace Dalaran

open List Assoc LineageDroppingCtx

/-! ## Sums of statistics -/

namespace ChunkStoreChunkStats

theorem add_eq (a b : ChunkStoreChunkStats) : a + b = ⟨a.numChunks + b.numChunks,
    a.totalSizeBytes + b.totalSizeBytes, a.numRows + b.numRows, a.numEvents + b.numEvents⟩ := rfl

theorem sub_eq (a b : ChunkStoreChunkStats) : a - b = ⟨a.numChunks - b.numChunks,
    a.totalSizeBytes - b.totalSizeBytes, a.numRows - b.numRows, a.numEvents - b.numEvents⟩ := rfl

theorem zero_eq : (0 : ChunkStoreChunkStats) = ⟨0, 0, 0, 0⟩ := rfl

instance : AddCommMonoid ChunkStoreChunkStats where
  add_assoc a b c := by simp only [add_eq, UInt64.add_assoc]
  zero_add a := by simp only [add_eq, zero_eq, UInt64.zero_add]
  add_zero a := by simp only [add_eq, zero_eq, UInt64.add_zero]
  add_comm a b := by simp only [add_eq, UInt64.add_comm]
  nsmul := nsmulRec

theorem add_sub_cancel_left (a b : ChunkStoreChunkStats) : a + b - a = b := by
  simp only [add_eq, sub_eq]
  have h : ∀ x y : UInt64, x + y - x = y := fun x y => by rw [UInt64.add_comm, UInt64.add_sub_cancel]
  simp only [h]

/-- No field is greater: the subtraction does not underflow. -/
instance : LE ChunkStoreChunkStats :=
  ⟨fun a b => a.numChunks ≤ b.numChunks ∧ a.totalSizeBytes ≤ b.totalSizeBytes ∧
    a.numRows ≤ b.numRows ∧ a.numEvents ≤ b.numEvents⟩

def ofChunks (cs : List Chunk) : ChunkStoreChunkStats := (cs.map fromChunk).sum

theorem ofChunks_cons (c : Chunk) (cs : List Chunk) : ofChunks (c :: cs) = fromChunk c + ofChunks cs := by
  simp [ofChunks]

theorem ofChunks_perm {cs ds : List Chunk} (h : cs.Perm ds) : ofChunks cs = ofChunks ds :=
  (h.map fromChunk).sum_eq

/-- The sum of each field fits in its `u64`. -/
structure Fits (cs : List Chunk) : Prop where
  numChunks : cs.length < 2 ^ 64
  totalSizeBytes : (cs.map Chunk.sizeBytes).sum < 2 ^ 64
  numRows : (cs.map Chunk.numRows).sum < 2 ^ 64
  numEvents : (cs.map Chunk.numEventsCumulative).sum < 2 ^ 64

theorem ofChunks_eq (cs : List Chunk) : ofChunks cs = ⟨UInt64.ofNat cs.length,
    UInt64.ofNat (cs.map Chunk.sizeBytes).sum, UInt64.ofNat (cs.map Chunk.numRows).sum,
    UInt64.ofNat (cs.map Chunk.numEventsCumulative).sum⟩ := by
  induction cs with
  | nil => rfl
  | cons c cs ih =>
    rw [ofChunks_cons, ih, add_eq, length_cons, Nat.add_comm]
    simp only [fromChunk, map_cons, sum_cons, UInt64.ofNat_add]
    rfl

theorem ofNat_le_ofNat {a b : Nat} (hab : a ≤ b) (hb : b < 2 ^ 64) : UInt64.ofNat a ≤ UInt64.ofNat b := by
  rw [UInt64.le_iff_toNat_le, UInt64.toNat_ofNat_of_lt' hb, UInt64.toNat_ofNat_of_lt' (hab.trans_lt hb)]
  exact hab

theorem fromChunk_le_ofChunks {c : Chunk} {cs : List Chunk} (hc : c ∈ cs) (h : Fits cs) :
    fromChunk c ≤ ofChunks cs := by
  have hfield : ∀ f : Chunk → Nat, f c ≤ (cs.map f).sum :=
    fun f => le_sum_of_mem (mem_map_of_mem hc)
  rw [ofChunks_eq]
  refine ⟨?_, ofNat_le_ofNat (hfield _) h.totalSizeBytes, ofNat_le_ofNat (hfield _) h.numRows,
    ofNat_le_ofNat (hfield _) h.numEvents⟩
  exact ofNat_le_ofNat (length_pos_of_mem hc) h.numChunks

theorem Fits.subperm {cs ds : List Chunk} (h : Fits ds) (hsub : cs.Subperm ds) : Fits cs := by
  obtain ⟨es, hperm, hsublist⟩ := hsub
  have hfield : ∀ f : Chunk → Nat, (cs.map f).sum ≤ (ds.map f).sum := by
    intro f
    calc (cs.map f).sum = (es.map f).sum := ((hperm.map f).sum_eq).symm
      _ ≤ (ds.map f).sum := (hsublist.map f).sum_le_sum fun _ _ => Nat.zero_le _
  have hlen : cs.length ≤ ds.length := hperm.length_eq ▸ hsublist.length_le
  exact ⟨hlen.trans_lt h.numChunks, (hfield _).trans_lt h.totalSizeBytes,
    (hfield _).trans_lt h.numRows, (hfield _).trans_lt h.numEvents⟩

end ChunkStoreChunkStats

namespace ChunkStore

open ChunkStoreChunkStats

variable {st st' : ChunkStore} {c : Chunk} {id : ChunkId} {extra : List Chunk}

/-! ## Tallies -/

def physicalChunks (st : ChunkStore) : List Chunk := Assoc.values st.physicalChunksPerChunkId

def counter (st : ChunkStore) (isStatic : Bool) : ChunkStoreChunkStats :=
  if isStatic then st.staticChunksStats else st.temporalPhysicalChunksStats

/-- The static ones of some chunks, or the temporal ones. -/
def ofKind (isStatic : Bool) (cs : List Chunk) : List Chunk := cs.filter fun c => c.isStatic == isStatic

/-- The counters are the sums over the physical chunks and some extra ones. -/
def Tally (extra : List Chunk) (st : ChunkStore) : Prop :=
  ∀ isStatic, st.counter isStatic = ofChunks (ofKind isStatic (extra ++ st.physicalChunks))

theorem ofChunks_ofKind_cons (isStatic : Bool) (c : Chunk) (cs : List Chunk) :
    ofChunks (ofKind isStatic (c :: cs)) =
      (if c.isStatic = isStatic then fromChunk c else 0) + ofChunks (ofKind isStatic cs) := by
  unfold ofKind
  by_cases h : c.isStatic = isStatic
  · rw [filter_cons_of_pos (by simpa using h), ofChunks_cons, if_pos h]
  · rw [filter_cons_of_neg (by simpa using h), if_neg h, zero_add]

theorem ofChunks_ofKind_perm {isStatic : Bool} {cs ds : List Chunk} (h : cs.Perm ds) :
    ofChunks (ofKind isStatic cs) = ofChunks (ofKind isStatic ds) :=
  ofChunks_perm (h.filter _)

theorem Tally.congr (h : Tally extra st) (hmap : st'.physicalChunksPerChunkId = st.physicalChunksPerChunkId)
    (hcounter : ∀ isStatic, st'.counter isStatic = st.counter isStatic) : Tally extra st' := by
  intro isStatic
  rw [hcounter, h isStatic, physicalChunks, physicalChunks, hmap]

theorem Tally.count (h : Tally extra st) (hmap : st'.physicalChunksPerChunkId = st.physicalChunksPerChunkId)
    (hcounter : ∀ isStatic, st'.counter isStatic =
      st.counter isStatic + if c.isStatic = isStatic then fromChunk c else 0) : Tally (c :: extra) st' := by
  intro isStatic
  rw [hcounter, h isStatic, cons_append, ofChunks_ofKind_cons, add_comm]
  unfold physicalChunks
  rw [hmap]

theorem Tally.store (h : Tally (c :: extra) st) (habsent : st.physical c.id = none)
    (hmap : st'.physicalChunksPerChunkId = AList.insert c.id c st.physicalChunksPerChunkId)
    (hcounter : ∀ isStatic, st'.counter isStatic = st.counter isStatic) : Tally extra st' := by
  intro isStatic
  rw [hcounter, h isStatic]
  refine ofChunks_ofKind_perm ?_
  unfold physicalChunks
  rw [hmap, cons_append]
  exact perm_middle.symm.trans ((values_insert_perm c habsent).symm.append_left extra)

theorem Tally.release (h : Tally extra st) (hc : st.physical id = some c)
    (hmap : st'.physicalChunksPerChunkId = AList.erase id st.physicalChunksPerChunkId)
    (hcounter : ∀ isStatic, st'.counter isStatic =
      if c.isStatic = isStatic then st.counter isStatic - fromChunk c else st.counter isStatic) :
    Tally extra st' := by
  intro isStatic
  have hsum : st.counter isStatic = (if c.isStatic = isStatic then fromChunk c else 0) +
      ofChunks (ofKind isStatic (extra ++ st'.physicalChunks)) := by
    rw [h isStatic, ← ofChunks_ofKind_cons]
    refine ofChunks_ofKind_perm ?_
    refine ((values_perm_erase hc).append_left extra).trans ?_
    unfold physicalChunks
    rw [hmap]
    exact perm_middle
  rw [hcounter, hsum]
  split
  · exact add_sub_cancel_left _ _
  · exact zero_add _

/-! ## Where an id is found, and what kind of chunk it has -/

variable {isStaticId : ChunkId → Bool}

/-- Every place a counter is picked by is right about the kind of its ids. -/
structure Kinded (isStaticId : ChunkId → Bool) (st : ChunkStore) : Prop where
  physical : ∀ id c, st.physical id = some c → c.isStatic = isStaticId id
  static : ∀ key id, st.staticChunkIdsPerEntity.lookup key = some id → isStaticId id = true
  listed : ∀ id s, st.ListedAt id s → isStaticId id = false
  pieces : ∀ id g, st.danglingSplits.lookup id = some g → ∀ x ∈ g, isStaticId x = false

theorem Kinded.mono (h : Kinded isStaticId st)
    (hphys : ∀ id c, st'.physical id = some c → st.physical id = some c)
    (hstatic : ∀ key id, st'.staticChunkIdsPerEntity.lookup key = some id →
      st.staticChunkIdsPerEntity.lookup key = some id)
    (hlisted : ∀ id s, st'.ListedAt id s → st.ListedAt id s)
    (hpieces : ∀ id g, st'.danglingSplits.lookup id = some g → st.danglingSplits.lookup id = some g) :
    Kinded isStaticId st' where
  physical id c hc := h.physical id c (hphys id c hc)
  static key id hid := h.static key id (hstatic key id hid)
  listed id s hs := h.listed id s (hlisted id s hs)
  pieces id g hg := h.pieces id g (hpieces id g hg)

/-- What every step of an operation keeps: the kinds, and the tally. -/
structure Booked (isStaticId : ChunkId → Bool) (extra : List Chunk) (st : ChunkStore) : Prop where
  kinds : Kinded isStaticId st
  tally : Tally extra st

theorem Booked.congr (h : Booked isStaticId extra st)
    (hmap : st'.physicalChunksPerChunkId = st.physicalChunksPerChunkId)
    (hcounter : ∀ isStatic, st'.counter isStatic = st.counter isStatic)
    (hstatic : ∀ key id, st'.staticChunkIdsPerEntity.lookup key = some id →
      st.staticChunkIdsPerEntity.lookup key = some id)
    (hlisted : ∀ id s, st'.ListedAt id s → st.ListedAt id s)
    (hpieces : ∀ id g, st'.danglingSplits.lookup id = some g → st.danglingSplits.lookup id = some g) :
    Booked isStaticId extra st' := by
  refine ⟨h.kinds.mono (fun id c hc => ?_) hstatic hlisted hpieces, h.tally.congr hmap hcounter⟩
  unfold ChunkStore.physical at hc ⊢
  rwa [hmap] at hc

/-! ## Shallow removals -/

theorem removeMinRowId_booked (h : Booked isStaticId extra st) (c : Chunk) (id : ChunkId) :
    Booked isStaticId extra (st.removeMinRowId c id) := by
  unfold removeMinRowId
  split
  · exact h.congr rfl (fun _ => rfl) (fun _ _ hid => hid) (fun _ _ hs => hs) fun _ _ hg => hg
  · exact h

theorem releasePhysical_counter (st : ChunkStore) (removed : Chunk) (id : ChunkId) :
    (st.releasePhysical removed id).physicalChunksPerChunkId = AList.erase id st.physicalChunksPerChunkId ∧
      (st.releasePhysical removed id).counter true = st.counter true ∧
      (st.releasePhysical removed id).counter false = st.counter false - fromChunk removed := by
  unfold releasePhysical unlistIfForgotten
  split <;> exact ⟨rfl, rfl, rfl⟩

theorem releasePhysical_booked (h : Booked isStaticId extra st) (hc : st.physical id = some c)
    (hid : isStaticId id = false) : Booked isStaticId extra (st.releasePhysical c id) := by
  have hkind : c.isStatic = false := (h.kinds.physical id c hc).trans hid
  obtain ⟨hmap, hstatic, htemporal⟩ := releasePhysical_counter st c id
  obtain ⟨h1, h2, -⟩ := releasePhysical_frame st c id
  have hshrinks := dropLineageReference_shrinks st.toLineageDroppingCtx c.id
  rw [← h1] at hshrinks
  have hcat := releasePhysical_catalog st c id
  refine ⟨h.kinds.mono (fun x d hd => ?_) (fun key x hx => h2 ▸ hx) (fun x s hx => ?_)
    hshrinks.dangling_of, h.tally.release hc hmap fun isStatic => ?_⟩
  · unfold ChunkStore.physical at hd ⊢
    rw [hmap, lookup_erase_ite] at hd
    split at hd
    · cases hd
    · exact hd
  · have hx' : (st.releasePhysical c id).catalog.listed x s := hx
    rw [hcat] at hx'
    split at hx'
    · exact hx'
    · exact hx'.1
  · cases isStatic with
    | true =>
      rw [if_neg (by simp [hkind])]
      exact hstatic
    | false =>
      rw [if_pos hkind]
      exact htemporal

theorem removeChunkShallow_booked (h : Booked isStaticId extra st) (hc : isStaticId c.id = false) :
    Booked isStaticId extra (st.removeChunkShallow c).1 := by
  have hmin := removeMinRowId_booked h c c.id
  rcases removeChunkShallow_cases st c with ⟨-, heq⟩ | ⟨removed, hsome, heq⟩
  · rw [heq]
    exact hmin
  · rw [heq]
    refine releasePhysical_booked hmin ?_ hc
    have hchunks := congrArg Catalog.chunks (removeMinRowId_catalog st c c.id)
    exact (congrFun hchunks c.id).trans hsome

theorem removeChunksShallow_booked (h : Booked isStaticId extra st) {chunks : List Chunk}
    (hchunks : ∀ c ∈ chunks, isStaticId c.id = false) (budget : Option (Nat → Bool))
    (reason : ChunkDeletionReason) :
    Booked isStaticId extra (st.removeChunksShallow chunks budget reason).1 :=
  removeShallowLoop_induct (I := Booked isStaticId extra)
    (fun _ c hc hst => removeChunkShallow_booked hst (hchunks c hc)) h

theorem removeChunkFromVirtualIndices_booked (h : Booked isStaticId extra st) (c : Chunk) :
    Booked isStaticId extra (st.removeChunkFromVirtualIndices c).1 := by
  have hlisted := congrArg Catalog.listed (removeChunkFromVirtualIndices_catalog st c)
  refine h.congr rfl (fun _ => rfl) (fun _ _ hid => hid) (fun id s hs => ?_) fun _ _ hg => hg
  exact ((congrFun (congrFun hlisted id) s).mp hs).1

theorem removeChunksDeep_booked (h : Booked isStaticId extra st) {chunks : List Chunk}
    (hchunks : ∀ c ∈ chunks, isStaticId c.id = false) (reason : ChunkDeletionReason) :
    Booked isStaticId extra (st.removeChunksDeep chunks reason).1 :=
  removeChunksDeep_induct (I := Booked isStaticId extra)
    (fun _ c hc hst => removeChunkShallow_booked hst (hchunks c hc))
    (fun _ c _ hst => removeChunkFromVirtualIndices_booked hst c) h

/-! ## Subtractions -/

/-- A subtraction: what the counter holds, the chunk that is taken off it, and the chunks that are
counted but not stored at that time. -/
structure Debit where
  counter : ChunkStoreChunkStats
  chunk : Chunk
  pending : List Chunk

/-- The counter is the sum over some of the chunks there were, the one taken off among them. -/
def Debit.Covered (pool : List Chunk) (d : Debit) : Prop :=
  ∃ counted, d.counter = ofChunks counted ∧ d.chunk ∈ counted ∧ counted.Subperm (d.pending ++ pool)

variable {d : Debit}

theorem Debit.Covered.mono {pool pool' : List Chunk} (h : d.Covered pool)
    (hsub : pool.Subperm pool') : d.Covered pool' := by
  obtain ⟨counted, hcounter, hmem, hcounted⟩ := h
  exact ⟨counted, hcounter, hmem, hcounted.trans ((subperm_append_left _).mpr hsub)⟩

theorem Debit.Covered.le {pool : List Chunk} (h : d.Covered pool)
    (hfits : Fits (d.pending ++ pool)) : fromChunk d.chunk ≤ d.counter := by
  obtain ⟨counted, hcounter, hmem, hsub⟩ := h
  rw [hcounter]
  exact fromChunk_le_ofChunks hmem (hfits.subperm hsub)

theorem Booked.covered (h : Booked isStaticId extra st) (hc : st.physical id = some c) :
    Debit.Covered st.physicalChunks ⟨st.counter c.isStatic, c, extra⟩ := by
  refine ⟨_, h.tally c.isStatic, ?_, filter_sublist.subperm⟩
  have hmem : c ∈ st.physicalChunks := mem_values.mpr ⟨id, hc⟩
  exact mem_filter.mpr ⟨mem_append_right _ hmem, by simp⟩

theorem physicalChunks_subperm (h : ∀ id c, st'.physical id = some c → st.physical id = some c) :
    st'.physicalChunks.Subperm st.physicalChunks := by
  have hentries : st'.physicalChunksPerChunkId.entries.Subperm st.physicalChunksPerChunkId.entries := by
    refine subperm_of_subset st'.physicalChunksPerChunkId.nodupKeys.nodup fun e he => ?_
    exact AList.mem_lookup_iff.mp (h e.1 e.2 (AList.mem_lookup_iff.mpr he))
  obtain ⟨l, hperm, hsublist⟩ := hentries
  exact ⟨l.map _, hperm.map _, hsublist.map _⟩

/-- The subtractions of a shallow removal. -/
def shallowDebits (extra : List Chunk) (budget : Option (Nat → Bool)) : Nat → ChunkStore → List Chunk → List Debit
  | _, _, [] => []
  | n, st, c :: chunks =>
    match st.physical c.id with
    | none => shallowDebits extra budget n (st.removeChunkShallow c).1 chunks
    | some removed =>
      ⟨st.counter false, removed, extra⟩ :: if budget.any (· n) then []
        else shallowDebits extra budget (n + 1) (st.removeChunkShallow c).1 chunks

theorem removeChunkShallow_physical_of (st : ChunkStore) (c : Chunk) :
    ∀ x d, (st.removeChunkShallow c).1.physical x = some d → st.physical x = some d := by
  intro x d hd
  have hmin : (st.removeMinRowId c c.id).physical = st.physical :=
    congrArg Catalog.chunks (removeMinRowId_catalog st c c.id)
  rcases removeChunkShallow_cases st c with ⟨-, heq⟩ | ⟨removed, -, heq⟩
  · rw [heq, hmin] at hd
    exact hd
  · rw [← hmin]
    rw [heq] at hd
    unfold ChunkStore.physical at hd ⊢
    rw [(releasePhysical_counter _ removed c.id).1, lookup_erase_ite] at hd
    split at hd
    · cases hd
    · exact hd

theorem shallowDebits_covered {budget : Option (Nat → Bool)} :
    ∀ {chunks : List Chunk} {n : Nat} {st : ChunkStore}, Booked isStaticId extra st →
      (∀ c ∈ chunks, isStaticId c.id = false) → d ∈ shallowDebits extra budget n st chunks →
      d.pending = extra ∧ d.Covered st.physicalChunks
  | [], _, _, _, _, hd => by cases hd
  | c :: chunks, n, st, h, hchunks, hd => by
    have hc := hchunks c mem_cons_self
    have htail : ∀ c' ∈ chunks, isStaticId c'.id = false :=
      fun c' hc' => hchunks c' (mem_cons_of_mem _ hc')
    have hstep := removeChunkShallow_booked h hc
    have hsub := physicalChunks_subperm (removeChunkShallow_physical_of st c)
    have hrest : ∀ m, d ∈ shallowDebits extra budget m (st.removeChunkShallow c).1 chunks →
        d.pending = extra ∧ d.Covered st.physicalChunks := by
      intro m hm
      obtain ⟨hp, hcov⟩ := shallowDebits_covered hstep htail hm
      exact ⟨hp, hcov.mono hsub⟩
    unfold shallowDebits at hd
    cases hphys : st.physical c.id with
    | none =>
      rw [hphys] at hd
      exact hrest n hd
    | some removed =>
      rw [hphys] at hd
      rcases mem_cons.mp hd with rfl | hd
      · have hkind : removed.isStatic = false := (h.kinds.physical _ _ hphys).trans hc
        have hcov := h.covered hphys
        rw [hkind] at hcov
        exact ⟨rfl, hcov⟩
      · split at hd
        · cases hd
        · exact hrest (n + 1) hd

/-! ## Overwrites -/

/-- The subtractions of the loop that removes overwritten chunks. -/
def overwriteDebits (extra : List Chunk) (e : EntityPath) : ChunkStore → List (ChunkId × RowId) → List Debit
  | _, [] => []
  | st, overwritten :: rest =>
    (if (Assoc.toList st.staticChunkIdsPerEntity).any fun p => decide (p.1.1 = e ∧ p.2 = overwritten.1)
      then []
      else (st.physical overwritten.1).toList.map fun removed => ⟨st.counter true, removed, extra⟩) ++
    overwriteDebits extra e (removeOverwritten e (st, []) overwritten).1 rest

theorem removeOverwritten_booked {acc : ChunkStore × List ChunkStoreDiff}
    (h : Booked isStaticId extra acc.1) (hid : isStaticId id = true) (e : EntityPath) (r : RowId) :
    Booked isStaticId extra (removeOverwritten e acc (id, r)).1 ∧
      ∀ x d, (removeOverwritten e acc (id, r)).1.physical x = some d → acc.1.physical x = some d := by
  rcases removeOverwritten_cases e acc id r with heq | ⟨-, heq⟩ | ⟨removed, hsome, -, heq⟩
  · rw [heq]
    exact ⟨h, fun _ _ hd => hd⟩
  · rw [heq]
    exact ⟨h.congr rfl (fun _ => rfl) (fun _ _ hx => hx) (fun _ _ hs => hs) fun _ _ hg => hg, fun _ _ hd => hd⟩
  · rw [heq]
    have hkind : removed.isStatic = true := (h.kinds.physical id removed hsome).trans hid
    have hback : ∀ x d, (AList.erase id acc.1.physicalChunksPerChunkId).lookup x = some d →
        acc.1.physical x = some d := by
      intro x d hd
      rw [lookup_erase_ite] at hd
      split at hd
      · cases hd
      · exact hd
    have hshrinks := dropLineageReference_shrinks acc.1.toLineageDroppingCtx id
    refine ⟨⟨h.kinds.mono hback (fun _ _ hx => hx) (fun _ _ hs => hs) hshrinks.dangling_of, ?_⟩, hback⟩
    refine h.tally.release hsome rfl fun isStatic => ?_
    cases isStatic with
    | true =>
      rw [if_pos hkind]
      rfl
    | false =>
      rw [if_neg (by simp [hkind])]
      rfl

theorem overwriteDebits_covered {e : EntityPath} :
    ∀ {os : List (ChunkId × RowId)} {st : ChunkStore}, Booked isStaticId extra st →
      (∀ o ∈ os, isStaticId o.1 = true) → d ∈ overwriteDebits extra e st os →
      d.pending = extra ∧ d.Covered st.physicalChunks
  | [], _, _, _, hd => by cases hd
  | o :: os, st, h, hos, hd => by
    have ho := hos o mem_cons_self
    obtain ⟨hstep, hback⟩ := @removeOverwritten_booked o.1 extra isStaticId (st, []) h ho e o.2
    unfold overwriteDebits at hd
    rcases mem_append.mp hd with hd | hd
    · split at hd
      · cases hd
      · obtain ⟨removed, hremoved, rfl⟩ := mem_map.mp hd
        have hphys : st.physical o.1 = some removed := Option.mem_toList.mp hremoved
        have hkind : removed.isStatic = true := (h.kinds.physical _ _ hphys).trans ho
        have hcov := h.covered hphys
        rw [hkind] at hcov
        exact ⟨rfl, hcov⟩
    · obtain ⟨hp, hcov⟩ := overwriteDebits_covered hstep
        (fun o' ho' => hos o' (mem_cons_of_mem _ ho')) hd
      exact ⟨hp, hcov.mono (physicalChunks_subperm hback)⟩

/-! ## Dropping an entity -/

def dropDebits (isStatic : Bool) : ChunkStore → List ChunkId → List Debit
  | _, [] => []
  | st, id :: ids =>
    match st.physical id with
    | none => dropDebits isStatic st ids
    | some c => ⟨st.counter isStatic, c, []⟩ :: dropDebits isStatic (dropPhysical isStatic st [id]).1 ids

theorem dropPhysical_cons (isStatic : Bool) (st : ChunkStore) (id : ChunkId) (ids : List ChunkId) :
    (dropPhysical isStatic st (id :: ids)).1 = (dropPhysical isStatic (dropPhysical isStatic st [id]).1 ids).1 := by
  cases hphys : st.physical id with
  | none => simp [dropPhysical, hphys]
  | some c => simp [dropPhysical, hphys]

theorem dropPhysical_single_booked (h : Booked isStaticId extra st) :
    Booked isStaticId extra (dropPhysical (isStaticId id) st [id]).1 ∧
      ∀ x d, (dropPhysical (isStaticId id) st [id]).1.physical x = some d → st.physical x = some d := by
  unfold dropPhysical
  cases hphys : st.physical id with
  | none => exact ⟨h, fun _ _ hd => hd⟩
  | some c =>
    have hkind := h.kinds.physical id c hphys
    have hback : ∀ x d, (AList.erase id st.physicalChunksPerChunkId).lookup x = some d →
        st.physical x = some d := by
      intro x d hd
      rw [lookup_erase_ite] at hd
      split at hd
      · cases hd
      · exact hd
    refine ⟨⟨h.kinds.mono hback (fun _ _ hx => hx) (fun _ _ hs => hs) fun _ _ hg => hg, ?_⟩, hback⟩
    refine h.tally.release hphys rfl fun isStatic => ?_
    rw [hkind]
    cases isStaticId id <;> cases isStatic <;> rfl

theorem dropPhysical_booked (isStatic : Bool) : ∀ {ids : List ChunkId} {st : ChunkStore},
    Booked isStaticId extra st → (∀ id ∈ ids, isStaticId id = isStatic) →
      Booked isStaticId extra (dropPhysical isStatic st ids).1
  | [], _, h, _ => h
  | id :: ids, st, h, hids => by
    rw [dropPhysical_cons]
    have hid := hids id mem_cons_self
    have hstep := (@dropPhysical_single_booked st id extra isStaticId h).1
    rw [hid] at hstep
    exact dropPhysical_booked isStatic hstep fun x hx => hids x (mem_cons_of_mem _ hx)

theorem dropDebits_covered (isStatic : Bool) : ∀ {ids : List ChunkId} {st : ChunkStore},
    Booked isStaticId [] st → (∀ id ∈ ids, isStaticId id = isStatic) → d ∈ dropDebits isStatic st ids →
      d.pending = [] ∧ d.Covered st.physicalChunks
  | [], _, _, _, hd => by cases hd
  | id :: ids, st, h, hids, hd => by
    have hid := hids id mem_cons_self
    have htail : ∀ x ∈ ids, isStaticId x = isStatic := fun x hx => hids x (mem_cons_of_mem _ hx)
    obtain ⟨hstep, hback⟩ := @dropPhysical_single_booked st id [] isStaticId h
    rw [hid] at hstep hback
    unfold dropDebits at hd
    cases hphys : st.physical id with
    | none =>
      rw [hphys] at hd
      exact dropDebits_covered isStatic h htail hd
    | some c =>
      rw [hphys] at hd
      rcases mem_cons.mp hd with rfl | hd
      · have hcov := h.covered hphys
        rw [h.kinds.physical _ _ hphys, hid] at hcov
        exact ⟨rfl, hcov⟩
      · obtain ⟨hp, hcov⟩ := dropDebits_covered isStatic hstep htail hd
        exact ⟨hp, hcov.mono (physicalChunks_subperm hback)⟩

end ChunkStore

end Dalaran
