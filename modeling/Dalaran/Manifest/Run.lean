import Dalaran.Manifest.Fetcher

/-
  Runs of the index: what can happen to it, in any order.

  A pass (`prefetch`) is one step, since a fetcher borrows the index until it is
  finished, and so are polling the requests, inserting what they bring, and
  reporting that (`receive`). The store of a step can be any store, and its events
  any events. A request is settled by the network, at any time.

  Correspondence (Rust ↔ Lean):
    `fetch_chunks` of the viewer, `RrdManifestIndex::prefetch_chunks` ↔ `ManifestOp.prefetch`
    a `ChunkPromise` that becomes ready ↔ `ManifestOp.settle`
    `receive_fetched_chunks` of the viewer ↔ `ManifestOp.receive`
    `RrdManifestIndex::cancel_outdated_requests` ↔ `ManifestOp.cancel`
    `RrdManifestIndex::on_events` ↔ `ManifestOp.storeEvents`
-/

namespace Dalaran

open List Option

inductive ManifestOp where
  | append (delta : RrdManifest) (concatenates : Bool)
  | prefetch (pass : PrefetchPass)
  | settle (batch : Nat) (result : Except Unit (List Chunk))
  | receive (store : ChunkStore) (events : List ChunkStoreDiff)
  | cancel
  | storeEvents (store : ChunkStore) (events : List ChunkStoreDiff)

def ChunkBatchRequest.settle (batch : ChunkBatchRequest) (result : Except Unit (List Chunk)) : ChunkBatchRequest :=
  match batch.promise with
  | some .pending => { batch with promise := some (.ready result) }
  | _ => batch

namespace RrdManifestIndex

def settle (idx : RrdManifestIndex) (batch : Nat) (result : Except Unit (List Chunk)) : RrdManifestIndex :=
  { idx with
    chunkPrioritizer :=
      { idx.chunkPrioritizer with
        chunkRequests := idx.chunkPrioritizer.chunkRequests.modify batch (·.settle result) } }

/-- One step; `none` is a panic. -/
def step (idx : RrdManifestIndex) : ManifestOp → Option RrdManifestIndex
  | .append delta concatenates => some (idx.append delta concatenates).1
  | .prefetch pass => idx.prefetch pass
  | .settle batch result => some (idx.settle batch result)
  | .receive store events => some (idx.receiveFinished.2.onEvents store events)
  | .cancel => some idx.cancelOutdatedRequests
  | .storeEvents store events => some (idx.onEvents store events)

def run (idx : RrdManifestIndex) : List ManifestOp → Option RrdManifestIndex
  | [] => some idx
  | op :: ops => (idx.step op).bind fun idx => run idx ops

/-- Every step of a run meets a condition in the state it is taken in. -/
def StepsMeet (condition : RrdManifestIndex → ManifestOp → Prop) (idx : RrdManifestIndex) : List ManifestOp → Prop
  | [] => True
  | op :: ops => condition idx op ∧ ∀ idx', idx.step op = some idx' → StepsMeet condition idx' ops

theorem StepsMeet.cons {condition : RrdManifestIndex → ManifestOp → Prop} {idx next : RrdManifestIndex}
    {op : ManifestOp} {ops : List ManifestOp} (hstep : idx.step op = some next) (hop : condition idx op)
    (hops : StepsMeet condition next ops) : StepsMeet condition idx (op :: ops) :=
  ⟨hop, fun _ h => mem_unique hstep h ▸ hops⟩

theorem StepsMeet.of_forall {condition : RrdManifestIndex → ManifestOp → Prop} {ops : List ManifestOp}
    (h : ∀ op ∈ ops, ∀ idx, condition idx op) : ∀ idx, StepsMeet condition idx ops := by
  induction ops with
  | nil => exact fun _ => trivial
  | cons op ops ih =>
    intro idx
    exact ⟨h op mem_cons_self idx, fun next _ => ih (fun op hop => h op (mem_cons_of_mem _ hop)) next⟩

theorem run_induction {condition : RrdManifestIndex → ManifestOp → Prop}
    {P : RrdManifestIndex → Prop}
    (hstep : ∀ idx op idx', P idx → condition idx op → idx.step op = some idx' → P idx') :
    ∀ (ops : List ManifestOp) (idx idx' : RrdManifestIndex), P idx → StepsMeet condition idx ops →
      idx.run ops = some idx' → P idx' := by
  intro ops
  induction ops with
  | nil =>
    intro idx idx' h _ hrun
    exact some.inj hrun ▸ h
  | cons op ops ih =>
    intro idx idx' h hmeets hrun
    obtain ⟨next, hnext, hrun⟩ := bind_eq_some_iff.mp hrun
    exact ih next idx' (hstep idx op next h hmeets.1 hnext) (hmeets.2 next hnext) hrun

/-! ## What a step changes of the states -/

@[simp] theorem setState_lookup (idx : RrdManifestIndex) (chunk c : ChunkId) (state : LoadState) :
    (idx.setState chunk state).rootChunks.lookup c =
      if c = chunk then (idx.rootChunks.lookup c).map fun info => { info with state := state }
      else idx.rootChunks.lookup c := by
  simp only [setState, Assoc.lookup_modify]
  split
  · rename_i h
    rw [h]
  · rfl

def setStates (idx : RrdManifestIndex) (chunks : List ChunkId) (state : LoadState) : RrdManifestIndex :=
  chunks.foldl (fun idx chunk => idx.setState chunk state) idx

theorem setStates_frame (chunks : List ChunkId) (state : LoadState) (idx : RrdManifestIndex) :
    idx.setStates chunks state = { idx with rootChunks := (idx.setStates chunks state).rootChunks } := by
  unfold setStates
  induction chunks generalizing idx with
  | nil => rfl
  | cons chunk chunks ih =>
    rw [foldl_cons, ih]
    rfl

theorem setStates_lookup (chunks : List ChunkId) (state : LoadState) (idx : RrdManifestIndex)
    (c : ChunkId) :
    (idx.setStates chunks state).rootChunks.lookup c =
      if c ∈ chunks then (idx.rootChunks.lookup c).map fun info => { info with state := state }
      else idx.rootChunks.lookup c := by
  unfold setStates
  induction chunks generalizing idx with
  | nil => simp
  | cons chunk chunks ih =>
    rw [foldl_cons, ih, setState_lookup]
    by_cases hc : c = chunk
    · subst hc
      simp only [mem_cons, true_or, if_true]
      split
      · rw [Option.map_map]
        rfl
      · rfl
    · simp [hc]

theorem markRootAs_frame (idx : RrdManifestIndex) (newState : LoadState) (chunk : ChunkId) :
    idx.markRootAs newState chunk =
      { idx.setState chunk newState with
        loadedRanges := (idx.markRootAs newState chunk).loadedRanges } := by
  unfold markRootAs
  cases h : idx.rootChunks.lookup chunk with
  | some info => rfl
  | none =>
    have hsame : Assoc.modify idx.rootChunks chunk
        (fun info : RootChunkInfo => { info with state := newState }) = idx.rootChunks := by
      rw [Assoc.modify, h]
    simp only [setState, hsame]

theorem markRootAs_rootChunks (idx : RrdManifestIndex) (newState : LoadState) (chunk : ChunkId) :
    (idx.markRootAs newState chunk).rootChunks = (idx.setState chunk newState).rootChunks := by
  rw [markRootAs_frame]

theorem markRootAs_prioritizer (idx : RrdManifestIndex) (newState : LoadState) (chunk : ChunkId) :
    (idx.markRootAs newState chunk).chunkPrioritizer = idx.chunkPrioritizer := by
  rw [markRootAs_frame]
  rfl

/-! ## The roots that events mark -/

/-- The chunk whose roots an event marks, and the state they get. -/
def marks : ChunkStoreDiff → Option (ChunkId × LoadState)
  | .addition before _ _ => some (before.id, .fullyLoaded)
  | .deletion deletion => some (deletion.chunk.id, .unloaded)
  | .virtualAddition _ => none

def rootMarks (store : ChunkStore) (event : ChunkStoreDiff) : List (ChunkId × LoadState) :=
  match marks event with
  | some (chunk, state) => (store.findRootChunks chunk).map fun root => (root, state)
  | none => []

theorem onEvent_eq_foldl (idx : RrdManifestIndex) (store : ChunkStore) (event : ChunkStoreDiff) :
    idx.onEvent store event = (rootMarks store event).foldl (fun idx mark => idx.markRootAs mark.2 mark.1) idx := by
  cases event with
  | addition before after lineage =>
    simp only [onEvent, rootMarks, marks, markRootsAs, foldl_map]
  | deletion deletion => simp only [onEvent, rootMarks, marks, markRootsAs, foldl_map]
  | virtualAddition manifest => rfl

/-- What the events of a step mark; without a manifest, nothing. -/
def marksOf (idx : RrdManifestIndex) (store : ChunkStore) (events : List ChunkStoreDiff) :
    List (ChunkId × LoadState) :=
  match idx.manifest with
  | some _ => events.flatMap (rootMarks store)
  | none => []

theorem onEvents_eq_foldl (idx : RrdManifestIndex) (store : ChunkStore) (events : List ChunkStoreDiff) :
    idx.onEvents store events =
      (idx.marksOf store events).foldl (fun idx mark => idx.markRootAs mark.2 mark.1) idx := by
  unfold onEvents marksOf
  cases idx.manifest with
  | none => rfl
  | some manifest =>
    simp only [foldl_flatMap, onEvent_eq_foldl]

theorem state_of_mem_rootMarks {store : ChunkStore} {event : ChunkStoreDiff} {mark : ChunkId × LoadState}
    (h : mark ∈ rootMarks store event) : mark.2 ≠ .inTransit := by
  unfold rootMarks marks at h
  cases event with
  | addition before after lineage | deletion deletion =>
    obtain ⟨root, -, rfl⟩ := List.mem_map.mp h
    exact LoadState.noConfusion
  | virtualAddition manifest => simp at h

theorem state_of_mem_marksOf {idx : RrdManifestIndex} {store : ChunkStore}
    {events : List ChunkStoreDiff} {mark : ChunkId × LoadState} (h : mark ∈ idx.marksOf store events) :
    mark.2 ≠ .inTransit := by
  unfold marksOf at h
  split at h
  · obtain ⟨event, -, hmark⟩ := mem_flatMap.mp h
    exact state_of_mem_rootMarks hmark
  · simp at h

theorem foldl_markRootAs_lookup (l : List (ChunkId × LoadState)) (idx : RrdManifestIndex) (c : ChunkId) :
    let idx' := l.foldl (fun idx mark => idx.markRootAs mark.2 mark.1) idx
    idx'.chunkPrioritizer = idx.chunkPrioritizer ∧
      (c ∉ l.map Prod.fst → idx'.rootChunks.lookup c = idx.rootChunks.lookup c) ∧
      (c ∈ l.map Prod.fst → ∀ info', idx'.rootChunks.lookup c = some info' →
        ∃ info mark, idx.rootChunks.lookup c = some info ∧ mark ∈ l ∧ mark.1 = c ∧
          info' = { info with state := mark.2 }) := by
  induction l using reverseRecOn with
  | nil => simp
  | append_singleton l mark ih =>
    obtain ⟨hprioritizer, hother, hmarked⟩ := ih
    simp only [foldl_append, foldl_cons, foldl_nil, markRootAs_prioritizer,
      markRootAs_rootChunks, setState_lookup, map_append, map_cons, map_nil]
    refine ⟨hprioritizer, ?_, ?_⟩
    · intro hc
      rw [mem_append, mem_singleton, not_or] at hc
      rw [if_neg hc.2, hother hc.1]
    · intro hc info' hinfo'
      by_cases hlast : c = mark.1
      · rw [if_pos hlast] at hinfo'
        obtain ⟨info, hinfo, rfl⟩ := map_eq_some_iff.mp hinfo'
        by_cases hl : c ∈ l.map Prod.fst
        · obtain ⟨info₀, mark₀, hinfo₀, -, -, rfl⟩ := hmarked hl info hinfo
          exact ⟨info₀, mark, hinfo₀, by simp, hlast.symm, rfl⟩
        · exact ⟨info, mark, hother hl ▸ hinfo, by simp, hlast.symm, rfl⟩
      · rw [if_neg hlast] at hinfo'
        rw [mem_append, mem_singleton, or_iff_left hlast] at hc
        obtain ⟨info, mark₀, hinfo, hmem, hfst, rfl⟩ := hmarked hc info' hinfo'
        exact ⟨info, mark₀, hinfo, mem_append_left _ hmem, hfst, rfl⟩

/-! ## Listing rows -/

theorem insertRows_lookup (rows : List RrdManifestRow) (rootChunks : Assoc ChunkId RootChunkInfo)
    (offset : Nat) (c : ChunkId) :
    (c ∉ rows.map (·.chunkId) → (insertRows rootChunks offset rows).lookup c = rootChunks.lookup c) ∧
      (c ∈ rows.map (·.chunkId) → ∃ i, (rows[i]?).map (·.chunkId) = some c ∧
        (insertRows rootChunks offset rows).lookup c = some (RootChunkInfo.new (offset + i))) := by
  induction rows generalizing rootChunks offset with
  | nil => simp [insertRows]
  | cons row rows ih =>
    rw [insertRows]
    obtain ⟨hother, hlisted⟩ := ih (rootChunks.insert row.chunkId (RootChunkInfo.new offset)) (offset + 1)
    refine ⟨?_, ?_⟩
    · intro hc
      rw [map_cons, mem_cons, not_or] at hc
      rw [hother hc.2, Assoc.lookup_insert_ite, if_neg hc.1]
    · intro hc
      by_cases hrows : c ∈ rows.map (·.chunkId)
      · obtain ⟨i, hi, hl⟩ := hlisted hrows
        exact ⟨i + 1, by simpa using hi, by rw [hl, Nat.add_assoc, Nat.add_comm 1 i]⟩
      · rw [map_cons, mem_cons, or_iff_left hrows] at hc
        refine ⟨0, by simp [hc], ?_⟩
        rw [hother hrows, Assoc.lookup_insert_ite, if_pos hc]
        rfl

end RrdManifestIndex

end Dalaran
