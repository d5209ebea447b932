import Mathlib.Data.List.TakeWhile
import Dalaran.Batcher.Thread

/-
  What the batching thread has sent when a flush is acknowledged, and at its end.

  `Ledger` is the invariant of the loop: what was sent is what came of a list of
  hand-overs, the chunks handed over are the chunks appended, and for every entity
  the rows handed over, with the rows that are pending, are the rows appended, in
  order. A flush leaves no row pending, and neither does the end of the thread
  (`run_flushed`). A thread whose rows can be turned into chunks does not die
  (`run_ok`).
-/

namespace Dalaran

open List Bool Assoc PendingRow
open Collect (bind_eq_ok)

/-! ## Rows that can be turned into chunks -/

theorem Traversal.CollisionFree.subset {T : Traversal} {rows rows' : List PendingRow} (h : T.CollisionFree rows)
    (hsub : ∀ row ∈ rows', row ∈ rows) : T.CollisionFree rows' where
  timelines := fun a ha b hb => h.timelines a (hsub a ha) b (hsub b hb)
  datatypes := fun a ha b hb => h.datatypes a (hsub a ha) b (hsub b hb)

namespace PendingRow

variable {T : Traversal} {max : UInt64} {rows run : List PendingRow} {entityPath : EntityPath}

theorem batch_subperm (h : run ∈ batches T max rows) : run.Subperm rows :=
  (sublist_flatten_of_mem h).subperm.trans (batches_perm T max rows).subperm

/-- No component is too long for a list array. -/
def Fits (rows : List PendingRow) : Prop :=
  ∀ component, (rows.map fun row => (row.arrayOf component).elim 0 (·.values.length)).sum ≤ I32_MAX

theorem Fits.subperm (h : Fits rows) (hsub : run.Subperm rows) : Fits run := by
  intro component
  obtain ⟨part, hperm, hsub⟩ := hsub
  rw [← (hperm.map _).sum_eq]
  exact le_trans ((hsub.map _).sum_le_sum fun _ _ => Nat.zero_le _) (h component)

theorem manyIntoChunks_ok (hfree : T.CollisionFree rows) (hfits : Fits rows) (n : Nat) :
    ∃ results, manyIntoChunks T n entityPath max rows = .ok results := by
  have hruns : ∀ run ∈ batches T max rows, Fits run := fun run hrun => hfits.subperm (batch_subperm hrun)
  have h := @manyIntoChunks_forall₂ T max rows hfree n
  unfold manyIntoChunks
  generalize (manyIntoColumns T max rows).zipIdx n = columns at h ⊢
  generalize batches T max rows = runs at h hruns
  induction h with
  | nil => exact ⟨[], rfl⟩
  | @cons columns run columns' runs' hof _ ih =>
    obtain ⟨results, hresults⟩ := ih fun run' hrun' => hruns run' (mem_cons_of_mem _ hrun')
    obtain ⟨all, first, hof⟩ := hof
    obtain ⟨chunk, hchunk, -⟩ := hof.intoChunk T (T.newChunkId columns.2) entityPath fun component _ =>
      PendingColumns.arraysToListArrayOpt_ok (hruns run mem_cons_self component)
    refine ⟨.ok chunk :: results, ?_⟩
    rw [mapM_cons, hchunk, hresults]
    rfl

end PendingRow

/-! ## Accepted commands -/

def Event.isStop : Event → Bool
  | .cmd .shutdown => true
  | .disconnected => true
  | _ => false

def Event.command? : Event → Option Command
  | .cmd command => some command
  | _ => none

/-- The commands that the thread takes: those before the end. -/
def accepted (events : List Event) : List Command := (events.takeWhile (!·.isStop)).filterMap Event.command?

def stopped (events : List Event) : Bool := events.any Event.isStop

def Command.chunk? : Command → Option Chunk
  | .appendChunk chunk => some chunk
  | _ => none

def Command.row? : Command → Option (EntityPath × PendingRow)
  | .appendRow entityPath row => some (entityPath, row)
  | _ => none

def Command.flush? : Command → Option Nat
  | .flush onDone => some onDone
  | _ => none

def flushesOf (commands : List Command) : List Nat := commands.filterMap Command.flush?

def chunksOf (commands : List Command) : List Chunk := commands.filterMap Command.chunk?

def rowsOf (commands : List Command) : List (EntityPath × PendingRow) := commands.filterMap Command.row?

/-- The thread has just acknowledged a flush, or has ended. -/
inductive Flushed : List Event → Prop where
  | flush {before : List Event} (onDone : Nat) (h : stopped before = false) : Flushed (before ++ [.cmd (.flush onDone)])
  | stopped {events : List Event} (h : stopped events = true) : Flushed events

def ofEntity (entityPath : EntityPath) (rows : List (EntityPath × PendingRow)) : List PendingRow :=
  rows.filterMap fun row => if row.1 = entityPath then some row.2 else none

/-! ## Hand-overs -/

inductive HandOver where
  | chunk (chunk : Chunk)
  | rows (numChunkIds : Nat) (entityPath : EntityPath) (chunkMaxRowsIfUnsorted : UInt64) (rows : List PendingRow)

namespace HandOver

inductive Gives (T : Traversal) : HandOver → List Chunk → Prop where
  | chunk (chunk : Chunk) : Gives T (.chunk chunk) (sendable [.ok chunk])
  | rows {n : Nat} {entityPath : EntityPath} {max : UInt64} {rows : List PendingRow}
      {results : List (Except ChunkError Chunk)}
      (h : PendingRow.manyIntoChunks T n entityPath max rows = .ok results) :
      Gives T (.rows n entityPath max rows) (sendable results)

def chunk? : HandOver → Option Chunk
  | .chunk c => some c
  | .rows .. => none

def pendingRows : HandOver → List (EntityPath × PendingRow)
  | .chunk _ => []
  | .rows _ entityPath _ l => l.map fun row => (entityPath, row)

end HandOver

namespace BatchingThread

def pending (s : BatchingThread) (entityPath : EntityPath) : List PendingRow :=
  (s.accs.lookup entityPath).elim [] (·.pendingRows)

/-- Everything accepted was handed over once or is pending, and what was sent is what came of it. -/
structure Ledger (T : Traversal) (commands : List Command) (s : BatchingThread) (log : List (HandOver × List Chunk)) :
    Prop where
  gives : ∀ entry ∈ log, entry.1.Gives T entry.2
  sent : s.sent = log.flatMap (·.2)
  chunks : log.filterMap (·.1.chunk?) = chunksOf commands
  rows : ∀ entityPath, ofEntity entityPath (log.flatMap (·.1.pendingRows)) ++ s.pending entityPath =
    ofEntity entityPath (rowsOf commands)
  keyed : ∀ entityPath acc, s.accs.lookup entityPath = some acc → acc.entityPath = entityPath

theorem ofEntity_append (entityPath : EntityPath) (l₁ l₂ : List (EntityPath × PendingRow)) :
    ofEntity entityPath (l₁ ++ l₂) = ofEntity entityPath l₁ ++ ofEntity entityPath l₂ :=
  filterMap_append

theorem ofEntity_map (entityPath entityPath' : EntityPath) (rows : List PendingRow) :
    ofEntity entityPath (rows.map fun row => (entityPath', row)) = if entityPath' = entityPath then rows else [] := by
  unfold ofEntity
  split
  · rename_i heq
    simp [heq]
  · rename_i hne
    simp [hne]

variable {E : BatcherEnv} {commands : List Command} {s s' : BatchingThread} {log : List (HandOver × List Chunk)}

/-! ## Flushing -/

structure SameSettings (s s' : BatchingThread) : Prop where
  config : s'.config = s.config
  running : s'.running = s.running
  acknowledged : s'.acknowledged = s.acknowledged

theorem SameSettings.trans {s₁ s₂ s₃ : BatchingThread} (h₁ : SameSettings s₁ s₂) (h₂ : SameSettings s₂ s₃) :
    SameSettings s₁ s₃ where
  config := h₂.config.trans h₁.config
  running := h₂.running.trans h₁.running
  acknowledged := h₂.acknowledged.trans h₁.acknowledged

theorem doFlushAll_ledger {entityPath : EntityPath} (hledger : Ledger E.toTraversal commands s log)
    (h : doFlushAll E s entityPath = .ok s') :
    (∃ log', Ledger E.toTraversal commands s' log') ∧ SameSettings s s' ∧ s'.pending entityPath = [] ∧
      ∀ other, other ≠ entityPath → s'.pending other = s.pending other := by
  unfold doFlushAll at h
  split at h
  · rename_i hnone
    cases h
    refine ⟨⟨log, hledger⟩, ⟨rfl, rfl, rfl⟩, ?_, fun _ _ => rfl⟩
    simp [pending, hnone]
  · rename_i acc hacc
    have hpending : s.pending entityPath = acc.pendingRows := by simp [pending, hacc]
    split at h
    · rename_i hempty
      cases h
      exact ⟨⟨log, hledger⟩, ⟨rfl, rfl, rfl⟩, hpending.trans (List.isEmpty_iff.mp hempty), fun _ _ => rfl⟩
    · cases hmade : manyIntoChunks E.toTraversal s.numChunkIds acc.entityPath
          s.config.chunkMaxRowsIfUnsorted acc.pendingRows with
      | error overflow =>
        rw [hmade] at h
        cases h
      | ok results =>
        rw [hmade] at h
        cases h
        have hkey := hledger.keyed entityPath acc hacc
        have hnow : ∀ other, (pending { s with
            accs := s.accs.insert entityPath acc.reset
            sent := s.sent ++ sendable results
            numChunkIds := s.numChunkIds + results.length } other) =
              if other = entityPath then [] else s.pending other := by
          intro other
          simp only [pending, lookup_insert_ite]
          split <;> rfl
        refine ⟨⟨log ++ [(.rows s.numChunkIds acc.entityPath s.config.chunkMaxRowsIfUnsorted acc.pendingRows,
          sendable results)], ?_, ?_, ?_, ?_, ?_⟩, ⟨rfl, rfl, rfl⟩, ?_, ?_⟩
        · intro entry hentry
          rcases mem_append.mp hentry with hentry | hentry
          · exact hledger.gives entry hentry
          · rw [mem_singleton.mp hentry]
            exact .rows hmade
        · rw [flatMap_append, ← hledger.sent]
          simp
        · rw [filterMap_append, hledger.chunks]
          simp [HandOver.chunk?]
        · intro other
          rw [hnow, flatMap_append, ofEntity_append, ← hledger.rows other]
          have hnew : ofEntity other ([(HandOver.rows s.numChunkIds acc.entityPath s.config.chunkMaxRowsIfUnsorted
              acc.pendingRows, sendable results)].flatMap (·.1.pendingRows)) =
                if other = entityPath then acc.pendingRows else [] := by
            rw [flatMap_singleton, HandOver.pendingRows, ofEntity_map, hkey]
            simp only [eq_comm]
          rw [hnew]
          split
          · rename_i heq
            rw [heq, hpending, append_nil]
          · rw [append_nil]
        · intro other acc' hother
          simp only [lookup_insert_ite] at hother
          split at hother
          · rename_i heq
            rw [← Option.some.inj hother, heq]
            exact hkey
          · exact hledger.keyed other acc' hother
        · rw [hnow, if_pos rfl]
        · intro other hne
          rw [hnow, if_neg hne]

theorem foldlM_doFlushAll_ledger : ∀ (paths : List EntityPath) {s : BatchingThread} {log : List (HandOver × List Chunk)},
    Ledger E.toTraversal commands s log → paths.foldlM (doFlushAll E) s = .ok s' →
      (∃ log', Ledger E.toTraversal commands s' log') ∧ SameSettings s s' ∧
        (∀ path ∈ paths, s'.pending path = []) ∧ ∀ path, s.pending path = [] → s'.pending path = []
  | [], s, log, hledger, h => by
    cases h
    exact ⟨⟨log, hledger⟩, ⟨rfl, rfl, rfl⟩, fun _ hpath => absurd hpath not_mem_nil, fun _ hnil => hnil⟩
  | path :: paths, s, log, hledger, h => by
    rw [foldlM_cons] at h
    obtain ⟨next, hflush, h⟩ := bind_eq_ok.mp h
    obtain ⟨⟨log', hledger'⟩, hsame, hnil, hother⟩ := doFlushAll_ledger hledger hflush
    obtain ⟨hlog, hsame', hnils, hkeep⟩ := foldlM_doFlushAll_ledger paths hledger' h
    refine ⟨hlog, hsame.trans hsame', ?_, ?_⟩
    · intro path' hpath'
      rcases mem_cons.mp hpath' with rfl | hpath'
      · exact hkeep path' hnil
      · exact hnils path' hpath'
    · intro path' hempty
      refine hkeep path' ?_
      by_cases heq : path' = path
      · rw [heq]
        exact hnil
      · rw [hother path' heq]
        exact hempty

theorem flushEach_ledger (hledger : Ledger E.toTraversal commands s log) (h : flushEach E s = .ok s') :
    (∃ log', Ledger E.toTraversal commands s' log') ∧ SameSettings s s' ∧ ∀ path, s'.pending path = [] := by
  obtain ⟨hlog, hsame, hnils, hkeep⟩ := foldlM_doFlushAll_ledger (E.valuesMut s.accs) hledger h
  refine ⟨hlog, hsame, ?_⟩
  intro path
  by_cases hmem : path ∈ s.accs.keys
  · exact hnils path ((E.valuesMut_perm s.accs).mem_iff.mpr hmem)
  · refine hkeep path ?_
    have hnone : s.accs.lookup path = none := by
      rw [← not_mem_iff]
      exact hmem
    simp [pending, hnone]

theorem stop_ledger (hledger : Ledger E.toTraversal commands s log) (h : stop E s = .ok s') :
    (∃ log', Ledger E.toTraversal commands s' log') ∧ s'.acknowledged = s.acknowledged ∧ s'.running = false ∧
      ∀ path, s'.pending path = [] := by
  obtain ⟨next, hflush, h⟩ := bind_eq_ok.mp h
  cases h
  obtain ⟨⟨log', hledger'⟩, hsame, hnil⟩ := flushEach_ledger hledger hflush
  exact ⟨⟨log', ⟨hledger'.gives, hledger'.sent, hledger'.chunks, hledger'.rows, hledger'.keyed⟩⟩,
    hsame.acknowledged, rfl, hnil⟩

/-! ## Appending -/

theorem appendChunk_ledger (hledger : Ledger E.toTraversal commands s log) (chunk : Chunk) :
    Ledger E.toTraversal (commands ++ [.appendChunk chunk]) { s with sent := s.sent ++ sendable [.ok chunk] }
      (log ++ [(.chunk chunk, sendable [.ok chunk])]) where
  gives := by
    intro entry hentry
    rcases mem_append.mp hentry with hentry | hentry
    · exact hledger.gives entry hentry
    · rw [mem_singleton.mp hentry]
      exact .chunk chunk
  sent := by
    rw [flatMap_append, ← hledger.sent]
    simp
  chunks := by
    rw [filterMap_append, hledger.chunks, chunksOf, chunksOf, filterMap_append]
    rfl
  rows := by
    intro path
    have hrows : rowsOf (commands ++ [.appendChunk chunk]) = rowsOf commands := by
      simp [rowsOf, Command.row?]
    rw [hrows, ← hledger.rows path, flatMap_append]
    simp [HandOver.pendingRows, pending]
  keyed := hledger.keyed

def pushed (E : BatcherEnv) (s : BatchingThread) (entityPath : EntityPath) (row : PendingRow) : BatchingThread :=
  let acc := doPushRow E ((s.accs.lookup entityPath).getD (.new entityPath)) row
  { s with accs := s.accs.insert entityPath acc }

theorem pushed_ledger (hledger : Ledger E.toTraversal commands s log) (entityPath : EntityPath) (row : PendingRow) :
    Ledger E.toTraversal (commands ++ [.appendRow entityPath row]) (pushed E s entityPath row) log where
  gives := hledger.gives
  sent := hledger.sent
  chunks := by
    rw [hledger.chunks, chunksOf, chunksOf, filterMap_append]
    simp [Command.chunk?]
  rows := by
    intro path
    have hrows : rowsOf (commands ++ [.appendRow entityPath row]) = rowsOf commands ++ [(entityPath, row)] := by
      simp [rowsOf, Command.row?]
    rw [hrows, ofEntity_append, ← hledger.rows path, append_assoc]
    congr 1
    simp only [pending, pushed, lookup_insert_ite, ofEntity]
    by_cases heq : path = entityPath
    · subst heq
      cases hacc : s.accs.lookup path with
      | none => simp [doPushRow, Accumulator.new]
      | some acc => simp [doPushRow]
    · simp [heq, Ne.symm heq]
  keyed := by
    intro path acc hacc
    simp only [pushed, lookup_insert_ite] at hacc
    split at hacc
    · rename_i heq
      rw [← Option.some.inj hacc, heq]
      cases hold : s.accs.lookup entityPath with
      | none => rfl
      | some old => exact hledger.keyed entityPath old hold
    · exact hledger.keyed path acc hacc

theorem appendRow_ledger (hledger : Ledger E.toTraversal commands s log) {entityPath : EntityPath} {row : PendingRow}
    (h : appendRow E s entityPath row = .ok s') :
    (∃ log', Ledger E.toTraversal (commands ++ [.appendRow entityPath row]) s' log') ∧ s'.running = s.running ∧
      s'.acknowledged = s.acknowledged := by
  have hpushed := pushed_ledger hledger entityPath row
  have hflush : ∀ {t : BatchingThread}, (do
      let t ← doFlushAll E (pushed E s entityPath row) entityPath
      pure { t with skipNextTick := true }) = Except.ok t →
      (∃ log', Ledger E.toTraversal (commands ++ [.appendRow entityPath row]) t log') ∧ t.running = s.running ∧
        t.acknowledged = s.acknowledged := by
    intro t ht
    obtain ⟨next, hdone, ht⟩ := bind_eq_ok.mp ht
    cases ht
    obtain ⟨⟨log', hledger'⟩, hsame, -⟩ := doFlushAll_ledger hpushed hdone
    exact ⟨⟨log', ⟨hledger'.gives, hledger'.sent, hledger'.chunks, hledger'.rows, hledger'.keyed⟩⟩, hsame.running,
      hsame.acknowledged⟩
  unfold appendRow at h
  dsimp only at h
  split at h
  · exact hflush h
  · split at h
    · exact hflush h
    · cases h
      exact ⟨⟨log, hpushed⟩, rfl, rfl⟩

/-! ## Runs -/

theorem Ledger.noData (hledger : Ledger E.toTraversal commands s log) {command : Command} (hchunk : command.chunk? = none)
    (hrow : command.row? = none) : Ledger E.toTraversal (commands ++ [command]) s log where
  gives := hledger.gives
  sent := hledger.sent
  chunks := by
    rw [hledger.chunks, chunksOf, chunksOf, filterMap_append]
    simp [hchunk]
  rows := by
    have hrows : rowsOf (commands ++ [command]) = rowsOf commands := by simp [rowsOf, hrow]
    rw [hrows]
    exact hledger.rows
  keyed := hledger.keyed

/-- What the events so far make of the thread. -/
structure Reached (T : Traversal) (events : List Event) (s : BatchingThread) : Prop where
  ledger : ∃ log, Ledger T (accepted events) s log
  running : s.running = !stopped events
  acknowledged : s.acknowledged = flushesOf (accepted events)
  nothingPending : Flushed events → ∀ path, s.pending path = []

theorem accepted_append (events : List Event) (event : Event) :
    accepted (events ++ [event]) = if stopped events then accepted events
      else if event.isStop then accepted events else accepted events ++ event.command?.toList := by
  unfold accepted stopped
  rw [takeWhile_append]
  by_cases h : events.any Event.isStop = true
  · have hne : (events.takeWhile (!·.isStop)).length ≠ events.length := by
      intro hlen
      have hall := takeWhile_eq_self_iff.mp (takeWhile_sublist _ |>.eq_of_length hlen)
      obtain ⟨e, he, hstop⟩ := any_eq_true.mp h
      have := hall e he
      simp [hstop] at this
    rw [if_neg hne, if_pos h]
  · have hself : events.takeWhile (!·.isStop) = events := by
      refine takeWhile_eq_self_iff.mpr ?_
      intro e he
      have := any_eq_false.mp (not_eq_true _ ▸ h) e he
      simpa using this
    rw [if_pos (by rw [hself]), if_neg h, hself]
    cases hstop : event.isStop with
    | true => simp [hstop]
    | false =>
      rw [takeWhile_cons_of_pos (by simp [hstop]), takeWhile_nil, filterMap_append]
      cases hcmd : event.command? <;> simp [hcmd]

theorem stopped_append (events : List Event) (event : Event) :
    stopped (events ++ [event]) = (stopped events || event.isStop) := by
  simp [stopped]

variable {events : List Event}

theorem flushed_append {event : Event} (h : Flushed (events ++ [event])) :
    (stopped events = false ∧ ∃ onDone, event = .cmd (.flush onDone)) ∨ stopped events = true ∨ event.isStop = true := by
  generalize hall : events ++ [event] = all at h
  cases h with
  | flush onDone hbefore =>
    obtain ⟨rfl, hlast⟩ := append_inj' hall rfl
    exact .inl ⟨hbefore, onDone, singleton_inj.mp hlast⟩
  | stopped hstopped =>
    rw [← hall, stopped_append, or_eq_true] at hstopped
    exact .inr hstopped

theorem step_reached {event : Event} (hreached : Reached E.toTraversal events s)
    (h : step E s event = .ok s') : Reached E.toTraversal (events ++ [event]) s' := by
  obtain ⟨⟨log, hledger⟩, hrunning, hacks, hpending⟩ := hreached
  unfold step at h
  split at h
  · rename_i hrun
    have hnot : stopped events = false := by simpa [hrunning] using hrun
    -- the events that end the thread
    have hend : event.isStop = true → stop E s = .ok s' → Reached E.toTraversal (events ++ [event]) s' := by
      intro hstop hstopped
      obtain ⟨hlog, hack, hdone, hnil⟩ := stop_ledger hledger hstopped
      have haccepted : accepted (events ++ [event]) = accepted events := by
        rw [accepted_append, if_neg (by simp [hnot]), if_pos hstop]
      refine ⟨by rw [haccepted]; exact hlog, ?_, by rw [haccepted, hack, hacks], fun _ => hnil⟩
      rw [hdone, stopped_append, hstop, Bool.or_true, Bool.not_true]
    -- the events that do not
    have hgo : ∀ log', event.isStop = false →
        Ledger E.toTraversal (accepted events ++ event.command?.toList) s' log' → s'.running = s.running →
        s'.acknowledged = s.acknowledged ++ event.command?.toList.filterMap Command.flush? →
        ((∃ onDone, event = .cmd (.flush onDone)) → ∀ path, s'.pending path = []) →
        Reached E.toTraversal (events ++ [event]) s' := by
      intro log' hstop hledger' hrunning' hack hflush
      have haccepted : accepted (events ++ [event]) = accepted events ++ event.command?.toList := by
        rw [accepted_append, if_neg (by simp [hnot]), if_neg (by simp [hstop])]
      refine ⟨⟨log', haccepted ▸ hledger'⟩, ?_, ?_, ?_⟩
      · rw [hrunning', hrunning, stopped_append, hstop, Bool.or_false]
      · rw [hack, hacks, haccepted, flushesOf, flushesOf, filterMap_append]
      · intro hflushed
        rcases flushed_append hflushed with ⟨-, hlast⟩ | hbefore | hlast
        · exact hflush hlast
        · rw [hnot] at hbefore
          cases hbefore
        · rw [hstop] at hlast
          cases hlast
    cases event with
    | disconnected => exact hend rfl h
    | tick =>
      have hledger₀ : Ledger E.toTraversal (accepted events ++ []) s log := by
        rw [append_nil]
        exact hledger
      dsimp only at h
      split at h
      · cases h
        refine hgo log rfl ?_ rfl (append_nil _).symm ?_
        · exact ⟨hledger₀.gives, hledger₀.sent, hledger₀.chunks, hledger₀.rows, hledger₀.keyed⟩
        · rintro ⟨_, ⟨⟩⟩
      · obtain ⟨⟨log', hledger'⟩, hsame, hnil⟩ := flushEach_ledger hledger₀ h
        refine hgo log' rfl hledger' hsame.running ?_ fun _ => hnil
        rw [hsame.acknowledged]
        exact (append_nil _).symm
    | cmd command =>
      cases command with
      | shutdown => exact hend rfl h
      | appendChunk chunk =>
        cases h
        refine hgo _ rfl (appendChunk_ledger hledger chunk) rfl (append_nil _).symm ?_
        rintro ⟨_, ⟨⟩⟩
      | appendRow entityPath row =>
        obtain ⟨⟨log', hledger'⟩, hrunning', hack⟩ := appendRow_ledger hledger h
        refine hgo log' rfl hledger' hrunning' ?_ ?_
        · rw [hack]
          exact (append_nil _).symm
        · rintro ⟨_, ⟨⟩⟩
      | updateConfig config =>
        cases h
        have hsame : Ledger E.toTraversal (accepted events ++ [.updateConfig config]) s log := hledger.noData rfl rfl
        refine hgo log rfl ⟨hsame.gives, hsame.sent, hsame.chunks, hsame.rows, hsame.keyed⟩ rfl
          (append_nil _).symm ?_
        rintro ⟨_, ⟨⟩⟩
      | flush onDone =>
        have hsame : Ledger E.toTraversal (accepted events ++ [.flush onDone]) { s with skipNextTick := true } log := by
          have hnoData : Ledger E.toTraversal (accepted events ++ [.flush onDone]) s log := hledger.noData rfl rfl
          exact ⟨hnoData.gives, hnoData.sent, hnoData.chunks, hnoData.rows, hnoData.keyed⟩
        cases hflush : flushEach E { s with skipNextTick := true } with
        | error overflow =>
          unfold onCommand at h
          rw [hflush] at h
          cases h
        | ok next =>
          unfold onCommand at h
          rw [hflush] at h
          cases h
          obtain ⟨⟨log', hledger'⟩, hsettings, hnil⟩ := flushEach_ledger hsame hflush
          refine hgo log' rfl ⟨hledger'.gives, hledger'.sent, hledger'.chunks, hledger'.rows, hledger'.keyed⟩
            hsettings.running ?_ fun _ => hnil
          rw [show next.acknowledged = s.acknowledged from hsettings.acknowledged]
          rfl
  · rename_i hrun
    have hstopped : stopped events = true := by simpa [hrunning] using hrun
    cases h
    have haccepted : accepted (events ++ [event]) = accepted events := by rw [accepted_append, if_pos hstopped]
    refine ⟨⟨log, haccepted ▸ hledger⟩, ?_, by rw [haccepted, hacks], fun _ => hpending (.stopped hstopped)⟩
    rw [hrunning, stopped_append, hstopped, Bool.true_or]

theorem reached_new (T : Traversal) (config : ChunkBatcherConfig) : Reached T [] (new config) where
  ledger := by
    refine ⟨[], ?_, rfl, rfl, ?_, ?_⟩
    · intro entry hentry
      cases hentry
    · intro path
      rfl
    · intro path acc hacc
      cases hacc
  running := rfl
  acknowledged := rfl
  nothingPending := fun _ _ => rfl

theorem run_reached {config : ChunkBatcherConfig} (h : run E config events = .ok s) :
    Reached E.toTraversal events s := by
  unfold run at h
  induction events using reverseRecOn generalizing s with
  | nil =>
    cases h
    exact reached_new _ config
  | append_singleton events event ih =>
    rw [foldlM_append] at h
    obtain ⟨before, hbefore, h⟩ := bind_eq_ok.mp h
    obtain ⟨after, hstep, h⟩ := bind_eq_ok.mp h
    cases h
    exact step_reached (ih hbefore) hstep

/-! ## Runs that end -/

/-- The rows of every entity can be turned into chunks: no two are confused, and none is too long. -/
def Workable (T : Traversal) (commands : List Command) : Prop :=
  ∀ entityPath, T.CollisionFree (ofEntity entityPath (rowsOf commands)) ∧
    PendingRow.Fits (ofEntity entityPath (rowsOf commands))

theorem Workable.sublist {T : Traversal} {more : List Command} (h : Workable T more) (hsub : commands.Sublist more) :
    Workable T commands := by
  intro entityPath
  have hrows : (ofEntity entityPath (rowsOf commands)).Sublist (ofEntity entityPath (rowsOf more)) :=
    (hsub.filterMap _).filterMap _
  exact ⟨(h entityPath).1.subset fun _ hrow => hrows.subset hrow, (h entityPath).2.subperm hrows.subperm⟩

theorem doFlushAll_ok (hledger : Ledger E.toTraversal commands s log) (h : Workable E.toTraversal commands)
    (entityPath : EntityPath) : ∃ s', doFlushAll E s entityPath = .ok s' := by
  unfold doFlushAll
  cases hacc : s.accs.lookup entityPath with
  | none => exact ⟨s, rfl⟩
  | some acc =>
    have hsub : acc.pendingRows.Sublist (ofEntity entityPath (rowsOf commands)) := by
      rw [← hledger.rows entityPath, pending, hacc]
      exact sublist_append_right _ _
    obtain ⟨results, hresults⟩ := @PendingRow.manyIntoChunks_ok _ s.config.chunkMaxRowsIfUnsorted _ acc.entityPath
      ((h entityPath).1.subset fun _ hrow => hsub.subset hrow) ((h entityPath).2.subperm hsub.subperm) s.numChunkIds
    dsimp only
    rw [hresults]
    split <;> exact ⟨_, rfl⟩

theorem foldlM_doFlushAll_ok : ∀ (paths : List EntityPath) {s : BatchingThread} {log : List (HandOver × List Chunk)},
    Ledger E.toTraversal commands s log → Workable E.toTraversal commands →
      ∃ s', paths.foldlM (doFlushAll E) s = .ok s'
  | [], s, _, _, _ => ⟨s, rfl⟩
  | path :: paths, s, _, hledger, h => by
    obtain ⟨next, hnext⟩ := doFlushAll_ok hledger h path
    obtain ⟨⟨log', hledger'⟩, -⟩ := doFlushAll_ledger hledger hnext
    obtain ⟨s', hs'⟩ := foldlM_doFlushAll_ok paths hledger' h
    refine ⟨s', ?_⟩
    rw [foldlM_cons, hnext]
    exact hs'

theorem step_ok {event : Event} (hreached : Reached E.toTraversal events s)
    (h : Workable E.toTraversal (accepted (events ++ [event]))) : ∃ s', step E s event = .ok s' := by
  obtain ⟨⟨log, hledger⟩, hrunning, -, -⟩ := hreached
  unfold step
  split
  · rename_i hrun
    have hnot : stopped events = false := by simpa [hrunning] using hrun
    rw [accepted_append, if_neg (by simp [hnot])] at h
    have hbefore : Workable E.toTraversal (accepted events) := by
      split at h
      · exact h
      · exact h.sublist (sublist_append_left _ _)
    have hflush : ∀ skip, ∃ s', flushEach E { s with skipNextTick := skip } = .ok s' := fun skip =>
      @foldlM_doFlushAll_ok E _ (E.valuesMut s.accs) { s with skipNextTick := skip } log
        ⟨hledger.gives, hledger.sent, hledger.chunks, hledger.rows, hledger.keyed⟩ hbefore
    obtain ⟨flushed, hflushed⟩ := hflush s.skipNextTick
    have hstop : ∃ s', stop E s = .ok s' := by
      unfold stop
      rw [hflushed]
      exact ⟨_, rfl⟩
    cases event with
    | disconnected => exact hstop
    | tick =>
      dsimp only
      split
      · exact ⟨_, rfl⟩
      · exact ⟨_, hflushed⟩
    | cmd command =>
      cases command with
      | shutdown => exact hstop
      | appendChunk chunk => exact ⟨_, rfl⟩
      | updateConfig config => exact ⟨_, rfl⟩
      | flush onDone =>
        obtain ⟨next, hnext⟩ := hflush true
        refine ⟨{ next with acknowledged := next.acknowledged ++ [onDone] }, ?_⟩
        unfold onCommand
        rw [hnext]
        rfl
      | appendRow entityPath row =>
        obtain ⟨next, hnext⟩ := doFlushAll_ok (pushed_ledger hledger entityPath row) h entityPath
        unfold pushed at hnext
        show ∃ s', appendRow E s entityPath row = .ok s'
        unfold appendRow
        dsimp only at hnext ⊢
        rw [hnext]
        split
        · exact ⟨_, rfl⟩
        · split <;> exact ⟨_, rfl⟩
  · exact ⟨s, rfl⟩

theorem run_ok {config : ChunkBatcherConfig} {events : List Event} (h : Workable E.toTraversal (accepted events)) :
    ∃ s, run E config events = .ok s := by
  unfold run
  induction events using reverseRecOn with
  | nil => exact ⟨_, rfl⟩
  | append_singleton events event ih =>
    have hsub : (accepted events).Sublist (accepted (events ++ [event])) := by
      rw [accepted_append]
      split
      · exact .refl _
      · split
        · exact .refl _
        · exact sublist_append_left _ _
    obtain ⟨s, hs⟩ := ih (h.sublist hsub)
    obtain ⟨s', hs'⟩ := step_ok (run_reached hs) h
    refine ⟨s', ?_⟩
    rw [foldlM_append, hs]
    show (step E s event >>= fun s => [].foldlM (step E) s) = _
    rw [hs']
    rfl

/-! ## The rows that were sent -/

end BatchingThread

def PendingRow.sendable (row : PendingRow) : Bool := !row.components.entries.isEmpty

namespace PendingColumns

open PendingRow

variable {all : PendingComponents} {first : PendingRow} {columns : PendingColumns} {run : List PendingRow}

theorem sendable_iff {row : PendingRow} : row.sendable = true ↔ ∃ component, (row.arrayOf component).isSome := by
  unfold PendingRow.sendable arrayOf
  rw [not_eq_true', isEmpty_eq_false_iff, entries_ne_nil_iff]
  simp

theorem arraysToListArrayOpt_nonempty {concatFails : List ArrowArray → Bool} {arrays : List (Option ArrowArray)}
    {a : ListArray} (h : arraysToListArrayOpt concatFails arrays = .ok (some a)) : ∃ x, some x ∈ arrays := by
  unfold arraysToListArrayOpt at h
  split at h
  · cases h
  · rename_i x rest hdense
    exact ⟨x, mem_filterMap_id.mp (hdense ▸ mem_cons_self)⟩

theorem IsChunkOf.sendable_iff {concatFails : List ArrowArray → Bool} {entityPath : EntityPath} {chunk : Chunk}
    (h : RunColumns all first columns run) (hchunk : IsChunkOf concatFails entityPath all first run chunk)
    (hu : Uniform concatFails run) :
    chunk.sendable = true ↔ ∃ row ∈ run, row.sendable = true := by
  unfold Chunk.sendable
  rw [not_eq_true', isEmpty_eq_false_iff, entries_ne_nil_iff]
  constructor
  · intro hsome
    obtain ⟨component, hsome⟩ := hsome
    obtain ⟨column, hcol⟩ := Option.isSome_iff_exists.mp hsome
    rw [hchunk.components] at hcol
    obtain ⟨pending, -, hcolumn⟩ := Option.bind_eq_some_iff.mp hcol
    have hmade : ∃ a, arraysToListArrayOpt concatFails (run.map (·.arrayOf component)) = .ok (some a) := by
      unfold columnOf at hcolumn
      split at hcolumn
      · rename_i a ha
        exact ⟨a, ha⟩
      · cases hcolumn
    obtain ⟨a, ha⟩ := hmade
    obtain ⟨x, hx⟩ := arraysToListArrayOpt_nonempty ha
    obtain ⟨row, hrow, hx⟩ := mem_map.mp hx
    exact ⟨row, hrow, PendingColumns.sendable_iff.mpr ⟨component, Option.isSome_of_eq_some hx⟩⟩
  · intro hsome
    obtain ⟨row, hrow, hsome⟩ := hsome
    obtain ⟨component, hsome⟩ := PendingColumns.sendable_iff.mp hsome
    obtain ⟨pending, hpending⟩ := Option.isSome_iff_exists.mp (h.covers row hrow component hsome)
    refine ⟨component, ?_⟩
    rw [hchunk.components, hpending, Option.bind_some]
    exact columnOf_isSome hu hrow hsome pending.1

end PendingColumns

namespace PendingRow

/-- Rows of one entity that are grouped together agree on their types, and the arrays of a component can be
concatenated whichever of the rows they are of. -/
structure Compatible (concatFails : List ArrowArray → Bool) (rows : List PendingRow) : Prop where
  agree : ∀ a ∈ rows, ∀ b ∈ rows, a.timepoint.timelineNames = b.timepoint.timelineNames → a.datatypes = b.datatypes →
    Agree a b
  joins : ∀ component part, part.Subperm rows → Joins concatFails component part

theorem Compatible.subperm {concatFails : List ArrowArray → Bool} {rows part : List PendingRow}
    (h : Compatible concatFails rows) (hsub : part.Subperm rows) : Compatible concatFails part :=
  ⟨fun a ha b hb => h.agree a (hsub.subset ha) b (hsub.subset hb),
    fun component part' hpart => h.joins component part' (hpart.trans hsub)⟩

theorem sendable_eq_of_datatypes {a b : PendingRow} (h : a.datatypes = b.datatypes) : a.sendable = b.sendable := by
  have hlen : a.components.entries.length = b.components.entries.length := by
    simpa [datatypes, Assoc.values] using congrArg List.length h
  unfold sendable
  rw [Bool.eq_iff_iff, not_eq_true', not_eq_true', isEmpty_eq_false_iff, isEmpty_eq_false_iff,
    ne_eq, ne_eq, ← length_eq_zero_iff, ← length_eq_zero_iff, hlen]

theorem sendable_of_runs {T : Traversal} {entityPath : EntityPath} {columns : List (PendingColumns × Nat)}
    {runs : List (List PendingRow)} {results : List (Except ChunkError Chunk)}
    (h : Forall₂ (fun columns run => OfRun columns.1 run) columns runs)
    (hagree : ∀ run ∈ runs, ∀ a ∈ run, ∀ b ∈ run, Agree a b ∧ a.sendable = b.sendable)
    (hjoins : ∀ run ∈ runs, ∀ component, Joins T.concatFails component run)
    (hresults : (columns.mapM fun columns => columns.1.intoChunk T (T.newChunkId columns.2) entityPath) = .ok results) :
    (Dalaran.sendable results).flatMap (·.loggedRows) = (runs.flatten.filter (·.sendable)).map (·.logged entityPath) := by
  rw [Collect.mapM_ok_iff] at hresults
  induction h generalizing results with
  | nil =>
    rw [forall₂_nil_left_iff.mp hresults]
    rfl
  | @cons columns run columns' runs' hof hruns ih =>
    obtain ⟨r, results', hr, hrest, rfl⟩ := forall₂_cons_left_iff.mp hresults
    obtain ⟨all, first, hof⟩ := hof
    have hrun := hagree run mem_cons_self
    have ih := ih (fun run' hrun' => hagree run' (mem_cons_of_mem _ hrun'))
      (fun run' hrun' => hjoins run' (mem_cons_of_mem _ hrun')) hrest
    obtain ⟨chunk, rfl, hchunk⟩ := hof.isChunkOf hr
    have hu := hof.uniform_of_agree hr (fun a ha b hb => (hrun a ha b hb).1) (hjoins run mem_cons_self)
    have hrows := PendingColumns.loggedRows_of_uniform hu hof hchunk
    have hsendable := hchunk.sendable_iff hof hu
    rw [flatten_cons, filter_append, map_append, ← ih]
    cases hsend : chunk.sendable with
    | true =>
      obtain ⟨row, hrow, hsent⟩ := hsendable.mp hsend
      have hall : run.filter (·.sendable) = run := by
        refine filter_eq_self.mpr ?_
        intro a ha
        rw [(hrun a ha row hrow).2, hsent]
      have hcons : Dalaran.sendable (.ok chunk :: results') = chunk :: Dalaran.sendable results' := by
        simp [Dalaran.sendable, hsend]
      rw [hall, hcons, flatMap_cons, hrows]
    | false =>
      have hnone : run.filter (·.sendable) = [] := by
        refine filter_eq_nil_iff.mpr ?_
        intro a ha hsent
        rw [hsendable.mpr ⟨a, ha, hsent⟩] at hsend
        cases hsend
      have hcons : Dalaran.sendable (.ok chunk :: results') = Dalaran.sendable results' := by
        simp [Dalaran.sendable, hsend]
      rw [hnone, hcons, map_nil, nil_append]

theorem sendable_rows {T : Traversal} {n : Nat} {entityPath : EntityPath} {max : UInt64} {rows : List PendingRow}
    {results : List (Except ChunkError Chunk)} (hfree : T.CollisionFree rows)
    (hcompatible : Compatible T.concatFails rows)
    (h : manyIntoChunks T n entityPath max rows = .ok results) :
    ((Dalaran.sendable results).flatMap (·.loggedRows)).Perm
      ((rows.filter (·.sendable)).map (·.logged entityPath)) := by
  have hruns : ∀ run ∈ batches T max rows, ∀ a ∈ run, ∀ b ∈ run, Agree a b ∧ a.sendable = b.sendable := by
    intro run hrun a ha b hb
    obtain ⟨row, -, hrun⟩ := (mem_batches hfree).mp hrun
    have hpeer : ∀ a ∈ run, a ∈ rows ∧ a.timepoint.timelineNames = row.timepoint.timelineNames ∧
        a.datatypes = row.datatypes := by
      intro a ha
      have hmem : a ∈ peers rows row := by
        have hflatten := runs_flatten max (peers rows row) []
        rw [nil_append] at hflatten
        rw [← hflatten]
        exact mem_flatten.mpr ⟨run, hrun, ha⟩
      obtain ⟨hmem, hkey⟩ := mem_filter.mp hmem
      rw [and_eq_true] at hkey
      exact ⟨(sorted_perm rows).mem_iff.mp hmem, of_decide_eq_true hkey.1, of_decide_eq_true hkey.2⟩
    obtain ⟨hamem, hanames, hatypes⟩ := hpeer a ha
    obtain ⟨hbmem, hbnames, hbtypes⟩ := hpeer b hb
    exact ⟨hcompatible.agree a hamem b hbmem (hanames.trans hbnames.symm) (hatypes.trans hbtypes.symm),
      sendable_eq_of_datatypes (hatypes.trans hbtypes.symm)⟩
  have hjoins : ∀ run ∈ batches T max rows, ∀ component, Joins T.concatFails component run :=
    fun run hrun component => hcompatible.joins component run (batch_subperm hrun)
  rw [sendable_of_runs (manyIntoChunks_forall₂ hfree n) hruns hjoins h]
  exact ((batches_perm T max rows).filter _).map _

end PendingRow

/-! ## Rows of several entities -/

theorem perm_of_ofEntity : ∀ {l₁ l₂ : List (EntityPath × PendingRow)},
    (∀ entityPath, ofEntity entityPath l₁ = ofEntity entityPath l₂) → l₁.Perm l₂
  | [], l₂, h => by
    cases l₂ with
    | nil => exact .nil
    | cons row l₂ =>
      have := h row.1
      simp [ofEntity] at this
  | (entityPath, row) :: l₁, l₂, h => by
    have hrow := h entityPath
    have hhead : ofEntity entityPath ((entityPath, row) :: l₁) = row :: ofEntity entityPath l₁ := by
      simp [ofEntity]
    rw [hhead] at hrow
    obtain ⟨before, head, after, rfl, hbefore, hfound, -⟩ := filterMap_eq_cons_iff.mp hrow.symm
    obtain ⟨path, row'⟩ := head
    dsimp only at hfound
    split at hfound
    · rename_i heq
      subst heq
      cases hfound
      refine Perm.trans ?_ perm_middle.symm
      refine Perm.cons _ (perm_of_ofEntity ?_)
      intro other
      have hother := h other
      have hnone : other = path → ofEntity other before = [] := by
        intro heq
        subst heq
        exact filterMap_eq_nil_iff.mpr hbefore
      unfold ofEntity at hother hnone ⊢
      rw [filterMap_cons, filterMap_append, filterMap_cons] at hother
      rw [filterMap_append]
      by_cases heq : path = other
      · have hnil := hnone heq.symm
        rw [if_pos heq, hnil] at hother
        rw [hnil]
        exact (cons.inj hother).2
      · rw [if_neg heq] at hother
        exact hother
    · cases hfound

namespace HandOver

def dueRows : HandOver → List LoggedRow
  | .chunk c => if c.sendable then c.loggedRows else []
  | .rows _ entityPath _ l => (l.filter (·.sendable)).map (·.logged entityPath)

theorem Gives.loggedRows {T : Traversal} {handOver : HandOver} {chunks : List Chunk} (h : handOver.Gives T chunks)
    (hfree : ∀ entityPath, T.CollisionFree (ofEntity entityPath handOver.pendingRows))
    (hcompatible : ∀ entityPath, PendingRow.Compatible T.concatFails (ofEntity entityPath handOver.pendingRows)) :
    (chunks.flatMap (·.loggedRows)).Perm handOver.dueRows := by
  cases h with
  | chunk c =>
    unfold dueRows
    cases hsend : c.sendable with
    | true => simp [sendable, hsend]
    | false => simp [sendable, hsend]
  | @rows n entityPath max l results hresults =>
    have hrows : ofEntity entityPath (HandOver.rows n entityPath max l).pendingRows = l := by
      rw [pendingRows, BatchingThread.ofEntity_map, if_pos rfl]
    have hfree := hfree entityPath
    have hcompatible := hcompatible entityPath
    rw [hrows] at hfree hcompatible
    exact sendable_rows hfree hcompatible hresults

theorem dueRows_perm (log : List (HandOver × List Chunk)) :
    (log.flatMap (·.1.dueRows)).Perm
      (((log.filterMap (·.1.chunk?)).filter (·.sendable)).flatMap (·.loggedRows) ++
        ((log.flatMap (·.1.pendingRows)).filter (·.2.sendable)).map fun row => row.2.logged row.1) := by
  induction log with
  | nil => exact .nil
  | cons entry log ih =>
    obtain ⟨handOver, chunks⟩ := entry
    cases handOver with
    | chunk c =>
      have hchunks : ((HandOver.chunk c, chunks) :: log).filterMap (·.1.chunk?) = c :: log.filterMap (·.1.chunk?) := rfl
      rw [flatMap_cons, hchunks, flatMap_cons, pendingRows, nil_append, dueRows, filter_cons]
      split
      · rw [flatMap_cons, append_assoc]
        exact ih.append_left _
      · exact ih
    | rows n entityPath max l =>
      have hdue : (HandOver.rows n entityPath max l).dueRows =
          ((HandOver.rows n entityPath max l).pendingRows.filter (·.2.sendable)).map fun row => row.2.logged row.1 := by
        rw [dueRows, pendingRows, filter_map, map_map]
        rfl
      have hchunks : ((HandOver.rows n entityPath max l, chunks) :: log).filterMap (·.1.chunk?) =
          log.filterMap (·.1.chunk?) := rfl
      rw [flatMap_cons, hchunks, flatMap_cons, filter_append, map_append, hdue]
      refine Perm.trans (ih.append_left _) ?_
      rw [← append_assoc, ← append_assoc]
      exact perm_append_comm.append_right _

end HandOver

namespace BatchingThread

/-- Flushes and the end. Flushes are acknowledged one after the other. When one is, and when the thread has
ended, what was sent is what came of handing over every chunk once, in order, and every row of every entity
once, in order; and if rows that are grouped together agree on their types and their arrays can be
concatenated, the rows sent are those of the chunks with a component and the rows with a component. -/
theorem run_flushed (E : BatcherEnv) (config : ChunkBatcherConfig) (events : List Event) (s : BatchingThread)
    (hrun : run E config events = .ok s) :
    s.acknowledged = flushesOf (accepted events) ∧
      (Flushed events →
        (∃ log : List (HandOver × List Chunk), (∀ entry ∈ log, entry.1.Gives E.toTraversal entry.2) ∧
          s.sent = log.flatMap (·.2) ∧ log.filterMap (·.1.chunk?) = chunksOf (accepted events) ∧
          ∀ entityPath, ofEntity entityPath (log.flatMap (·.1.pendingRows)) =
            ofEntity entityPath (rowsOf (accepted events))) ∧
        ((∀ entityPath, E.CollisionFree (ofEntity entityPath (rowsOf (accepted events))) ∧
            PendingRow.Compatible E.concatFails (ofEntity entityPath (rowsOf (accepted events)))) →
          (s.sent.flatMap (·.loggedRows)).Perm
            (((chunksOf (accepted events)).filter (·.sendable)).flatMap (·.loggedRows) ++
              ((rowsOf (accepted events)).filter (·.2.sendable)).map fun row => row.2.logged row.1))) := by
  obtain ⟨⟨log, hledger⟩, -, hacks, hpending⟩ := run_reached hrun
  refine ⟨hacks, ?_⟩
  intro hflushed
  have hrows : ∀ entityPath, ofEntity entityPath (log.flatMap (·.1.pendingRows)) =
      ofEntity entityPath (rowsOf (accepted events)) := by
    intro entityPath
    rw [← hledger.rows entityPath, hpending hflushed entityPath, append_nil]
  refine ⟨⟨log, hledger.gives, hledger.sent, hledger.chunks, hrows⟩, ?_⟩
  intro hcompatible
  -- the rows of one hand-over are among those accepted
  have hsub : ∀ entry ∈ log, ∀ entityPath,
      (ofEntity entityPath entry.1.pendingRows).Sublist (ofEntity entityPath (rowsOf (accepted events))) := by
    intro entry hentry entityPath
    have hpart : entry.1.pendingRows.Sublist (log.flatMap (·.1.pendingRows)) :=
      sublist_flatten_of_mem (mem_map.mpr ⟨entry, hentry, rfl⟩)
    rw [← hrows]
    exact hpart.filterMap _
  have hdue : (s.sent.flatMap (·.loggedRows)).Perm (log.flatMap (·.1.dueRows)) := by
    rw [hledger.sent, flatMap_assoc]
    refine Perm.flatMap_left _ ?_
    intro entry hentry
    refine (hledger.gives entry hentry).loggedRows ?_ ?_
    · intro entityPath
      exact (hcompatible entityPath).1.subset fun _ hrow => (hsub entry hentry entityPath).subset hrow
    · intro entityPath
      exact (hcompatible entityPath).2.subperm (hsub entry hentry entityPath).subperm
  refine hdue.trans ((HandOver.dueRows_perm log).trans ?_)
  rw [hledger.chunks]
  exact (((perm_of_ofEntity hrows).filter _).map _).append_left _

/-! ## Rows and a chunk without a component -/

def plainEnv : BatcherEnv where
  toTraversal := PendingRow.plainTraversal
  totalSizeBytes := fun _ => 64
  valuesMut := AList.keys
  valuesMut_perm := fun _ => Perm.refl _

def onePath : EntityPath := ⟨["points"]⟩

def frameRow (rowId : RowId) : PendingRow := PendingRow.rowAtFrame rowId .sequence [(⟨"a"⟩, "Int32")]

def robotChunk : Chunk := .ofColumns 9 ⟨["robot"]⟩ 16 [8] [] [(⟨"position"⟩, [some []])]

def mixedEvents : List Event :=
  [.cmd (.appendRow onePath (frameRow 0)), .cmd (.appendRow onePath (frameRow 1)), .tick,
    .cmd (.appendChunk robotChunk), .cmd (.appendRow onePath (frameRow 2)),
    .cmd (.appendRow ⟨["robot"]⟩ (frameRow 3)), .cmd (.flush 7)]

theorem ofEntity_sublist (entityPath : EntityPath) (rows : List (EntityPath × PendingRow)) :
    (ofEntity entityPath rows).Sublist (rows.map (·.2)) := by
  unfold ofEntity
  induction rows with
  | nil => exact .slnil
  | cons row rows ih =>
    rw [filterMap_cons, map_cons]
    split
    · exact ih.cons _
    · rename_i hsome
      split at hsome
      · rw [← Option.some.inj hsome]
        exact ih.cons_cons _
      · cases hsome

theorem agree_frameRow (i j : RowId) : Agree (frameRow i) (frameRow j) where
  timeTypes := by
    intro name x y hx hy
    have hy : (frameRow i).timepoint.cells.lookup name = some y := hy
    rw [Option.mem_unique hx hy]
  dataTypes := by
    intro component x y hx hy
    have hy : (frameRow i).arrayOf component = some y := hy
    rw [Option.mem_unique hx hy]

theorem mixedEvents_workable : Workable PendingRow.plainTraversal (accepted mixedEvents) ∧
    ∀ entityPath, PendingRow.Compatible plainEnv.concatFails
      (ofEntity entityPath (rowsOf (accepted mixedEvents))) := by
  have hsub : ∀ entityPath, (ofEntity entityPath (rowsOf (accepted mixedEvents))).Sublist
      ([0, 1, 2, 3].map frameRow) := fun entityPath => ofEntity_sublist entityPath _
  have hrow : ∀ row ∈ [0, 1, 2, 3].map frameRow, ∃ rowId, row = frameRow rowId := by
    intro row hrow
    obtain ⟨rowId, -, rfl⟩ := mem_map.mp hrow
    exact ⟨rowId, rfl⟩
  have hfree : plainTraversal.CollisionFree ([0, 1, 2, 3].map frameRow) := by
    refine @PendingRow.collisionFree_of_eq _ _ [⟨"frame"⟩] ["Int32"] fun row hmem => ?_
    obtain ⟨rowId, rfl⟩ := hrow row hmem
    exact ⟨rfl, rfl⟩
  have hfits : Fits ([0, 1, 2, 3].map frameRow) := by
    intro component
    have hlen : ∀ rowId, ((frameRow rowId).arrayOf component).elim 0 (·.values.length) ≤ 1 := by
      intro rowId
      unfold frameRow PendingRow.arrayOf rowAtFrame Assoc.ofList
      simp only [map_cons, map_nil, foldl_cons, foldl_nil, lookup_insert_ite]
      split
      · exact Nat.le_refl 1
      · exact Nat.zero_le 1
    have hsum := sum_le_card_nsmul (([0, 1, 2, 3].map frameRow).map fun row =>
      (row.arrayOf component).elim 0 (·.values.length)) 1 (by
        intro n hn
        obtain ⟨row, hmem, rfl⟩ := mem_map.mp hn
        obtain ⟨rowId, rfl⟩ := hrow row hmem
        exact hlen rowId)
    rw [length_map, length_map] at hsum
    exact le_trans hsum (by decide)
  refine ⟨fun entityPath => ⟨hfree.subset fun _ hmem => (hsub entityPath).subset hmem,
    hfits.subperm (hsub entityPath).subperm⟩, fun entityPath => ⟨fun a ha b hb _ _ => ?_, fun _ _ _ _ => rfl⟩⟩
  obtain ⟨i, rfl⟩ := hrow a ((hsub entityPath).subset ha)
  obtain ⟨j, rfl⟩ := hrow b ((hsub entityPath).subset hb)
  exact agree_frameRow i j

/-- The rows sent are the four rows and that of the chunk. -/
theorem run_flushed_mixedEvents :
    ∃ s, run plainEnv .DEFAULT mixedEvents = .ok s ∧ s.acknowledged = [7] ∧
      (s.sent.flatMap (·.loggedRows)).Perm (robotChunk.loggedRows ++
        [(frameRow 0).logged onePath, (frameRow 1).logged onePath, (frameRow 2).logged onePath,
          (frameRow 3).logged ⟨["robot"]⟩]) := by
  obtain ⟨hworkable, hcompatible⟩ := mixedEvents_workable
  obtain ⟨s, hrun⟩ := @run_ok plainEnv .DEFAULT mixedEvents hworkable
  obtain ⟨hacks, hflushed⟩ := run_flushed plainEnv .DEFAULT mixedEvents s hrun
  refine ⟨s, hrun, hacks, ?_⟩
  exact (hflushed (@Flushed.flush (mixedEvents.dropLast) 7 rfl)).2 fun entityPath =>
    ⟨(hworkable entityPath).1, hcompatible entityPath⟩

def bareChunk : Chunk where
  id := 1
  entityPath := onePath
  sizeBytes := 16
  isSorted := true
  rowIds := [0]
  timelines := ∅
  components := ∅

/-- The flush is acknowledged, and the chunk was not sent. -/
theorem run_drops_bareChunk : bareChunk.sanityCheck = .ok () ∧
    ∃ s, run plainEnv .DEFAULT [.cmd (.appendChunk bareChunk), .cmd (.flush 7)] = .ok s ∧ s.acknowledged = [7] ∧
      bareChunk ∈ chunksOf (accepted [.cmd (.appendChunk bareChunk), .cmd (.flush 7)]) ∧ s.sent = [] := by
  refine ⟨rfl, _, rfl, rfl, ?_, rfl⟩
  exact mem_singleton.mpr rfl

end BatchingThread

end Dalaran
