import Dalaran.Batcher.Lossless

/-
  The batching thread (`batching_thread` in `batcher.rs`).

  The thread takes one event after the other: a command off its channel, a tick
  of its timer, or the news that the channel is closed. Rows wait in one
  accumulator per entity until one of three thresholds (rows, bytes, time) or a
  command flushes it; then they are turned into chunks, and the chunks that have
  a component are sent. A panic in `many_into_chunks` ends the thread.

  The order in which the accumulators are traversed and the measured size of a
  row are given. Byte counts are `u64` and wrap. The hooks are only told what
  happens, and the tracing, the warnings and the backpressure of the channels
  leave no trace here; `flushTick` only sets the pace of the ticks, which may
  come at any time.

  Correspondence (Rust ↔ Lean):
    the loop of `batching_thread` ↔ `BatchingThread.step`, `BatchingThread.run`
-/

namespace Dalaran

/-! ## Commands and state -/

structure ChunkBatcherConfig where
  flushTick : Nat
  flushNumBytes : UInt64
  flushNumRows : UInt64
  chunkMaxRowsIfUnsorted : UInt64
  maxBytesInFlight : UInt64

def ChunkBatcherConfig.DEFAULT : ChunkBatcherConfig where
  flushTick := 200000000
  flushNumBytes := 2097152
  flushNumRows := 18446744073709551615
  chunkMaxRowsIfUnsorted := 8192
  maxBytesInFlight := 104857600

/-- A flush carries the channel on which it is acknowledged. -/
inductive Command where
  | appendChunk (chunk : Chunk)
  | appendRow (entityPath : EntityPath) (row : PendingRow)
  | flush (onDone : Nat)
  | updateConfig (config : ChunkBatcherConfig)
  | shutdown

inductive Event where
  | cmd (command : Command)
  | disconnected
  | tick

structure Accumulator where
  entityPath : EntityPath
  pendingRows : List PendingRow
  pendingNumBytes : UInt64

def Accumulator.new (entityPath : EntityPath) : Accumulator where
  entityPath := entityPath
  pendingRows := []
  pendingNumBytes := 0

def Accumulator.reset (acc : Accumulator) : Accumulator where
  entityPath := acc.entityPath
  pendingRows := []
  pendingNumBytes := 0

/-- What the thread is given besides what `many_into_chunks` is. -/
structure BatcherEnv extends Traversal where
  totalSizeBytes : PendingRow → UInt64
  valuesMut : Assoc EntityPath Accumulator → List EntityPath
  valuesMut_perm : ∀ accs, (valuesMut accs).Perm accs.keys

/-- The thread: its local variables, what it has sent and acknowledged, and how many chunk ids it drew. -/
structure BatchingThread where
  config : ChunkBatcherConfig
  accs : Assoc EntityPath Accumulator
  skipNextTick : Bool
  running : Bool
  sent : List Chunk
  acknowledged : List Nat
  numChunkIds : Nat

/-! ## The loop -/

def Chunk.sendable (chunk : Chunk) : Bool := !chunk.components.entries.isEmpty

/-- The chunks that are sent: the others are dropped with a warning, and errors with one of their own. -/
def sendable (results : List (Except ChunkError Chunk)) : List Chunk :=
  results.filterMap fun
    | .ok chunk => if chunk.sendable then some chunk else none
    | .error _ => none

def doPushRow (E : BatcherEnv) (acc : Accumulator) (row : PendingRow) : Accumulator :=
  { acc with
    pendingNumBytes := acc.pendingNumBytes + E.totalSizeBytes row
    pendingRows := acc.pendingRows ++ [row] }

namespace BatchingThread

variable (E : BatcherEnv)

def doFlushAll (s : BatchingThread) (entityPath : EntityPath) : Except OffsetOverflow BatchingThread :=
  match s.accs.lookup entityPath with
  | none => .ok s
  | some acc =>
    if acc.pendingRows.isEmpty then .ok s
    else do
      let chunks ← PendingRow.manyIntoChunks E.toTraversal s.numChunkIds acc.entityPath
        s.config.chunkMaxRowsIfUnsorted acc.pendingRows
      pure { s with
        accs := s.accs.insert entityPath acc.reset
        sent := s.sent ++ sendable chunks
        numChunkIds := s.numChunkIds + chunks.length }

def flushEach (s : BatchingThread) : Except OffsetOverflow BatchingThread :=
  (E.valuesMut s.accs).foldlM (doFlushAll E) s

def stop (s : BatchingThread) : Except OffsetOverflow BatchingThread := do
  let s ← flushEach E s
  pure { s with running := false }

def appendRow (s : BatchingThread) (entityPath : EntityPath) (row : PendingRow) :
    Except OffsetOverflow BatchingThread :=
  let acc := doPushRow E ((s.accs.lookup entityPath).getD (.new entityPath)) row
  let s := { s with accs := s.accs.insert entityPath acc }
  if s.config.flushNumRows.toNat ≤ acc.pendingRows.length then do
    let s ← doFlushAll E s entityPath
    pure { s with skipNextTick := true }
  else if s.config.flushNumBytes ≤ acc.pendingNumBytes then do
    let s ← doFlushAll E s entityPath
    pure { s with skipNextTick := true }
  else .ok s

def onCommand (s : BatchingThread) : Command → Except OffsetOverflow BatchingThread
  | .appendChunk chunk => .ok { s with sent := s.sent ++ sendable [.ok chunk] }
  | .appendRow entityPath row => appendRow E s entityPath row
  | .flush onDone => do
    let s ← flushEach E { s with skipNextTick := true }
    pure { s with acknowledged := s.acknowledged ++ [onDone] }
  | .updateConfig config => .ok { s with config := config }
  | .shutdown => stop E s

/-- One turn of the loop; a thread that has ended takes no more events. -/
def step (s : BatchingThread) (event : Event) : Except OffsetOverflow BatchingThread :=
  if s.running then
    match event with
    | .cmd command => onCommand E s command
    | .disconnected => stop E s
    | .tick => if s.skipNextTick then .ok { s with skipNextTick := false } else flushEach E s
  else .ok s

def new (config : ChunkBatcherConfig) : BatchingThread where
  config := config
  accs := ∅
  skipNextTick := false
  running := true
  sent := []
  acknowledged := []
  numChunkIds := 0

def run (config : ChunkBatcherConfig) (events : List Event) : Except OffsetOverflow BatchingThread :=
  events.foldlM (step E) (new config)

end BatchingThread

end Dalaran
