import Dalaran.Dlr.Frames

/-
  The byte chunks a decoder has been fed (`ByteChunkBuffer` in `state_machine.rs`).

  Bytes wait in a queue of chunks. A read of `n` bytes that cannot be completed
  keeps what it got in a scratch buffer, to be filled up by the next call, which
  must ask for the same number. `pending` is what all of this amounts to: one byte
  string, of which a read takes the front (`tryRead_of_le`) or nothing
  (`tryRead_of_lt`).

  A chunk of the queue is its unread part, the scratch buffer its length and the
  bytes filled so far. Of a `usize` it is assumed that it has 64 bits; the count of
  the bytes read is a `Nat`, and no more than the bytes that were pushed.

  Correspondence (Rust ↔ Lean):
    `ByteChunkBuffer::try_read` ↔ `tryRead`, its loop `fill`
    `ByteChunkBuffer::try_peek` ↔ `tryPeek`, its loop `peekFrom`
-/

namespace Dalaran

open List

/-- `isize::MAX`, the most bytes a `Vec` can hold. -/
def ISIZE_MAX : Nat := 9223372036854775807

structure ByteChunkBuffer where
  queue : List Bytes
  bufferLen : Nat
  filled : Bytes
  numRead : Nat

namespace ByteChunkBuffer

def new : ByteChunkBuffer := ⟨[], 0, [], 0⟩

def push (b : ByteChunkBuffer) (chunk : Bytes) : ByteChunkBuffer :=
  if chunk.isEmpty then b else { b with queue := b.queue ++ [chunk] }

/-- Take up to `n` bytes off the front of the queue, dropping the chunks it empties. -/
def fill : Nat → List Bytes → Bytes × List Bytes
  | 0, queue => ([], queue)
  | _ + 1, [] => ([], [])
  | n + 1, chunk :: queue =>
    if chunk.length ≤ n + 1 then
      (chunk ++ (fill (n + 1 - chunk.length) queue).1, (fill (n + 1 - chunk.length) queue).2)
    else (chunk.take (n + 1), chunk.drop (n + 1) :: queue)

/-- Make the scratch buffer one of length `n`, which must not lose bytes. -/
def resize (b : ByteChunkBuffer) (n : Nat) : Except Panic ByteChunkBuffer :=
  if b.bufferLen = n then .ok b
  else if b.filled ≠ [] then .error .assertFailed
  else if ISIZE_MAX < n then .error .capacityOverflow
  else .ok { b with bufferLen := n }

/-- Read exactly `n` bytes, or keep what there is for the next call. -/
def tryRead (b : ByteChunkBuffer) (n : Nat) : Except Panic (Option Bytes × ByteChunkBuffer) := do
  let b ← b.resize n
  let got := fill (n - b.filled.length) b.queue
  let filled := b.filled ++ got.1
  if filled.length = n then
    pure (some filled, { queue := got.2, bufferLen := 0, filled := [], numRead := b.numRead + n })
  else pure (none, { b with queue := got.2, filled := filled })

/-- Copy up to `n` bytes off the front of some chunks. -/
def peekFrom : Nat → List Bytes → Bytes
  | 0, _ => []
  | _ + 1, [] => []
  | n + 1, chunk :: queue => chunk.take (n + 1) ++ peekFrom (n + 1 - chunk.length) queue

/-- The next `n` bytes, or as many as there are. Bytes kept for a read of another length do not
count. -/
def tryPeek (b : ByteChunkBuffer) (n : Nat) : Bytes :=
  let kept := if n = b.bufferLen then b.filled else []
  kept ++ peekFrom (n - kept.length) b.queue

/-! ## The pending bytes -/

def pending (b : ByteChunkBuffer) : Bytes := b.filled ++ b.queue.flatten

def WellFilled (b : ByteChunkBuffer) : Prop := b.filled ≠ [] → b.filled.length < b.bufferLen

/-- A read of `n` bytes goes on where the last one stopped. -/
def ReadyFor (b : ByteChunkBuffer) (n : Nat) : Prop := b.filled = [] ∨ b.bufferLen = n

variable {b : ByteChunkBuffer} {n : Nat}

@[simp] theorem push_pending (b : ByteChunkBuffer) (chunk : Bytes) :
    (b.push chunk).pending = b.pending ++ chunk := by
  unfold push
  split
  · rename_i h
    rw [List.isEmpty_iff.mp h, append_nil]
  · simp [pending]

@[simp] theorem push_frame (b : ByteChunkBuffer) (chunk : Bytes) :
    (b.push chunk).filled = b.filled ∧ (b.push chunk).bufferLen = b.bufferLen ∧
      (b.push chunk).numRead = b.numRead := by
  unfold push
  split <;> exact ⟨rfl, rfl, rfl⟩

theorem fill_spec : ∀ (n : Nat) (queue : List Bytes),
    (fill n queue).1 = queue.flatten.take n ∧ (fill n queue).2.flatten = queue.flatten.drop n
  | 0, queue => by simp [fill]
  | n + 1, [] => by simp [fill]
  | n + 1, chunk :: queue => by
    unfold fill
    split
    · rename_i hle
      obtain ⟨h1, h2⟩ := fill_spec (n + 1 - chunk.length) queue
      refine ⟨?_, ?_⟩
      · rw [h1, flatten_cons, take_append, take_of_length_le hle]
      · rw [h2, flatten_cons, drop_append, drop_eq_nil_of_le hle, nil_append]
    · rename_i hlt
      refine ⟨?_, ?_⟩
      · rw [flatten_cons, take_append_of_le_length (by omega)]
      · rw [flatten_cons, flatten_cons, drop_append_of_le_length (by omega)]

theorem peekFrom_eq : ∀ (n : Nat) (queue : List Bytes), peekFrom n queue = queue.flatten.take n
  | 0, queue => by simp [peekFrom]
  | n + 1, [] => by simp [peekFrom]
  | n + 1, chunk :: queue => by
    rw [peekFrom, peekFrom_eq, flatten_cons, take_append]

theorem resize_of_ready (h : b.ReadyFor n) (hn : n ≤ ISIZE_MAX ∨ b.bufferLen = n) :
    b.resize n = .ok { b with bufferLen := n } := by
  unfold resize
  by_cases heq : b.bufferLen = n
  · rw [if_pos heq, ← heq]
  · rw [if_neg heq, if_neg (fun hne => hne (h.resolve_right heq)), if_neg]
    exact Nat.not_lt.mpr (hn.resolve_right heq)

theorem filled_append_fill (hle : b.filled.length ≤ n) :
    b.filled ++ (fill (n - b.filled.length) b.queue).1 = b.pending.take n := by
  rw [(fill_spec _ _).1, pending, take_append, take_of_length_le hle]

theorem fill_flatten (hle : b.filled.length ≤ n) :
    (fill (n - b.filled.length) b.queue).2.flatten = b.pending.drop n := by
  rw [(fill_spec _ _).2, pending, drop_append, drop_eq_nil_of_le hle, nil_append]

theorem filled_length_le (hwf : b.WellFilled) (h : b.ReadyFor n) : b.filled.length ≤ n := by
  by_cases hne : b.filled = []
  · simp [hne]
  · have := hwf hne
    rw [h.resolve_left hne] at this
    omega

theorem tryRead_of_le (hwf : b.WellFilled) (h : b.ReadyFor n)
    (hn : n ≤ ISIZE_MAX ∨ b.bufferLen = n) (hle : n ≤ b.pending.length) :
    ∃ b', b.tryRead n = .ok (some (b.pending.take n), b') ∧ b'.pending = b.pending.drop n ∧
      b'.filled = [] ∧ b'.bufferLen = 0 ∧ b'.numRead = b.numRead + n := by
  have hfilled := filled_length_le hwf h
  unfold tryRead
  rw [resize_of_ready h hn]
  simp only [bind, Except.bind]
  rw [filled_append_fill hfilled, if_pos (by rw [length_take]; omega)]
  refine ⟨_, rfl, ?_, rfl, rfl, rfl⟩
  exact fill_flatten hfilled

theorem tryRead_of_lt (hwf : b.WellFilled) (h : b.ReadyFor n)
    (hn : n ≤ ISIZE_MAX ∨ b.bufferLen = n) (hlt : b.pending.length < n) :
    ∃ b', b.tryRead n = .ok (none, b') ∧ b'.pending = b.pending ∧
      b'.WellFilled ∧ b'.bufferLen = n ∧ b'.numRead = b.numRead := by
  have hfilled := filled_length_le hwf h
  have htake : b.pending.take n = b.pending := take_of_length_le (by omega)
  unfold tryRead
  rw [resize_of_ready h hn]
  simp only [bind, Except.bind]
  rw [filled_append_fill hfilled, htake, if_neg (by omega)]
  refine ⟨_, rfl, ?_, fun _ => hlt, rfl, rfl⟩
  rw [pending]
  rw [fill_flatten hfilled, drop_eq_nil_of_le (by omega), append_nil]

theorem tryRead_of_capacity (h : b.ReadyFor n) (hlen : b.bufferLen ≤ ISIZE_MAX) (hn : ISIZE_MAX < n) :
    b.tryRead n = .error .capacityOverflow := by
  have hne : b.bufferLen ≠ n := by omega
  have hnil : b.filled = [] := h.resolve_right hne
  unfold tryRead resize
  rw [if_neg hne, if_neg (fun h => h hnil), if_pos hn]
  rfl

variable {r : Option Bytes × ByteChunkBuffer}

theorem ready_of_tryRead (h : b.tryRead n = .ok r) : b.ReadyFor n ∧ (n ≤ ISIZE_MAX ∨ b.bufferLen = n) := by
  unfold tryRead at h
  have hresize : b.resize n = .ok (match b.resize n with | .ok b' => b' | .error _ => b) := by
    cases hb : b.resize n with
    | ok b' => rfl
    | error p => simp [hb, bind, Except.bind] at h
  unfold resize at hresize
  by_cases heq : b.bufferLen = n
  · exact ⟨.inr heq, .inr heq⟩
  · by_cases hne : b.filled = []
    · by_cases hcap : ISIZE_MAX < n
      · simp [heq, hne, hcap] at hresize
      · exact ⟨.inl hne, .inl (Nat.le_of_not_lt hcap)⟩
    · simp [heq, hne] at hresize

theorem tryPeek_of_ready (hwf : b.WellFilled) (h : b.ReadyFor n) : b.tryPeek n = b.pending.take n := by
  have hfilled := filled_length_le hwf h
  unfold tryPeek
  by_cases heq : n = b.bufferLen
  · rw [if_pos heq]
    simp only
    rw [peekFrom_eq, pending, take_append, take_of_length_le hfilled]
  · have hnil : b.filled = [] := h.resolve_right (Ne.symm heq)
    simp [heq, peekFrom_eq, pending, hnil]

/-! ## Any order of pushes and reads -/

inductive Op where
  | push (chunk : Bytes)
  | tryRead (n : Nat)

/-- The bytes some calls return, in order, and the buffer after them. -/
def calls : ByteChunkBuffer → List Op → Except Panic (Bytes × ByteChunkBuffer)
  | b, [] => .ok ([], b)
  | b, .push chunk :: ops => calls (b.push chunk) ops
  | b, .tryRead n :: ops => do
    let read ← b.tryRead n
    let rest ← calls read.2 ops
    pure (read.1.getD [] ++ rest.1, rest.2)

def pushed : List Op → Bytes
  | [] => []
  | .push chunk :: ops => chunk ++ pushed ops
  | .tryRead _ :: ops => pushed ops

theorem tryRead_wellFilled (hwf : b.WellFilled) (h : b.tryRead n = .ok r) : r.2.WellFilled := by
  obtain ⟨hready, hcap⟩ := ready_of_tryRead h
  by_cases hle : n ≤ b.pending.length
  · obtain ⟨b', hb', -, hfilled, -⟩ := tryRead_of_le hwf hready hcap hle
    obtain rfl := Except.ok.inj (hb'.symm.trans h)
    exact fun hne => absurd hfilled hne
  · obtain ⟨b', hb', -, hwf', -⟩ := tryRead_of_lt hwf hready hcap (by omega)
    obtain rfl := Except.ok.inj (hb'.symm.trans h)
    exact hwf'

theorem push_wellFilled (hwf : b.WellFilled) (chunk : Bytes) : (b.push chunk).WellFilled := by
  obtain ⟨h1, h2, -⟩ := push_frame b chunk
  unfold WellFilled
  rw [h1, h2]
  exact hwf

theorem calls_fifo : ∀ {ops : List Op} {b b' : ByteChunkBuffer} {out : Bytes}, b.WellFilled →
    b.calls ops = .ok (out, b') → b'.WellFilled ∧ out ++ b'.pending = b.pending ++ pushed ops
  | [], b, b', out, hwf, h => by
    obtain ⟨rfl, rfl⟩ : [] = out ∧ b = b' := by simpa [calls] using h
    exact ⟨hwf, by simp [pushed]⟩
  | .push chunk :: ops, b, b', out, hwf, h => by
    obtain ⟨hwf', ih⟩ := calls_fifo (push_wellFilled hwf chunk) h
    refine ⟨hwf', ?_⟩
    rw [ih, push_pending, pushed, append_assoc]
  | .tryRead n :: ops, b, b', out, hwf, h => by
    rw [calls] at h
    cases hread : b.tryRead n with
    | error p => simp [hread, bind, Except.bind] at h
    | ok read =>
      rw [hread] at h
      simp only [bind, Except.bind] at h
      cases hrest : calls read.2 ops with
      | error p => simp [hrest] at h
      | ok rest =>
        rw [hrest] at h
        obtain ⟨rfl, rfl⟩ : read.1.getD [] ++ rest.1 = out ∧ rest.2 = b' := by
          simpa [pure, Except.pure] using h
        obtain ⟨hready, hcap⟩ := ready_of_tryRead hread
        obtain ⟨hwf', ih⟩ := calls_fifo (tryRead_wellFilled hwf hread) hrest
        refine ⟨hwf', ?_⟩
        rw [pushed]
        by_cases hle : n ≤ b.pending.length
        · obtain ⟨b₁, hb₁, hp, -⟩ := tryRead_of_le hwf hready hcap hle
          obtain rfl := Except.ok.inj (hb₁.symm.trans hread)
          rw [hp] at ih
          simp only [Option.getD_some, append_assoc]
          rw [ih, ← append_assoc, take_append_drop]
        · obtain ⟨b₁, hb₁, hp, -⟩ := tryRead_of_lt hwf hready hcap (by omega)
          obtain rfl := Except.ok.inj (hb₁.symm.trans hread)
          rw [hp] at ih
          simpa using ih

theorem tryRead_of_tryPeek (hwf : b.WellFilled) (hpeek : (b.tryPeek n).length = n)
    (h : b.tryRead n = .ok r) : r.1 = some (b.tryPeek n) := by
  obtain ⟨hready, hcap⟩ := ready_of_tryRead h
  rw [tryPeek_of_ready hwf hready] at hpeek ⊢
  have hle : n ≤ b.pending.length := by
    rw [length_take] at hpeek
    omega
  obtain ⟨b', hb', -⟩ := tryRead_of_le hwf hready hcap hle
  obtain rfl := Except.ok.inj (hb'.symm.trans h)
  rfl

end ByteChunkBuffer

end Dalaran
