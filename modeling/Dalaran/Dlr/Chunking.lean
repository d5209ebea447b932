import Dalaran.Base.Reader
import Dalaran.Dlr.Decoder

/-
  A decoder does not notice how its bytes are cut up.

  `decoderMachine` reads one byte string, frame by frame. A decoder with bytes
  refines it (`tryRead_refines`): what is kept in its scratch buffer and in its
  queue of chunks amounts to the bytes the machine has not read.
-/

namespace Dalaran

open Reader List Control ByteChunkBuffer Machine Option

variable {Msg Cache Manifest : Type}

/-! ## The machine -/

/-- How many bytes the next frame takes. -/
def DecoderState.need : DecoderState → Option Nat
  | .waitingForStreamHeader => some StreamHeader.ENCODED_SIZE_BYTES
  | .waitingForMessageHeader => some MessageHeader.ENCODED_SIZE_BYTES
  | .waitingForMessagePayload header => some header.len.toNat
  | .waitingForStreamFooter => some StreamFooter.ENCODED_SIZE_BYTES
  | .aborted => none

/-- How many turns without a byte are ahead. -/
def DecoderState.rank : DecoderState → Nat
  | .waitingForMessagePayload _ => 3
  | .waitingForStreamFooter => 2
  | .waitingForMessageHeader => 1
  | .waitingForStreamHeader => 0
  | .aborted => 0

/-- Look at a frame: the decoder after it, whether it was read, and what is returned. -/
def Control.look (codec : Codec Msg Cache Manifest) (c : Control Cache Manifest) (numRead : Nat)
    (frame : Bytes) : Except Panic (Control Cache Manifest × Bool × Turn Msg) :=
  match c.state with
  | .waitingForStreamHeader => (c.onStreamHeader (numRead == 0) frame).map fun r => (r.1, true, r.2)
  | .waitingForMessageHeader => c.onMessageHeader frame
  | .waitingForMessagePayload header => (c.onMessagePayload codec header frame).map fun r => (r.1, true, r.2)
  | .waitingForStreamFooter => (c.onStreamFooter frame).map fun r => (r.1, true, r.2)
  | .aborted => .ok (c, false, .ok none)

/-- A turn as a move: what is returned to the caller is an answer. -/
def Turn.move {σ : Type} (s : σ) (n : Nat) : Turn Msg → Move σ (Except CodecError Msg) Panic
  | .again => .goOn s n
  | .ok none => .goOn s n
  | .ok (some message) => .answer (.ok message) s n
  | .err (.storeIdMissingApplicationId _ _) => .goOn s n
  | .err e => .answer (.error e) s n

def Control.move (codec : Codec Msg Cache Manifest) (s : Control Cache Manifest × Nat) (x : Bytes) :
    Move (Control Cache Manifest × Nat) (Except CodecError Msg) Panic :=
  match s.1.state.need with
  | none => .wait
  | some n =>
    if ISIZE_MAX < n then .breakDown .capacityOverflow
    else if x.length < n then .wait
    else
      match s.1.look codec s.2 (x.take n) with
      | .error p => .breakDown p
      | .ok (c, true, turn) => turn.move (c, s.2 + n) n
      | .ok (c, false, turn) => turn.move (c, s.2) 0

variable {codec : Codec Msg Cache Manifest} {c c' : Control Cache Manifest} {k n : Nat} {x : Bytes}
  {isRead : Bool} {turn : Turn Msg}

theorem Turn.move_eq_goOn {σ : Type} {s s' : σ} {n n' : Nat} (h : turn.move s n = .goOn s' n') :
    s' = s ∧ n' = n := by
  unfold Turn.move at h
  split at h
  · exact ⟨(Move.goOn.inj h).1.symm, (Move.goOn.inj h).2.symm⟩
  · exact ⟨(Move.goOn.inj h).1.symm, (Move.goOn.inj h).2.symm⟩
  · cases h
  · exact ⟨(Move.goOn.inj h).1.symm, (Move.goOn.inj h).2.symm⟩
  · cases h

theorem Turn.move_eq_answer {σ : Type} {s s' : σ} {n n' : Nat} {r : Except CodecError Msg}
    (h : turn.move s n = .answer r s' n') : s' = s ∧ n' = n := by
  unfold Turn.move at h
  split at h
  · cases h
  · cases h
  · exact ⟨(Move.answer.inj h).2.1.symm, (Move.answer.inj h).2.2.symm⟩
  · cases h
  · exact ⟨(Move.answer.inj h).2.1.symm, (Move.answer.inj h).2.2.symm⟩

/-! ## What a frame leads to -/

variable {frame : Bytes}

theorem Control.onMessageHeader_cases (hlen : frame.length = MessageHeader.ENCODED_SIZE_BYTES)
    (h : c.onMessageHeader frame = .ok (c', isRead, turn)) :
    (isRead = false ∧ c' = { c with state := .waitingForStreamHeader } ∧ turn = .again) ∨
      ∃ header, MessageHeader.fromDlrBytes frame = .ok header ∧ isRead = true ∧
        c' = { c with state := .waitingForMessagePayload header } ∧ turn = .again := by
  unfold onMessageHeader at h
  rw [MessageHeader.fromDlrBytes_of_length hlen] at h ⊢
  cases hkind : MessageKind.ofNat? (LittleEndian.u64FromLe (frame.take 8)).toNat with
  | none =>
    rw [hkind] at h
    simp only [Except.ok.injEq, Prod.mk.injEq] at h
    exact .inl ⟨h.2.1.symm, h.1.symm, h.2.2.symm⟩
  | some kind =>
    rw [hkind] at h
    simp only [Except.ok.injEq, Prod.mk.injEq] at h
    exact .inr ⟨_, rfl, h.2.1.symm, h.1.symm, h.2.2.symm⟩

theorem Control.onMessageHeader_ok {frame : Bytes} (hlen : frame.length = MessageHeader.ENCODED_SIZE_BYTES) :
    ∃ r : Control Cache Manifest × Bool × Turn Msg, c.onMessageHeader frame = .ok r := by
  unfold onMessageHeader
  rw [MessageHeader.fromDlrBytes_of_length hlen]
  cases MessageKind.ofNat? (LittleEndian.u64FromLe (frame.take 8)).toNat with
  | none => exact ⟨_, rfl⟩
  | some kind => exact ⟨_, rfl⟩

theorem Control.onMessagePayload_rank {header : MessageHeader}
    (hstate : c.state = .waitingForMessagePayload header)
    (h : c.onMessagePayload codec header frame = .ok (c', turn)) : c'.state.rank < 3 + 4 * frame.length := by
  unfold onMessagePayload at h
  split at h
  · split at h
    · cases h
      simp only [DecoderState.rank]
      omega
    · rename_i hne
      have hpos : 0 < frame.length := length_pos_iff.mpr fun h => hne (List.isEmpty_iff.mpr h)
      split at h
      · cases h
        simp only [hstate, DecoderState.rank]
        omega
      · cases h
        simp only [DecoderState.rank]
        omega
  · split at h
    · cases h
    · cases h
      simp only [DecoderState.rank]
      omega
    · cases h
      simp only [DecoderState.rank]
      omega

theorem DecoderState.rank_le (s : DecoderState) : s.rank ≤ 3 := by
  cases s <;> simp [DecoderState.rank]

theorem Control.look_rank (hneed : c.state.need = some frame.length)
    (h : c.look codec k frame = .ok (c', isRead, turn)) :
    c'.state.rank < c.state.rank + 4 * (if isRead then frame.length else 0) := by
  have hle := c'.state.rank_le
  unfold look at h
  split at h
  case h_1 hstate =>
    rw [hstate] at hneed
    have hlen : frame.length = 12 := (some.inj hneed).symm
    cases hr : (c.onStreamHeader (k == 0) frame : Except Panic (Control Cache Manifest × Turn Msg)) with
    | error p => simp [hr, Except.map] at h
    | ok r =>
      simp only [hr, Except.map, Except.ok.injEq, Prod.mk.injEq] at h
      rw [← h.2.1, if_pos rfl]
      omega
  case h_2 hstate =>
    rw [hstate] at hneed
    have hlen : frame.length = 16 := (some.inj hneed).symm
    rcases onMessageHeader_cases hlen h with ⟨rfl, rfl, -⟩ | ⟨header, -, rfl, rfl, -⟩
    · simp [hstate, DecoderState.rank]
    · rw [if_pos rfl]
      omega
  case h_3 header hstate =>
    cases hr : c.onMessagePayload codec header frame with
    | error p => simp [hr, Except.map] at h
    | ok r =>
      have hrank := onMessagePayload_rank hstate hr
      simp only [hr, Except.map, Except.ok.injEq, Prod.mk.injEq] at h
      rw [← h.1, ← h.2.1, if_pos rfl, hstate]
      exact hrank
  case h_4 hstate =>
    rw [hstate] at hneed
    have hlen : frame.length = 32 := (some.inj hneed).symm
    cases hr : (c.onStreamFooter frame : Except Panic (Control Cache Manifest × Turn Msg)) with
    | error p => simp [hr, Except.map] at h
    | ok r =>
      simp only [hr, Except.map, Except.ok.injEq, Prod.mk.injEq] at h
      rw [← h.2.1, if_pos rfl]
      omega
  case h_5 hstate =>
    rw [hstate] at hneed
    cases hneed

theorem Control.look_none (h : c.look codec k frame = .ok (c', isRead, .ok none)) : c'.state = .aborted := by
  unfold look at h
  split at h
  case h_1 =>
    unfold onStreamHeader at h
    split at h
    · simp [Except.map] at h
    · split at h
      · simp [Except.map] at h
      · simp only [Except.map, Except.ok.injEq, Prod.mk.injEq] at h
        rw [← h.1]
    · simp [Except.map] at h
  case h_2 =>
    unfold onMessageHeader at h
    split at h
    · cases h
    · simp at h
    · simp at h
    · simp at h
  case h_3 =>
    unfold onMessagePayload at h
    split at h
    · split at h
      · simp [Except.map] at h
      · split at h <;> simp [Except.map] at h
    · split at h <;> simp [Except.map] at h
  case h_4 =>
    unfold onStreamFooter at h
    split at h
    · simp [Except.map] at h
    · simp only [Except.map, Except.ok.injEq, Prod.mk.injEq] at h
      rw [← h.1]
    · rename_i footer _
      cases hcheck : checkEntries footer.entries <;>
        simp [hcheck, bind, Except.bind, pure, Except.pure, Except.map] at h
  case h_5 hstate =>
    simp only [Except.ok.injEq, Prod.mk.injEq] at h
    rw [← h.1]
    exact hstate

/-! ## The moves -/

theorem Control.move_of_need_none (h : c.state.need = none) : Control.move codec (c, k) x = .wait := by
  unfold move
  rw [h]

theorem Control.move_of_need (h : c.state.need = some n) : Control.move codec (c, k) x =
    if ISIZE_MAX < n then .breakDown .capacityOverflow
    else if x.length < n then .wait
    else
      match c.look codec k (x.take n) with
      | .error p => .breakDown p
      | .ok (c, true, turn) => turn.move (c, k + n) n
      | .ok (c, false, turn) => turn.move (c, k) 0 := by
  unfold move
  rw [h]

theorem Control.move_turn (hneed : c.state.need = some n) (hcap : ¬ ISIZE_MAX < n) (hlen : ¬ x.length < n)
    (hlook : c.look codec k (x.take n) = .ok (c', isRead, turn)) :
    Control.move codec (c, k) x = turn.move (c', k + if isRead then n else 0) (if isRead then n else 0) := by
  rw [move_of_need hneed, if_neg hcap, if_neg hlen, hlook]
  cases isRead with
  | true => rfl
  | false => rfl

theorem Control.move_cases (codec : Codec Msg Cache Manifest) (c : Control Cache Manifest) (k : Nat) (x : Bytes) :
    Control.move codec (c, k) x = .wait ∨ (∃ p, Control.move codec (c, k) x = .breakDown p) ∨
      ∃ n c' isRead turn, c.state.need = some n ∧ ¬ ISIZE_MAX < n ∧ ¬ x.length < n ∧
        c.look codec k (x.take n) = .ok (c', isRead, turn) ∧ Control.move codec (c, k) x =
          turn.move (c', k + if isRead then n else 0) (if isRead then n else 0) := by
  cases hneed : c.state.need with
  | none => exact .inl (move_of_need_none hneed)
  | some n =>
    by_cases hcap : ISIZE_MAX < n
    · refine .inr (.inl ⟨.capacityOverflow, ?_⟩)
      rw [move_of_need hneed, if_pos hcap]
    · by_cases hlen : x.length < n
      · refine .inl ?_
        rw [move_of_need hneed, if_neg hcap, if_pos hlen]
      · cases hlook : c.look codec k (x.take n) with
        | error p =>
          refine .inr (.inl ⟨p, ?_⟩)
          rw [move_of_need hneed, if_neg hcap, if_neg hlen, hlook]
        | ok r =>
          obtain ⟨c', isRead, turn⟩ := r
          exact .inr (.inr ⟨n, c', isRead, turn, rfl, hcap, hlen, hlook, move_turn hneed hcap hlen hlook⟩)

theorem Control.move_stable (s : Control Cache Manifest × Nat) (x y : Bytes) (h : Control.move codec s x ≠ .wait) :
    Control.move codec s (x ++ y) = Control.move codec s x := by
  obtain ⟨c, k⟩ := s
  cases hneed : c.state.need with
  | none => exact absurd (move_of_need_none hneed) h
  | some n =>
    rw [move_of_need hneed] at h ⊢
    rw [move_of_need hneed]
    by_cases hcap : ISIZE_MAX < n
    · rw [if_pos hcap, if_pos hcap]
    · rw [if_neg hcap] at h
      have hlen : ¬ x.length < n := fun hlt => h (if_pos hlt)
      have hlen' : ¬ (x ++ y).length < n := by
        rw [length_append]
        omega
      rw [if_neg hcap, if_neg hcap, if_neg hlen, if_neg hlen', take_append_of_le_length (by omega)]

variable {s s' : Control Cache Manifest × Nat} {n' : Nat}

theorem Control.move_moved
    (h : Control.move codec s x = .goOn s' n' ∨ ∃ r, Control.move codec s x = .answer r s' n') :
    ∃ n c' isRead turn, s.1.state.need = some n ∧ ¬ x.length < n ∧
      s.1.look codec s.2 (x.take n) = .ok (c', isRead, turn) ∧
      s' = (c', s.2 + if isRead then n else 0) ∧ n' = if isRead then n else 0 := by
  obtain ⟨c, k⟩ := s
  rcases move_cases codec c k x with hw | ⟨p, hp⟩ | ⟨n, c', isRead, turn, hneed, -, hlen, hlook, hm⟩
  · simp [hw] at h
  · simp [hp] at h
  · rw [hm] at h
    exact ⟨n, c', isRead, turn, hneed, hlen, hlook,
      h.elim Turn.move_eq_goOn fun ⟨_, h⟩ => Turn.move_eq_answer h⟩

theorem Control.move_lt
    (h : Control.move codec s x = .goOn s' n' ∨ ∃ r, Control.move codec s x = .answer r s' n') :
    n' ≤ x.length ∧ s'.1.state.rank < s.1.state.rank + 4 * n' := by
  obtain ⟨n, c', isRead, turn, hneed, hlen, hlook, rfl, rfl⟩ := move_moved h
  have htake : (x.take n).length = n := by
    rw [length_take]
    omega
  have hrank := look_rank (by rw [htake]; exact hneed) hlook
  rw [htake] at hrank
  refine ⟨?_, hrank⟩
  split <;> omega

/-- A decoder as a machine that reads one byte string. -/
def decoderMachine (codec : Codec Msg Cache Manifest) :
    Machine (Control Cache Manifest × Nat) UInt8 (Except CodecError Msg) Panic where
  move := Control.move codec
  weight := 4
  rank := fun s => s.1.state.rank
  stable := move_stable
  goOn_lt _ _ _ _ h := move_lt (.inl h)
  answer_lt _ _ r _ _ h := move_lt (.inr ⟨r, h⟩)

/-! ## A decoder with its bytes -/

namespace Decoder

/-- A read goes on where the last one stopped; before a peek, none is under way. -/
structure Ready (d : Decoder Cache Manifest) : Prop where
  wellFilled : d.byteChunks.WellFilled
  bufferLen_le : d.byteChunks.bufferLen ≤ ISIZE_MAX
  readyFor : ∀ n, d.state.need = some n → d.byteChunks.ReadyFor n
  peekable : d.state = .waitingForMessageHeader → d.byteChunks.filled = []

/-- Where the machine stands that a decoder refines. -/
def place (d : Decoder Cache Manifest) : Control Cache Manifest × Nat := (d.toControl, d.byteChunks.numRead)

variable {d d' : Decoder Cache Manifest}

theorem ready_new (cache : Cache) : (new cache : Decoder Cache Manifest).Ready where
  wellFilled := fun h => absurd rfl h
  bufferLen_le := Nat.zero_le _
  readyFor := fun _ _ => .inl rfl
  peekable := fun _ => rfl

theorem Ready.push (h : d.Ready) (chunk : Bytes) : (d.pushByteChunk chunk).Ready := by
  obtain ⟨hfilled, hlen, -⟩ := push_frame d.byteChunks chunk
  refine ⟨?_, ?_, ?_, ?_⟩
  · show (d.byteChunks.push chunk).WellFilled
    unfold ByteChunkBuffer.WellFilled
    rw [hfilled, hlen]
    exact h.wellFilled
  · show (d.byteChunks.push chunk).bufferLen ≤ ISIZE_MAX
    rw [hlen]
    exact h.bufferLen_le
  · intro n hn
    show (d.byteChunks.push chunk).ReadyFor n
    unfold ByteChunkBuffer.ReadyFor
    rw [hfilled, hlen]
    exact h.readyFor n hn
  · intro hstate
    show (d.byteChunks.push chunk).filled = []
    rw [hfilled]
    exact h.peekable hstate

@[simp] theorem pushByteChunk_place (d : Decoder Cache Manifest) (chunk : Bytes) :
    (d.pushByteChunk chunk).place = d.place := by
  show (d.toControl, (d.byteChunks.push chunk).numRead) = (d.toControl, d.byteChunks.numRead)
  rw [(push_frame d.byteChunks chunk).2.2]

@[simp] theorem pushByteChunk_pending (d : Decoder Cache Manifest) (chunk : Bytes) :
    (d.pushByteChunk chunk).byteChunks.pending = d.byteChunks.pending ++ chunk :=
  push_pending _ _

theorem ready_of_filled {c : Control Cache Manifest} {b : ByteChunkBuffer} (hfilled : b.filled = [])
    (hlen : b.bufferLen ≤ ISIZE_MAX) : (⟨c, b⟩ : Decoder Cache Manifest).Ready where
  wellFilled := fun hne => absurd hfilled hne
  bufferLen_le := hlen
  readyFor := fun _ _ => .inl hfilled
  peekable := fun _ => hfilled

theorem step_of_read (hstate : d.state ≠ .waitingForMessageHeader) (hneed : d.state.need = some n) :
    d.step codec = (d.byteChunks.tryRead n).bind fun read =>
      match read.1 with
      | none => .ok ({ d with byteChunks := read.2 }, .ok none)
      | some frame => (d.toControl.look codec d.byteChunks.numRead frame).map fun r => (⟨r.1, read.2⟩, r.2.2) := by
  unfold step look
  cases hd : d.state with
  | waitingForMessageHeader => exact absurd hd hstate
  | aborted =>
    rw [hd] at hneed
    cases hneed
  | waitingForStreamHeader =>
    rw [hd] at hneed
    cases hneed
    cases d.byteChunks.tryRead StreamHeader.ENCODED_SIZE_BYTES with
    | error p => simp only [bind, Except.bind]
    | ok read =>
      obtain ⟨frame, b⟩ := read
      simp only [bind, Except.bind]
      cases frame with
      | none => rfl
      | some frame =>
        dsimp only
        cases d.toControl.onStreamHeader (d.byteChunks.numRead == 0) frame <;> rfl
  | waitingForMessagePayload header =>
    rw [hd] at hneed
    cases hneed
    cases hread : d.byteChunks.tryRead header.len.toNat with
    | error p => simp only [bind, hread, Except.bind]
    | ok read =>
      obtain ⟨frame, b⟩ := read
      simp only [bind, hread, Except.bind]
      cases frame with
      | none => rfl
      | some frame =>
        dsimp only
        cases d.toControl.onMessagePayload codec header frame <;> rfl
  | waitingForStreamFooter =>
    rw [hd] at hneed
    cases hneed
    cases d.byteChunks.tryRead StreamFooter.ENCODED_SIZE_BYTES with
    | error p => simp only [bind, Except.bind]
    | ok read =>
      obtain ⟨frame, b⟩ := read
      simp only [bind, Except.bind]
      cases frame with
      | none => rfl
      | some frame =>
        dsimp only
        cases d.toControl.onStreamFooter frame <;> rfl

theorem peek_eq (h : d.Ready) (hstate : d.state = .waitingForMessageHeader) :
    d.byteChunks.tryPeek MessageHeader.ENCODED_SIZE_BYTES =
      d.byteChunks.pending.take MessageHeader.ENCODED_SIZE_BYTES :=
  tryPeek_of_ready h.wellFilled (.inl (h.peekable hstate))

theorem step_of_lt (h : d.Ready) (hneed : d.state.need = some n) (hcap : ¬ ISIZE_MAX < n)
    (hlt : d.byteChunks.pending.length < n) :
    ∃ b, d.step codec = .ok (⟨d.toControl, b⟩, .ok none) ∧ (⟨d.toControl, b⟩ : Decoder Cache Manifest).Ready ∧
      b.pending = d.byteChunks.pending ∧ b.numRead = d.byteChunks.numRead := by
  by_cases hstate : d.state = .waitingForMessageHeader
  · refine ⟨d.byteChunks, ?_, h, rfl, rfl⟩
    rw [hstate] at hneed
    cases hneed
    unfold step
    rw [hstate]
    rw [peek_eq h hstate, if_neg]
    · rfl
    · rw [length_take]
      omega
  · obtain ⟨b, hread, hpending, hwf, hlen, hnum⟩ :=
      tryRead_of_lt h.wellFilled (h.readyFor n hneed) (.inl (by omega)) hlt
    have hle : b.bufferLen ≤ ISIZE_MAX := by omega
    refine ⟨b, ?_, ⟨hwf, hle, ?_, fun hd => absurd hd hstate⟩, hpending, hnum⟩
    · rw [step_of_read hstate hneed, hread]
      rfl
    · intro m hm
      obtain rfl := mem_unique hneed hm
      exact .inr hlen

theorem step_of_capacity (h : d.Ready) (hneed : d.state.need = some n) (hcap : ISIZE_MAX < n) :
    d.step codec = .error .capacityOverflow := by
  have hstate : d.state ≠ .waitingForMessageHeader := by
    intro hd
    rw [hd] at hneed
    cases hneed
    exact absurd hcap (by decide)
  rw [step_of_read hstate hneed, tryRead_of_capacity (h.readyFor n hneed) h.bufferLen_le hcap]
  rfl

theorem step_of_look_error (h : d.Ready) (hneed : d.state.need = some n) (hcap : ¬ ISIZE_MAX < n)
    (hlen : ¬ d.byteChunks.pending.length < n) {p : Panic}
    (hlook : d.toControl.look codec d.byteChunks.numRead (d.byteChunks.pending.take n) = .error p) :
    d.step codec = .error p := by
  by_cases hstate : d.state = .waitingForMessageHeader
  · rw [hstate] at hneed
    cases hneed
    unfold look at hlook
    rw [hstate] at hlook
    obtain ⟨r, hr⟩ := @Control.onMessageHeader_ok Msg Cache Manifest d.toControl
      (d.byteChunks.pending.take MessageHeader.ENCODED_SIZE_BYTES) (by rw [length_take]; omega)
    rw [hr] at hlook
    cases hlook
  · obtain ⟨b, hread, -⟩ := tryRead_of_le h.wellFilled (h.readyFor n hneed)
      (.inl (by omega)) (Nat.le_of_not_lt hlen)
    rw [step_of_read hstate hneed, hread]
    simp only [Except.bind, hlook]
    rfl

theorem step_of_look (h : d.Ready) (hneed : d.state.need = some n) (hcap : ¬ ISIZE_MAX < n)
    (hlen : ¬ d.byteChunks.pending.length < n)
    (hlook : d.toControl.look codec d.byteChunks.numRead (d.byteChunks.pending.take n) = .ok (c', isRead, turn)) :
    ∃ b, d.step codec = .ok (⟨c', b⟩, turn) ∧ (⟨c', b⟩ : Decoder Cache Manifest).Ready ∧
      b.pending = d.byteChunks.pending.drop (if isRead then n else 0) ∧
      b.numRead = d.byteChunks.numRead + if isRead then n else 0 := by
  obtain ⟨b, hread, hpending, hfilled, hb, hnum⟩ := tryRead_of_le h.wellFilled
    (h.readyFor n hneed) (.inl (by omega)) (Nat.le_of_not_lt hlen)
  have hready : ∀ c' : Control Cache Manifest, (⟨c', b⟩ : Decoder Cache Manifest).Ready :=
    fun c' => ready_of_filled hfilled (by omega)
  by_cases hstate : d.state = .waitingForMessageHeader
  · have hneed' := hneed
    rw [hstate] at hneed'
    cases hneed'
    have htake : (d.byteChunks.pending.take MessageHeader.ENCODED_SIZE_BYTES).length =
        MessageHeader.ENCODED_SIZE_BYTES := by
      rw [length_take]
      omega
    unfold look at hlook
    rw [hstate] at hlook
    dsimp only at hlook
    have hstep : d.step codec = if isRead then .ok (⟨c', b⟩, turn) else .ok (⟨c', d.byteChunks⟩, turn) := by
      unfold step
      rw [hstate]
      rw [peek_eq h hstate, if_pos htake, hlook, hread]
      rfl
    cases isRead with
    | true => exact ⟨b, hstep, hready c', hpending, hnum⟩
    | false =>
      refine ⟨d.byteChunks, hstep, ?_, rfl, rfl⟩
      exact ready_of_filled (h.peekable hstate) h.bufferLen_le
  · have hisRead : isRead = true := by
      unfold look at hlook
      split at hlook
      case h_1 =>
        cases hr : (d.onStreamHeader (d.byteChunks.numRead == 0) (d.byteChunks.pending.take n) :
            Except Panic (Control Cache Manifest × Turn Msg)) <;> simp [hr, Except.map] at hlook
        exact hlook.2.1
      case h_2 hd => exact absurd hd hstate
      case h_3 header _ =>
        cases hr : d.onMessagePayload codec header (d.byteChunks.pending.take n) <;>
          simp [hr, Except.map] at hlook
        exact hlook.2.1
      case h_4 =>
        cases hr : (d.onStreamFooter (d.byteChunks.pending.take n) :
            Except Panic (Control Cache Manifest × Turn Msg)) <;> simp [hr, Except.map] at hlook
        exact hlook.2.1
      case h_5 hd =>
        rw [hd] at hneed
        cases hneed
    subst hisRead
    refine ⟨b, ?_, hready c', hpending, hnum⟩
    rw [step_of_read hstate hneed, hread]
    simp only [Except.bind, hlook]
    rfl

/-! ## A call refines a read of the machine -/

def answer? : Except CodecError (Option Msg) → Option (Except CodecError Msg)
  | .ok none => none
  | .ok (some message) => some (.ok message)
  | .error e => some (.error e)

def result? : Turn Msg → Option (Except CodecError (Option Msg))
  | .again => none
  | .ok message => some (.ok message)
  | .err (.storeIdMissingApplicationId _ _) => none
  | .err e => some (.error e)

theorem move_eq {σ : Type} (s : σ) (n : Nat) (turn : Turn Msg) : turn.move s n =
    match (result? turn).bind answer? with
    | none => .goOn s n
    | some r => .answer r s n := by
  cases turn with
  | again => rfl
  | ok message => cases message <;> rfl
  | err e => cases e <;> rfl

theorem tryReadWithin_of_step (h : d.step codec = .ok (d', turn)) (n : Nat) :
    tryReadWithin codec (n + 1) d = match result? turn with
      | none => tryReadWithin codec n d'
      | some r => .ok (d', r) := by
  rw [tryReadWithin, h]
  cases turn with
  | again => rfl
  | ok message => rfl
  | err e => cases e <;> rfl

/-- A result of a call and the decoder after it are what the machine gives. -/
def Refines (r : Except Panic (Decoder Cache Manifest × Except CodecError (Option Msg)))
    (m : Option (Except CodecError Msg) × Standing (Control Cache Manifest × Nat) UInt8 Panic) : Prop :=
  match r with
  | .error p => m = (none, .broken p)
  | .ok (d, r) => d.Ready ∧ m = (answer? r, .on d.place d.byteChunks.pending)

theorem readWithin_aborted (h : c.state = .aborted) (n : Nat) :
    (decoderMachine codec).readWithin n (c, k) x = (none, .on (c, k) x) := by
  have hmove : (decoderMachine codec).move (c, k) x = .wait :=
    move_of_need_none (by rw [h]; rfl)
  cases n with
  | zero => rfl
  | succ n => rw [readWithin, hmove]

theorem refines_of_turn {m : Nat} (h : d.Ready) (hneed : d.state.need = some n) (hcap : ¬ ISIZE_MAX < n)
    (hlen : ¬ d.byteChunks.pending.length < n)
    (hlook : d.toControl.look codec d.byteChunks.numRead (d.byteChunks.pending.take n) = .ok (c', isRead, turn))
    (ih : ∀ d' : Decoder Cache Manifest, d'.Ready →
      (decoderMachine codec).size d'.place d'.byteChunks.pending < (decoderMachine codec).size d.place d.byteChunks.pending →
      Refines (tryReadWithin codec m d') ((decoderMachine codec).readWithin m d'.place d'.byteChunks.pending)) :
    Refines (tryReadWithin codec (m + 1) d)
      ((decoderMachine codec).readWithin (m + 1) d.place d.byteChunks.pending) := by
  obtain ⟨b, hstep, hready, hpending, hnum⟩ := step_of_look h hneed hcap hlen hlook
  have hplace : (⟨c', b⟩ : Decoder Cache Manifest).place =
      (c', d.byteChunks.numRead + if isRead then n else 0) := by
    rw [place, hnum]
  have hmove : (decoderMachine codec).move d.place d.byteChunks.pending = _ :=
    (move_turn hneed hcap hlen hlook).trans (move_eq _ _ _)
  rw [tryReadWithin_of_step hstep, readWithin, hmove, ← hplace]
  cases hresult : result? turn with
  | none =>
    dsimp only [Option.bind]
    rw [← hpending]
    apply ih _ hready
    rw [hresult] at hmove
    have hlt := size_goOn hmove
    rwa [← hplace, ← hpending] at hlt
  | some r =>
    dsimp only [Option.bind]
    cases hanswer : answer? r with
    | some a =>
      dsimp only
      rw [← hpending]
      exact ⟨hready, by rw [hanswer]⟩
    | none =>
      -- the one way to return `None` on a whole frame is to give up
      have hturn : turn = .ok none := by
        cases turn with
        | again => cases hresult
        | ok message =>
          cases message with
          | none => rfl
          | some message =>
            cases hresult
            cases hanswer
        | err e => cases e <;> simp [result?] at hresult <;> (subst hresult; cases hanswer)
      subst hturn
      dsimp only
      rw [hplace, readWithin_aborted (look_none hlook), ← hplace, ← hpending]
      exact ⟨hready, by rw [hanswer]⟩

theorem tryReadWithin_refines : ∀ (m : Nat) (d : Decoder Cache Manifest), d.Ready →
    (decoderMachine codec).size d.place d.byteChunks.pending < m →
    Refines (tryReadWithin codec m d) ((decoderMachine codec).readWithin m d.place d.byteChunks.pending)
  | m + 1, d, h, hm => by
    cases hneed : d.state.need with
    | none =>
      have hstate : d.state = .aborted := by
        cases hd : d.state <;> rw [hd] at hneed <;> first | rfl | cases hneed
      have hstep : d.step codec = .ok (d, .ok none) := by
        unfold step
        rw [hstate]
        rfl
      rw [tryReadWithin_of_step hstep, place, readWithin_aborted hstate]
      exact ⟨h, rfl⟩
    | some n =>
      by_cases hcap : ISIZE_MAX < n
      · have hmove : (decoderMachine codec).move d.place d.byteChunks.pending = .breakDown .capacityOverflow := by
          show move codec (d.toControl, d.byteChunks.numRead) _ = _
          rw [move_of_need hneed, if_pos hcap]
        rw [tryReadWithin, step_of_capacity h hneed hcap, readWithin, hmove]
        rfl
      · by_cases hlen : d.byteChunks.pending.length < n
        · have hmove : (decoderMachine codec).move d.place d.byteChunks.pending = .wait := by
            show move codec (d.toControl, d.byteChunks.numRead) _ = _
            rw [move_of_need hneed, if_neg hcap, if_pos hlen]
          obtain ⟨b, hstep, hready, hpending, hnum⟩ := step_of_lt h hneed hcap hlen
          rw [tryReadWithin_of_step hstep, readWithin, hmove]
          refine ⟨hready, ?_⟩
          rw [place, place, hnum, hpending]
          rfl
        · cases hlook : d.toControl.look codec d.byteChunks.numRead (d.byteChunks.pending.take n) with
          | error p =>
            have hmove : (decoderMachine codec).move d.place d.byteChunks.pending = .breakDown p := by
              show move codec (d.toControl, d.byteChunks.numRead) _ = _
              rw [move_of_need hneed, if_neg hcap, if_neg hlen, hlook]
            rw [tryReadWithin, step_of_look_error h hneed hcap hlen hlook, readWithin, hmove]
            rfl
          | ok r =>
            obtain ⟨c', isRead, turn⟩ := r
            apply refines_of_turn h hneed hcap hlen hlook
            intro d' hready hlt
            exact tryReadWithin_refines m d' hready (by omega)

theorem size_lt_fuel (codec : Codec Msg Cache Manifest) (d : Decoder Cache Manifest) :
    (decoderMachine codec).size d.place d.byteChunks.pending < d.fuel := by
  have hrank : (decoderMachine codec).rank d.place ≤ 3 := d.state.rank_le
  have hweight : (decoderMachine codec).weight = 4 := rfl
  unfold size fuel
  rw [hweight]
  omega

theorem tryRead_refines (codec : Codec Msg Cache Manifest) (h : d.Ready) :
    Refines (d.tryRead codec) ((decoderMachine codec).read d.place d.byteChunks.pending) := by
  have hrefines := tryReadWithin_refines d.fuel d h (size_lt_fuel codec d)
  rwa [readWithin_of_lt (size_lt_fuel codec d) (Nat.lt_succ_self _)] at hrefines

/-! ## Any order of pushes and reads -/

section

variable (codec : Codec Msg Cache Manifest)

/-- The results of some calls that are not `None`, and the decoder after them. A panic ends them. -/
def calls : Decoder Cache Manifest → List (Machine.Op UInt8) →
    List (Except CodecError Msg) × Except Panic (Decoder Cache Manifest)
  | d, [] => ([], .ok d)
  | d, .push chunk :: ops => calls (d.pushByteChunk chunk) ops
  | d, .read :: ops =>
    match d.tryRead codec with
    | .error p => ([], .error p)
    | .ok (d', r) => ((answer? r).toList ++ (calls d' ops).1, (calls d' ops).2)

/-- At most `n` calls of `try_read`, up to the first `None`. -/
def readAllWithin : Nat → Decoder Cache Manifest →
    List (Except CodecError Msg) × Except Panic (Decoder Cache Manifest)
  | 0, d => ([], .ok d)
  | n + 1, d =>
    match d.tryRead codec with
    | .error p => ([], .error p)
    | .ok (d', r) =>
      match answer? r with
      | none => ([], .ok d')
      | some a => (a :: (readAllWithin n d').1, (readAllWithin n d').2)

def readAll (d : Decoder Cache Manifest) : List (Except CodecError Msg) × Except Panic (Decoder Cache Manifest) :=
  readAllWithin codec d.fuel d

def readRest : Except Panic (Decoder Cache Manifest) →
    List (Except CodecError Msg) × Except Panic (Decoder Cache Manifest)
  | .ok d => readAll codec d
  | .error p => ([], .error p)

end

def standing : Except Panic (Decoder Cache Manifest) → Standing (Control Cache Manifest × Nat) UInt8 Panic
  | .ok d => .on d.place d.byteChunks.pending
  | .error p => .broken p

theorem calls_refines (codec : Codec Msg Cache Manifest) : ∀ (ops : List (Machine.Op UInt8)) (d : Decoder Cache Manifest), d.Ready →
    (∀ d', (calls codec d ops).2 = .ok d' → d'.Ready) ∧
      (decoderMachine codec).calls (.on d.place d.byteChunks.pending) ops =
        ((calls codec d ops).1, standing (calls codec d ops).2)
  | [], d, h => by
    refine ⟨?_, rfl⟩
    intro d' hd'
    cases hd'
    exact h
  | .push chunk :: ops, d, h => by
    have ih := calls_refines codec ops (d.pushByteChunk chunk) (h.push chunk)
    rw [pushByteChunk_place, pushByteChunk_pending] at ih
    exact ih
  | .read :: ops, d, h => by
    have hrefines := tryRead_refines codec h
    rw [calls]
    cases hread : d.tryRead codec with
    | error p =>
      rw [hread] at hrefines
      refine ⟨?_, ?_⟩
      · intro d' hd'
        cases hd'
      · rw [Machine.calls, Machine.call, hrefines, rest_calls_broken]
        rfl
    | ok result =>
      obtain ⟨d', r⟩ := result
      rw [hread] at hrefines
      obtain ⟨hready, heq⟩ := hrefines
      obtain ⟨ih, ihc⟩ := calls_refines codec ops d' hready
      refine ⟨ih, ?_⟩
      rw [Machine.calls, Machine.call, heq, ihc]

theorem readAllWithin_refines : ∀ (n : Nat) (d : Decoder Cache Manifest), d.Ready →
    (decoderMachine codec).size d.place d.byteChunks.pending < n →
    (∀ d', (readAllWithin codec n d).2 = .ok d' → d'.Ready) ∧
      (decoderMachine codec).drain d.place d.byteChunks.pending =
        ((readAllWithin codec n d).1, standing (readAllWithin codec n d).2)
  | n + 1, d, h, hn => by
    have hrefines := tryRead_refines codec h
    have hdrain := (decoderMachine codec).rest_read [] d.place d.byteChunks.pending
    rw [append_nil, Standing.push_nil] at hdrain
    rw [readAllWithin]
    cases hread : d.tryRead codec with
    | error p =>
      rw [hread] at hrefines
      refine ⟨?_, ?_⟩
      · intro d' hd'
        cases hd'
      · rw [hdrain, hrefines]
        rfl
    | ok result =>
      obtain ⟨d', r⟩ := result
      rw [hread] at hrefines
      obtain ⟨hready, heq⟩ := hrefines
      dsimp only
      cases hanswer : answer? r with
      | none =>
        refine ⟨?_, ?_⟩
        · intro d'' hd''
          cases hd''
          exact hready
        · have hnone := (decoderMachine codec).rest_of_read_none d.place d.byteChunks.pending
            (by rw [heq]; exact hanswer)
          rw [hdrain, hnone, heq, hanswer]
          rfl
      | some a =>
        obtain ⟨s', x', hon, hlt⟩ := (decoderMachine codec).size_of_read_some
          d.place d.byteChunks.pending (by rw [heq]; exact hanswer)
        rw [heq] at hon
        obtain ⟨rfl, rfl⟩ := Standing.on.inj hon
        obtain ⟨ih, ihd⟩ := readAllWithin_refines n d' hready (by omega)
        refine ⟨ih, ?_⟩
        rw [hdrain, heq, hanswer]
        simp [Machine.rest, ihd, Option.toList]

theorem readAll_refines (codec : Codec Msg Cache Manifest) (h : d.Ready) : (∀ d', (readAll codec d).2 = .ok d' → d'.Ready) ∧
    (decoderMachine codec).drain d.place d.byteChunks.pending =
      ((readAll codec d).1, standing (readAll codec d).2) :=
  readAllWithin_refines d.fuel d h (size_lt_fuel codec d)

theorem tryRead_of_readAll (h : d.Ready) (hd' : (readAll codec d).2 = .ok d') :
    ∃ d'', d'.tryRead codec = .ok (d'', .ok none) := by
  obtain ⟨hready, heq⟩ := readAll_refines codec h
  have hmove : (decoderMachine codec).move d'.place d'.byteChunks.pending = .wait := by
    apply move_of_drain d.place d.byteChunks.pending
    rw [heq, hd']
    rfl
  have hrefines := tryRead_refines codec (hready d' hd')
  rw [read_eq, hmove] at hrefines
  cases hread : d'.tryRead codec with
  | error p =>
    rw [hread] at hrefines
    cases hrefines
  | ok result =>
    obtain ⟨d'', r⟩ := result
    rw [hread] at hrefines
    have hanswer : none = answer? r := (Prod.mk.inj hrefines.2).1
    refine ⟨d'', ?_⟩
    cases r with
    | error e => cases hanswer
    | ok message =>
      cases message with
      | none => rfl
      | some message => cases hanswer

theorem readRest_refines {r : Except Panic (Decoder Cache Manifest)} (h : ∀ d, r = .ok d → d.Ready) :
    (decoderMachine codec).rest (standing r) = ((readRest codec r).1, standing (readRest codec r).2) := by
  cases r with
  | error p => rfl
  | ok d => exact (readAll_refines codec (h d rfl)).2

theorem readAll_eq_calls (codec : Codec Msg Cache Manifest) (cache : Cache) (ops : List (Machine.Op UInt8)) :
    (calls codec (new cache) ops).1 ++ (readRest codec (calls codec (new cache) ops).2).1 =
        (readAll codec ((new cache).pushByteChunk (Machine.pushed ops))).1 ∧
      standing (readRest codec (calls codec (new cache) ops).2).2 =
        standing (readAll codec ((new cache).pushByteChunk (Machine.pushed ops))).2 := by
  obtain ⟨hready, hcalls⟩ := calls_refines codec ops _ (ready_new cache)
  have hwhole := (readAll_refines codec ((ready_new cache).push (pushed ops))).2
  have hdrain := (decoderMachine codec).drain_eq_calls ops (new cache).place []
  have hnew : (new cache : Decoder Cache Manifest).byteChunks.pending = [] := rfl
  rw [hnew] at hcalls
  rw [hcalls, readRest_refines hready] at hdrain
  rw [pushByteChunk_place, pushByteChunk_pending, hnew, hdrain] at hwhole
  exact Prod.mk.inj hwhole

/-- Chunking invariance. The results of any calls are those of one big chunk, for as long as calls are
made; the buffer behind it returns the bytes in the order they were pushed in, and a peek that sees as
many bytes as it asks for sees what the next read returns. -/
theorem tryRead_chunking_invariant (codec : Codec Msg Cache Manifest) (cache : Cache) :
    (∀ ops : List (Machine.Op UInt8),
      (calls codec (new cache) ops).1 ++ (readRest codec (calls codec (new cache) ops).2).1 =
          (readAll codec ((new cache).pushByteChunk (Machine.pushed ops))).1 ∧
        standing (readRest codec (calls codec (new cache) ops).2).2 =
          standing (readAll codec ((new cache).pushByteChunk (Machine.pushed ops))).2 ∧
        ∀ d, (readRest codec (calls codec (new cache) ops).2).2 = .ok d →
          ∃ d', d.tryRead codec = .ok (d', .ok none)) ∧
    (∀ (ops : List ByteChunkBuffer.Op) (out : Bytes) (b : ByteChunkBuffer),
      ByteChunkBuffer.new.calls ops = .ok (out, b) → out ++ b.pending = ByteChunkBuffer.pushed ops) ∧
    ∀ (ops : List ByteChunkBuffer.Op) (out : Bytes) (b : ByteChunkBuffer) (n : Nat)
      (r : Option Bytes × ByteChunkBuffer), ByteChunkBuffer.new.calls ops = .ok (out, b) →
      (b.tryPeek n).length = n → b.tryRead n = .ok r → r.1 = some (b.tryPeek n) := by
  have hnew : ByteChunkBuffer.new.WellFilled := fun h => absurd rfl h
  refine ⟨?_, ?_, ?_⟩
  · intro ops
    obtain ⟨hresults, hend⟩ := readAll_eq_calls codec cache ops
    refine ⟨hresults, hend, ?_⟩
    intro d hd
    obtain ⟨hready, -⟩ := calls_refines codec ops _ (ready_new cache)
    cases hcalls : (calls codec (new cache) ops).2 with
    | error p =>
      rw [hcalls] at hd
      cases hd
    | ok d₁ =>
      rw [hcalls] at hd
      exact tryRead_of_readAll (hready d₁ hcalls) hd
  · intro ops out b h
    exact (calls_fifo hnew h).2
  · intro ops out b n r h hpeek hread
    exact tryRead_of_tryPeek (calls_fifo hnew h).1 hpeek hread

/-- Two chunks, and a read across them. -/
theorem tryRead_chunking_invariant_twoChunks :
    ByteChunkBuffer.new.calls [.push [1], .push [2, 3], .tryRead 2] = .ok ([1, 2], ⟨[[3]], 0, [], 2⟩) ∧
      [1, 2] ++ ByteChunkBuffer.pending ⟨[[3]], 0, [], 2⟩ = [1, 2, 3] ∧
      ByteChunkBuffer.tryRead ⟨[[3]], 0, [], 2⟩ 1 = .ok (some [3], ⟨[], 0, [], 3⟩) ∧
      some [3] = some (ByteChunkBuffer.tryPeek ⟨[[3]], 0, [], 2⟩ 1) := by
  have h := tryRead_chunking_invariant Codec.plain ()
  refine ⟨rfl, ?_, rfl, ?_⟩
  · exact h.2.1 [.push [1], .push [2, 3], .tryRead 2] _ _ rfl
  · exact h.2.2 [.push [1], .push [2, 3], .tryRead 2] _ _ 1 (some [3], ⟨[], 0, [], 3⟩) rfl rfl rfl

end Decoder

end Dalaran
