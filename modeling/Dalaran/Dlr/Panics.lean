import Dalaran.Dlr.Chunking
import Dalaran.Dlr.Payloads

/-
  When decoding panics.

  Lengths and counts come out of the bytes. Three of them are used before anything
  checks them: the length of a payload and that of the data a compressed payload
  stands for, for which a `Vec` is resized, and the number of entries of a stream
  footer, whose window has room for one. The end of that entry's span is an
  unchecked addition. A byte string that reads without such a frame is decoded
  without a panic, in whatever pieces it comes (`calls_noPanic_iff`).
-/

namespace Dalaran

open Reader LittleEndian List StreamFooter Machine Control

variable {Msg Cache Manifest : Type}

/-- A stream footer that announces at most one entry, one whose span ends within `u64`. -/
def StreamFooter.Sound (frame : Bytes) : Prop :=
  Marked frame → numDlrFooters frame ≤ 1 ∧ (numDlrFooters frame = 1 →
    (u64FromLe (frame.take 8)).toNat + (u64FromLe ((frame.drop 8).take 8)).toNat < 18446744073709551616)

/-- Decoding a payload does not panic. -/
def Control.Returns (codec : Codec Msg Cache Manifest) (c : Control Cache Manifest) (header : MessageHeader)
    (payload : Bytes) : Prop :=
  header.kind ≠ .end → NoPanic (codec.decode c.appIdCache c.version header.kind payload)

/-- The frame ahead of a decoder has nothing in it that panics. -/
def Control.Harmless (codec : Codec Msg Cache Manifest) (c : Control Cache Manifest) (x : Bytes) : Prop :=
  match c.state with
  | .waitingForMessagePayload header => header.len.toNat ≤ ISIZE_MAX ∧
    (header.len.toNat ≤ x.length → c.Returns codec header (x.take header.len.toNat))
  | .waitingForStreamFooter =>
    StreamFooter.ENCODED_SIZE_BYTES ≤ x.length → StreamFooter.Sound (x.take StreamFooter.ENCODED_SIZE_BYTES)
  | _ => True

/-! ## One frame -/

variable {codec : Codec Msg Cache Manifest} {c : Control Cache Manifest} {k : Nat} {x : Bytes}

theorem Control.onStreamHeader_ok (isFirstHeader : Bool) (frame : Bytes) :
    ∃ r : Control Cache Manifest × Turn Msg, c.onStreamHeader isFirstHeader frame = .ok r := by
  unfold onStreamHeader
  cases hread : StreamHeader.fromDlrBytes frame with
  | error fault =>
    cases fault with
    | panic p => exact absurd hread (StreamHeader.fromDlrBytes_noPanic frame p)
    | err e =>
      dsimp only [Except.bind]
      split <;> exact ⟨_, rfl⟩
  | ok header =>
    dsimp only [Except.bind]
    cases hversion : header.toVersionAndOptions with
    | error fault =>
      cases fault with
      | panic p => exact absurd hversion (header.toVersionAndOptions_noPanic p)
      | err e =>
        dsimp only
        split <;> exact ⟨_, rfl⟩
    | ok version => exact ⟨_, rfl⟩

theorem Control.checkEntries_one (e : StreamFooterEntry) : (∃ p, checkEntries [e] = .error p) ↔
    ¬ e.dlrFooterByteSpanFromStartExcludingHeader.start.toNat +
      e.dlrFooterByteSpanFromStartExcludingHeader.len.toNat < 18446744073709551616 := by
  unfold checkEntries checkedAdd
  dsimp only
  by_cases hlt : e.dlrFooterByteSpanFromStartExcludingHeader.start.toNat +
      e.dlrFooterByteSpanFromStartExcludingHeader.len.toNat < 18446744073709551616
  · rw [if_pos hlt]
    simp [hlt, bind, Except.bind, checkEntries]
  · rw [if_neg hlt]
    simp [hlt, bind, Except.bind]

theorem Control.onStreamFooter_panic_iff {frame : Bytes} (hlen : frame.length = StreamFooter.ENCODED_SIZE_BYTES) :
    (∃ p, (c.onStreamFooter frame : Except Panic (Control Cache Manifest × Turn Msg)) = .error p) ↔
      ¬ StreamFooter.Sound frame := by
  unfold onStreamFooter Sound
  by_cases hmarked : Marked frame
  · have hwindow : frame.drop (frame.length - StreamFooter.ENCODED_SIZE_BYTES) = frame := by
      rw [hlen, Nat.sub_self, drop_zero]
    rw [fromDlrBytes_of_marked hmarked, hwindow]
    by_cases htwo : 2 ≤ numDlrFooters frame
    · rw [readEntries_of_two_le hlen htwo]
      refine ⟨fun _ hsound => absurd (hsound hmarked).1 (by omega), fun _ => ⟨_, rfl⟩⟩
    · have hcases : numDlrFooters frame = 0 ∨ numDlrFooters frame = 1 := by omega
      rcases hcases with h0 | h1
      · rw [h0]
        simp [readEntries, Except.map, pure, Except.pure, checkEntries, bind, Except.bind]
      · rw [h1, readEntries_one hlen]
        have hcheck := checkEntries_one ⟨⟨u64FromLe (frame.take 8), u64FromLe ((frame.drop 8).take 8)⟩,
          u32FromLe ((frame.drop 16).take 4)⟩
        simp only [Except.map]
        cases hentries : checkEntries [⟨⟨u64FromLe (frame.take 8), u64FromLe ((frame.drop 8).take 8)⟩,
            u32FromLe ((frame.drop 16).take 4)⟩] with
        | error p =>
          have hover := hcheck.mp ⟨p, hentries⟩
          refine ⟨fun _ hsound => hover ((hsound hmarked).2 trivial), fun _ => ⟨p, rfl⟩⟩
        | ok u =>
          have hfits : (u64FromLe (frame.take 8)).toNat +
              (u64FromLe ((frame.drop 8).take 8)).toNat < 18446744073709551616 := by
            by_contra hover
            obtain ⟨p, hp⟩ := hcheck.mpr hover
            rw [hentries] at hp
            cases hp
          refine ⟨fun h => ?_, fun h => absurd (fun _ => ⟨Nat.le_refl 1, fun _ => hfits⟩) h⟩
          obtain ⟨p, hp⟩ := h
          cases hp
  · obtain ⟨text, htext⟩ := fromDlrBytes_of_not_marked hmarked
    rw [htext]
    refine ⟨fun h => ?_, fun h => absurd (fun hm => absurd hm hmarked) h⟩
    obtain ⟨p, hp⟩ := h
    cases hp

theorem Control.onMessagePayload_panic_iff {header : MessageHeader} {payload : Bytes} :
    (∃ p, c.onMessagePayload codec header payload = .error p) ↔ ¬ c.Returns codec header payload := by
  unfold onMessagePayload Returns
  by_cases hkind : header.kind = .end
  · rw [if_pos hkind]
    refine ⟨fun h => ?_, fun h => absurd (fun hne => absurd hkind hne) h⟩
    obtain ⟨p, hp⟩ := h
    split at hp
    · cases hp
    · split at hp <;> cases hp
  · rw [if_neg hkind]
    cases codec.decode c.appIdCache c.version header.kind payload with
    | error fault => cases fault <;> simp [NoPanic, hkind]
    | ok r => simp [NoPanic]

theorem Payloads.returns_iff (P : Payloads Msg Cache Manifest) (h : P.Returns) {header : MessageHeader}
    {payload : Bytes} : c.Returns P.codec header payload ↔
      (header.kind = .arrowMsg → ∀ m, P.transportArrowMsg payload = .ok m → ¬ m.Oversized) := by
  rw [← decode_noPanic_iff h]
  refine ⟨fun hreturns => ?_, fun hok _ => hok⟩
  by_cases hkind : header.kind = .end
  · exact (decode_noPanic_iff h).mpr fun harrow => absurd (hkind.symm.trans harrow) (by decide)
  · exact hreturns hkind

theorem Turn.move_ne_breakDown {σ : Type} {s : σ} {n : Nat} {turn : Turn Msg} {p : Panic} :
    turn.move s n ≠ .breakDown p := by
  intro h
  unfold Turn.move at h
  split at h <;> cases h

/-- The two ways to panic: no room for a frame, or a frame that is looked at. -/
theorem Control.move_breakDown_of_need {n : Nat} (hneed : c.state.need = some n) :
    (∃ p, Control.move codec (c, k) x = .breakDown p) ↔
      ISIZE_MAX < n ∨ ¬ x.length < n ∧ ∃ p, c.look codec k (x.take n) = .error p := by
  rw [move_of_need hneed]
  by_cases hcap : ISIZE_MAX < n
  · rw [if_pos hcap]
    exact ⟨fun _ => .inl hcap, fun _ => ⟨_, rfl⟩⟩
  · rw [if_neg hcap]
    by_cases hlen : x.length < n
    · rw [if_pos hlen]
      simp [hcap, hlen]
    · rw [if_neg hlen]
      cases hlook : c.look codec k (x.take n) with
      | error p => exact ⟨fun _ => .inr ⟨hlen, p, rfl⟩, fun _ => ⟨p, rfl⟩⟩
      | ok r =>
        obtain ⟨c', isRead, turn⟩ := r
        refine ⟨fun h => ?_, fun h => ?_⟩
        · obtain ⟨p, hp⟩ := h
          cases isRead with
          | true => exact absurd hp Turn.move_ne_breakDown
          | false => exact absurd hp Turn.move_ne_breakDown
        · rcases h with h | ⟨-, p, hp⟩
          · exact absurd h hcap
          · cases hp

theorem Control.move_breakDown_iff : (∃ p, Control.move codec (c, k) x = .breakDown p) ↔ ¬ c.Harmless codec x := by
  unfold Harmless
  cases hstate : c.state with
  | aborted =>
    have hneed : c.state.need = none := by rw [hstate]; rfl
    rw [move_of_need_none hneed]
    simp
  | waitingForStreamHeader =>
    obtain ⟨r, hr⟩ := @onStreamHeader_ok Msg Cache Manifest c (k == 0) (x.take StreamHeader.ENCODED_SIZE_BYTES)
    rw [move_breakDown_of_need (by rw [hstate]; rfl : c.state.need = some StreamHeader.ENCODED_SIZE_BYTES)]
    unfold look
    rw [hstate]
    rw [hr]
    simp [Except.map, ISIZE_MAX, StreamHeader.ENCODED_SIZE_BYTES]
  | waitingForMessageHeader =>
    rw [move_breakDown_of_need (by rw [hstate]; rfl : c.state.need = some MessageHeader.ENCODED_SIZE_BYTES)]
    refine ⟨fun h => ?_, fun h => absurd trivial h⟩
    rcases h with h | ⟨hlen, p, hp⟩
    · exact absurd h (by decide)
    · obtain ⟨r, hr⟩ := @onMessageHeader_ok Msg Cache Manifest c (x.take MessageHeader.ENCODED_SIZE_BYTES)
        (by rw [length_take]; omega)
      unfold look at hp
      rw [hstate] at hp
      rw [hr] at hp
      cases hp
  | waitingForMessagePayload header =>
    rw [move_breakDown_of_need (by rw [hstate]; rfl : c.state.need = some header.len.toNat)]
    have hlook : (∃ p, c.look codec k (x.take header.len.toNat) = .error p) ↔
        ¬ c.Returns codec header (x.take header.len.toNat) := by
      rw [← onMessagePayload_panic_iff]
      unfold look
      rw [hstate]
      dsimp only
      cases c.onMessagePayload codec header (x.take header.len.toNat) <;> simp [Except.map]
    rw [hlook, not_and_or, Nat.not_le, Classical.not_imp, Nat.not_lt]
  | waitingForStreamFooter =>
    rw [move_breakDown_of_need (by rw [hstate]; rfl : c.state.need = some StreamFooter.ENCODED_SIZE_BYTES)]
    by_cases hlen : x.length < StreamFooter.ENCODED_SIZE_BYTES
    · refine ⟨fun h => ?_, fun h => absurd (fun hle => absurd hle (by omega)) h⟩
      rcases h with h | ⟨hle, -⟩
      · exact absurd h (by decide)
      · exact absurd hlen hle
    · have htake : (x.take StreamFooter.ENCODED_SIZE_BYTES).length = StreamFooter.ENCODED_SIZE_BYTES := by
        rw [length_take]
        omega
      have hlook : (∃ p, c.look codec k (x.take StreamFooter.ENCODED_SIZE_BYTES) = .error p) ↔
          ∃ p, (c.onStreamFooter (x.take StreamFooter.ENCODED_SIZE_BYTES) :
            Except Panic (Control Cache Manifest × Turn Msg)) = .error p := by
        unfold look
        rw [hstate]
        cases c.onStreamFooter (x.take StreamFooter.ENCODED_SIZE_BYTES) <;> simp [Except.map]
      rw [hlook, onStreamFooter_panic_iff htake]
      refine ⟨fun h => ?_, fun h => .inr ⟨hlen, fun hsound => h fun _ => hsound⟩⟩
      rcases h with h | ⟨-, h⟩
      · exact absurd h (by decide)
      · exact fun hsound => h (hsound (Nat.le_of_not_lt hlen))

/-! ## The bytes read are bytes pushed -/

variable {s s' : Control Cache Manifest × Nat}

theorem Control.move_numRead {n : Nat}
    (h : Control.move codec s x = .goOn s' n ∨ ∃ r, Control.move codec s x = .answer r s' n) : s'.2 = s.2 + n := by
  obtain ⟨m, c', isRead, turn, -, -, -, rfl, rfl⟩ := move_moved h
  rfl

namespace Decoder

theorem numRead_of_read (s : Control Cache Manifest × Nat) (x : Bytes) {x' : Bytes}
    (h : ((decoderMachine codec).read s x).2 = .on s' x') :
    s'.2 + x'.length = s.2 + x.length := by
  induction s, x using (decoderMachine codec).induct with
  | h s x hgoOn hanswer =>
    rw [read_eq] at h
    cases hmove : (decoderMachine codec).move s x with
    | wait =>
      rw [hmove] at h
      obtain ⟨rfl, rfl⟩ := Standing.on.inj h
      rfl
    | breakDown e =>
      rw [hmove] at h
      cases h
    | goOn s₁ n =>
      rw [hmove] at h
      have hle := ((decoderMachine codec).goOn_lt s x s₁ n hmove).1
      have hnum : s₁.2 = s.2 + n := move_numRead (.inl hmove)
      have ih := hgoOn s₁ n hmove h
      rw [length_drop] at ih
      omega
    | answer r s₁ n =>
      rw [hmove] at h
      have hle := ((decoderMachine codec).answer_lt s x r s₁ n hmove).1
      have hnum : s₁.2 = s.2 + n := move_numRead (.inr ⟨_, hmove⟩)
      obtain ⟨rfl, rfl⟩ := Standing.on.inj h
      rw [length_drop]
      omega

theorem numRead_of_calls : ∀ (ops : List (Machine.Op UInt8)) (s : Control Cache Manifest × Nat) (x : Bytes)
    {s' : Control Cache Manifest × Nat} {x' : Bytes},
    ((decoderMachine codec).calls (.on s x) ops).2 = .on s' x' →
      s'.2 + x'.length = s.2 + x.length + (Machine.pushed ops).length
  | [], s, x, s', x', h => by
    obtain ⟨rfl, rfl⟩ := Standing.on.inj h
    rfl
  | .push y :: ops, s, x, s', x', h => by
    rw [numRead_of_calls ops s (x ++ y) h, Machine.pushed, length_append, length_append]
    omega
  | .read :: ops, s, x, s', x', h => by
    rw [Machine.calls, Machine.call] at h
    cases hstand : ((decoderMachine codec).read s x).2 with
    | broken e =>
      rw [hstand, rest_calls_broken] at h
      cases h
    | on s₁ x₁ =>
      rw [hstand] at h
      have hread := numRead_of_read s x hstand
      have ih := numRead_of_calls ops s₁ x₁ h
      rw [Machine.pushed]
      omega

/-! ## Any order of pushes and reads -/

/-- A byte string, read frame by frame, has nothing in it that panics. -/
def HarmlessBytes (codec : Codec Msg Cache Manifest) (cache : Cache) (bytes : Bytes) : Prop :=
  ∀ out c k x, (decoderMachine codec).Path (Control.new cache, 0) bytes out (c, k) x → c.Harmless codec x

theorem calls_error_iff (codec : Codec Msg Cache Manifest) (cache : Cache) (bytes : Bytes) :
    (∃ ops p, Machine.pushed ops = bytes ∧ (calls codec (new cache) ops).2 = .error p) ↔
      ∃ p, ((decoderMachine codec).drain (Control.new cache, 0) bytes).2 = .broken p := by
  constructor
  · intro h
    obtain ⟨ops, p, rfl, hp⟩ := h
    obtain ⟨-, hcalls⟩ := calls_refines codec ops _ (ready_new cache)
    refine ⟨p, ?_⟩
    have hdrain := (decoderMachine codec).drain_eq_calls ops (Control.new cache, 0) []
    rw [nil_append] at hdrain
    rw [hdrain, show (decoderMachine codec).calls (.on (Control.new cache, 0) []) ops = _ from hcalls, hp]
    rfl
  · intro h
    obtain ⟨p, hp⟩ := h
    let m := (decoderMachine codec).size (Control.new cache, 0) bytes + 1
    refine ⟨.push bytes :: List.replicate m .read, p, ?_, ?_⟩
    · have hreads : ∀ n, Machine.pushed (List.replicate n (Machine.Op.read : Machine.Op UInt8)) = [] := by
        intro n
        induction n with
        | zero => rfl
        | succ n ih => exact ih
      rw [Machine.pushed, hreads, append_nil]
    · obtain ⟨-, hcalls⟩ := calls_refines codec (.push bytes :: List.replicate m .read) _ (ready_new cache)
      have hreads := (decoderMachine codec).calls_reads m (Control.new cache, 0) bytes (Nat.lt_succ_self _)
      have hstand : standing (calls codec (new cache) (.push bytes :: List.replicate m .read)).2 = .broken p := by
        rw [← hp, ← hreads]
        exact (congrArg Prod.snd hcalls).symm
      cases hend : (calls codec (new cache) (.push bytes :: List.replicate m .read)).2 with
      | error p' =>
        rw [hend] at hstand
        rw [Standing.broken.inj hstand]
      | ok d =>
        rw [hend] at hstand
        cases hstand

theorem calls_noPanic_iff (codec : Codec Msg Cache Manifest) (cache : Cache) (bytes : Bytes) :
    (∀ ops, Machine.pushed ops = bytes → ∀ p, (calls codec (new cache) ops).2 ≠ .error p) ↔
      HarmlessBytes codec cache bytes := by
  have hiff := calls_error_iff codec cache bytes
  constructor
  · intro hok out c k x hpath
    by_contra hharm
    obtain ⟨p, hp⟩ := (@Control.move_breakDown_iff _ _ _ codec c k x).mpr hharm
    obtain ⟨ops, p', hpushed, hpanic⟩ :=
      hiff.mpr ⟨p, (drain_broken_iff _ _ p).mpr ⟨out, (c, k), x, hpath, hp⟩⟩
    exact hok ops hpushed p' hpanic
  · intro hharm ops hpushed p hp
    obtain ⟨p', hp'⟩ := hiff.mp ⟨ops, p, hpushed, hp⟩
    obtain ⟨out, ⟨c, k⟩, x, hpath, hbreak⟩ := (drain_broken_iff _ _ p').mp hp'
    exact move_breakDown_iff.mp ⟨p', hbreak⟩ (hharm out c k x hpath)

def plainHeader : Bytes :=
  StreamHeader.toDlrBytes ⟨DLR_FOURCC, CrateVersion.LOCAL.toBytes, .PROTOBUF_UNCOMPRESSED⟩

def shortArrowMsg : Bytes := [16, 2, 24, 3, 32, 1, 42, 4, 48, 1, 2, 3]

def oversizedArrowMsg : Bytes := [16, 2, 24, 255, 255, 255, 255, 255, 255, 255, 255, 255, 1, 32, 1]

def wirePayloads : Payloads Bytes Unit Bytes where
  transportArrowMsg := fun bytes =>
    match bytes with
    | 16 :: 2 :: 24 :: size :: 32 :: 1 :: 42 :: _ :: data => .ok ⟨true, .lz4, size.toUInt64, data⟩
    | [16, 2, 24, 255, 255, 255, 255, 255, 255, 255, 255, 255, 1, 32, 1] =>
      .ok ⟨true, .lz4, 18446744073709551615, []⟩
    | _ => .error (.payload "failed to decode Protobuf message")
  lz4 := fun data size =>
    if data.head? = some (UInt8.ofNat (16 * size)) then .ok data.tail else .error (.payload "lz4 error")
  arrowMsg := fun _ _ _ => .error (.err (.payload "Arrow deserialization error"))
  otherMsg := fun _ _ _ bytes => .ok (bytes, ())
  footer := fun bytes => .ok [bytes]

theorem wirePayloads_returns : wirePayloads.Returns where
  arrowMsg := by
    intro cache bytes data p hp
    cases hp
  otherMsg := by
    intro cache version kind bytes p hp
    cases hp

/-- A stream with a compressed message, another message, an end and a footer, cut through a header and
through a payload. -/
def wholeStream : List (Machine.Op UInt8) :=
  [.push (plainHeader ++ (MessageHeader.toDlrBytes ⟨.arrowMsg, 12⟩).take 5), .read,
    .push ((MessageHeader.toDlrBytes ⟨.arrowMsg, 12⟩).drop 5 ++ shortArrowMsg.take 7), .read,
    .push (shortArrowMsg.drop 7 ++ MessageHeader.toDlrBytes ⟨.setStoreInfo, 1⟩ ++ [7]), .read, .read,
    .push (MessageHeader.toDlrBytes ⟨.end, 0⟩ ++
      StreamFooter.toDlrBytes ⟨DLR_FOURCC, StreamFooter.DLR_IDENTIFIER, [⟨⟨73, 0⟩, 0⟩]⟩ ++ [82]), .read]

/-- A footer of the right length that announces two entries. -/
def twoEntries : Bytes :=
  List.replicate 20 0 ++ DLR_FOURCC.toList ++ StreamFooter.DLR_IDENTIFIER.toList ++ u32ToLe 2

def endless : Bytes :=
  StreamFooter.toDlrBytes ⟨DLR_FOURCC, StreamFooter.DLR_IDENTIFIER, [⟨⟨18446744073709551615, 1⟩, 0⟩]⟩

def emptyStream (footer : Bytes) : Bytes := plainHeader ++ MessageHeader.toDlrBytes ⟨.end, 0⟩ ++ footer

def longMessage : Bytes := plainHeader ++ MessageHeader.toDlrBytes ⟨.arrowMsg, 18446744073709551615⟩

def longData : Bytes := plainHeader ++ MessageHeader.toDlrBytes ⟨.arrowMsg, 15⟩ ++ oversizedArrowMsg

end Decoder

end Dalaran
