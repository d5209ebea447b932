import Dalaran.Dlr.Decoder

/-
  The payloads of a `LogMsg` decoder (`transport_to_app.rs`).

  An Arrow message can be compressed. It then says how long its data is without
  compression, and a buffer of that length is made before a byte of the data is
  looked at. The length is as little checked as that of a payload.

  Protobuf, LZ4 and Arrow IPC are parameters, and so are the conversions of what
  they read: the Sorbet migrations and the store id of an Arrow message, and the
  messages of the other kinds.

  Correspondence (Rust ↔ Lean):
    `decode_arrow`, up to its IPC reader ↔ `TransportArrowMsg.decompress`
    `arrow_msg_transport_to_app` ↔ `Payloads.arrowMsgTransportToApp`
-/

namespace Dalaran

/-- A transport-level `ArrowMsg`, as far as it is decompressed. -/
structure TransportArrowMsg where
  isArrowIpc : Bool
  compression : Compression
  uncompressedSize : UInt64
  payload : Bytes
  deriving DecidableEq

namespace TransportArrowMsg

variable (lz4 : Bytes → Nat → Except CodecError Bytes) (m : TransportArrowMsg)

/-- `uncompressed.resize(..)`, then `decompress_into`. -/
def decompress : Except Fault Bytes :=
  match m.compression with
  | .off => .ok m.payload
  | .lz4 =>
    if ISIZE_MAX < m.uncompressedSize.toNat then .error (.panic .capacityOverflow)
    else (lz4 m.payload m.uncompressedSize.toNat).mapError .err

/-- A compressed message that says it is longer than any `Vec`. -/
def Oversized : Prop := m.isArrowIpc ∧ m.compression = .lz4 ∧ ISIZE_MAX < m.uncompressedSize.toNat

instance : Decidable m.Oversized := inferInstanceAs (Decidable (_ ∧ _))

variable {lz4 m}

theorem decompress_noPanic_iff :
    NoPanic (m.decompress lz4) ↔ ¬ (m.compression = .lz4 ∧ ISIZE_MAX < m.uncompressedSize.toNat) := by
  unfold decompress NoPanic
  cases m.compression with
  | off => simp
  | lz4 =>
    by_cases hsize : ISIZE_MAX < m.uncompressedSize.toNat
    · simp [hsize]
    · cases lz4 m.payload m.uncompressedSize.toNat <;> simp [hsize, Except.mapError]

end TransportArrowMsg

/-- What payloads are decoded with. -/
structure Payloads (Msg Cache Manifest : Type) where
  transportArrowMsg : Bytes → Except CodecError TransportArrowMsg
  lz4 : Bytes → Nat → Except CodecError Bytes
  /-- From the data of an Arrow message, and from the message for its store id. -/
  arrowMsg : Cache → Bytes → Bytes → Except Fault (Msg × Cache)
  otherMsg : Cache → Option CrateVersion → MessageKind → Bytes → Except Fault (Msg × Cache)
  footer : Bytes → Except CodecError (List Manifest)

variable {Msg Cache Manifest : Type} (P : Payloads Msg Cache Manifest)

namespace Payloads

def arrowMsgTransportToApp (m : TransportArrowMsg) : Except Fault Bytes :=
  if m.isArrowIpc then m.decompress P.lz4
  else .error (.err (.payload "Unsupported encoding, expected Arrow IPC"))

def codec : Codec Msg Cache Manifest where
  decode := fun cache version kind bytes =>
    if kind = .arrowMsg then
      match P.transportArrowMsg bytes with
      | .error e => .error (.err e)
      | .ok m => do
        let data ← P.arrowMsgTransportToApp m
        P.arrowMsg cache bytes data
    else P.otherMsg cache version kind bytes
  decodeFooter := P.footer

/-- The conversions of what was read return. -/
structure Returns : Prop where
  arrowMsg : ∀ cache bytes data, NoPanic (P.arrowMsg cache bytes data)
  otherMsg : ∀ cache version kind bytes, NoPanic (P.otherMsg cache version kind bytes)

variable {P}

theorem arrowMsgTransportToApp_noPanic_iff {m : TransportArrowMsg} :
    NoPanic (P.arrowMsgTransportToApp m) ↔ ¬ m.Oversized := by
  unfold arrowMsgTransportToApp TransportArrowMsg.Oversized
  cases m.isArrowIpc with
  | false => simp [NoPanic]
  | true => simp [TransportArrowMsg.decompress_noPanic_iff]

theorem decode_noPanic_iff (h : P.Returns) {cache : Cache} {version : Option CrateVersion} {kind : MessageKind}
    {bytes : Bytes} : NoPanic (P.codec.decode cache version kind bytes) ↔
      (kind = .arrowMsg → ∀ m, P.transportArrowMsg bytes = .ok m → ¬ m.Oversized) := by
  unfold codec
  dsimp only
  by_cases hkind : kind = .arrowMsg
  · rw [if_pos hkind]
    cases hm : P.transportArrowMsg bytes with
    | error e => simp [NoPanic]
    | ok m =>
      have hiff := @arrowMsgTransportToApp_noPanic_iff _ _ _ P m
      cases hdata : P.arrowMsgTransportToApp m with
      | error fault =>
        simpa [NoPanic, bind, Except.bind, hdata, hkind] using hiff
      | ok data =>
        have hsize : ¬ m.Oversized := hiff.mp (by rw [hdata]; exact fun p hp => by cases hp)
        have hreturns := h.arrowMsg cache bytes data
        simpa [bind, Except.bind, hdata, hkind, hsize] using hreturns
  · rw [if_neg hkind]
    exact ⟨fun _ h => absurd h hkind, fun _ => h.otherMsg cache version kind bytes⟩

end Payloads

end Dalaran
