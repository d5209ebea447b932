import Dalaran.Base.LittleEndian

/-
  The frames of a DLR stream (`frames.rs`, `errors.rs`, `crate_version.rs`).

  A stream is a `StreamHeader`, then messages, each behind a `MessageHeader`, and
  at the end an `End` message with a `StreamFooter` behind it. This module has the
  frames, how they are written and how they are read back.

  Code that indexes a slice can panic, so a reader returns a `Fault`: an error of
  the source's `CodecError`, or a panic. A slice `data[a..b]` of the source is
  `slice data a b` here, and panics outside of the data.

  Correspondence (Rust ↔ Lean):
    `CrateVersion`, its `Meta` ↔ `CrateVersion`, `Meta`; the commit hash, which no byte carries, is
      left out
    `dl_span::Span<u64>` ↔ `Span`
-/

namespace Dalaran

open LittleEndian List

abbrev Bytes := List UInt8

/-! ## Versions -/

/-- Pre-release metadata of a version. -/
inductive Meta where
  | rc (n : UInt8)
  | alpha (n : UInt8)
  | devAlpha (alpha : UInt8)
  deriving DecidableEq

def Meta.toByte : Meta → UInt8
  | .rc n => n ||| 0b01000000
  | .alpha n => n ||| 0b10000000
  | .devAlpha n => n ||| 0b11000000

def Meta.fromByte (b : UInt8) : Option Meta :=
  let tag := b &&& 0b11000000
  let value := b &&& 0b00111111
  if tag = 0b01000000 then some (.rc value)
  else if tag = 0b10000000 then some (.alpha value)
  else if tag = 0b11000000 then some (.devAlpha value)
  else none

structure FourBytes where
  b0 : UInt8
  b1 : UInt8
  b2 : UInt8
  b3 : UInt8
  deriving DecidableEq

def FourBytes.toList (b : FourBytes) : Bytes := [b.b0, b.b1, b.b2, b.b3]

structure CrateVersion where
  major : UInt8
  minor : UInt8
  patch : UInt8
  preRelease : Option Meta
  deriving DecidableEq

namespace CrateVersion

def LOCAL : CrateVersion := ⟨0, 1, 0, none⟩

def fromBytes (b : FourBytes) : CrateVersion := ⟨b.b0, b.b1, b.b2, Meta.fromByte b.b3⟩

def toBytes (v : CrateVersion) : FourBytes := ⟨v.major, v.minor, v.patch, (v.preRelease.map Meta.toByte).getD 0⟩

/-- Versions compare by their three numbers. -/
def before (a b : CrateVersion) : Bool :=
  decide (a.major < b.major) || (decide (a.major = b.major) &&
    (decide (a.minor < b.minor) || (decide (a.minor = b.minor) && decide (a.patch < b.patch))))

end CrateVersion

/-! ## Errors -/

inductive OptionsError where
  | unknownReservedBytes
  | unknownCompression (b : UInt8)
  | removedMsgPackSerializer
  | unknownSerializer (b : UInt8)
  deriving DecidableEq

/-- `CodecError`. The errors of the payload codecs (Arrow, Protobuf, LZ4, Sorbet, type conversions)
are `payload` with their text. -/
inductive CodecError where
  | invalidOptions (e : OptionsError)
  | incompatibleDalaranVersion (file localVersion : CrateVersion)
  | notAnRrd (expected actual : FourBytes)
  | oldRrdVersion
  | frameDecoding (text : String)
  | crcMismatch (expected got : UInt32)
  | storeIdMissingApplicationId (storeKind recordingId : String)
  | io (text : String)
  | payload (text : String)
  deriving DecidableEq

/-- How a call can panic. -/
inductive Panic where
  | sliceOutOfRange
  | expectFailed
  | addOverflow
  | capacityOverflow
  | assertFailed
  deriving DecidableEq

/-- How a call can fail. -/
inductive Fault where
  | panic (p : Panic)
  | err (e : CodecError)
  deriving DecidableEq

def slice (data : Bytes) (a b : Nat) : Except Fault Bytes :=
  if a ≤ b ∧ b ≤ data.length then .ok ((data.drop a).take (b - a)) else .error (.panic .sliceOutOfRange)

/-- `slice.try_into().expect(..)` into a `[u8; 4]`. -/
def toArray4 : Bytes → Except Fault FourBytes
  | [a, b, c, d] => .ok ⟨a, b, c, d⟩
  | _ => .error (.panic .expectFailed)

/-- `a + b` on `u64`, which panics on overflow where overflow is checked. -/
def checkedAdd (a b : UInt64) : Except Panic UInt64 :=
  if a.toNat + b.toNat < 18446744073709551616 then .ok (a + b) else .error .addOverflow

/-- How Rust prints a `[u8; 4]`. -/
def FourBytes.debug (b : FourBytes) : String := toString (b.toList.map UInt8.toNat)

/-- The four-character code of a DLR stream, `RRF2`. -/
def DLR_FOURCC : FourBytes := ⟨82, 82, 70, 50⟩

/-- The codes of old streams, `RRF0` and `RRF1`. -/
def OLD_DLR_FOURCC : List FourBytes := [⟨82, 82, 70, 48⟩, ⟨82, 82, 70, 49⟩]

/-! ## Stream headers -/

inductive Compression where
  | off
  | lz4
  deriving DecidableEq

inductive Serializer where
  | protobuf
  deriving DecidableEq

structure EncodingOptions where
  compression : Compression
  serializer : Serializer
  deriving DecidableEq

namespace EncodingOptions

def PROTOBUF_UNCOMPRESSED : EncodingOptions := ⟨.off, .protobuf⟩

def toDlrBytes (o : EncodingOptions) : Bytes :=
  [match o.compression with | .off => 0 | .lz4 => 1, match o.serializer with | .protobuf => 2, 0, 0]

def fromDlrBytes : Bytes → Except Fault EncodingOptions
  | [compression, serializer, 0, 0] => do
    let compression ←
      if compression = 0 then pure Compression.off
      else if compression = 1 then pure Compression.lz4
      else .error (.err (.invalidOptions (.unknownCompression compression)))
    let serializer ←
      if serializer = 1 then .error (.err (.invalidOptions .removedMsgPackSerializer))
      else if serializer = 2 then pure Serializer.protobuf
      else .error (.err (.invalidOptions (.unknownSerializer serializer)))
    pure ⟨compression, serializer⟩
  | _ => .error (.err (.invalidOptions .unknownReservedBytes))

end EncodingOptions

structure StreamHeader where
  fourcc : FourBytes
  version : FourBytes
  options : EncodingOptions
  deriving DecidableEq

namespace StreamHeader

def ENCODED_SIZE_BYTES : Nat := 12

def toDlrBytes (h : StreamHeader) : Bytes := h.fourcc.toList ++ h.version.toList ++ h.options.toDlrBytes

def fromDlrBytes (data : Bytes) : Except Fault StreamHeader := do
  if data.length ≠ ENCODED_SIZE_BYTES then
    let len := data.length
    .error (.err (.frameDecoding s!"invalid StreamHeader length (expected 12 but got {len})"))
  else
    let fourcc ← toArray4 (← slice data 0 4)
    -- the magic bytes are checked first
    if fourcc ∈ OLD_DLR_FOURCC then .error (.err .oldRrdVersion)
    else if fourcc ≠ DLR_FOURCC then .error (.err (.notAnRrd DLR_FOURCC fourcc))
    else
      let version ← toArray4 (← slice data 4 8)
      let options ← EncodingOptions.fromDlrBytes (← slice data 8 data.length)
      pure ⟨fourcc, version, options⟩

/-- Below 0.23 and newer than this build: only upstream can have written it. -/
def isAncientUpstreamFile (v : CrateVersion) : Bool :=
  decide (v.major = 0) && decide (v.minor < 23) && CrateVersion.LOCAL.before v

/-- The version and options of a stream, unless nothing here can read it. -/
def toVersionAndOptions (h : StreamHeader) : Except Fault (CrateVersion × EncodingOptions) :=
  let encodedVersion : CrateVersion :=
    if h.version = ⟨0, 0, 0, 0⟩ then ⟨0, 2, 0, none⟩ else .fromBytes h.version
  if isAncientUpstreamFile encodedVersion then
    .error (.err (.incompatibleDalaranVersion encodedVersion .LOCAL))
  else .ok (.fromBytes h.version, h.options)

end StreamHeader

/-! ## Stream footers -/

structure Span where
  start : UInt64
  len : UInt64
  deriving DecidableEq

structure StreamFooterEntry where
  dlrFooterByteSpanFromStartExcludingHeader : Span
  crcExcludingHeader : UInt32
  deriving DecidableEq

structure StreamFooter where
  fourcc : FourBytes
  identifier : FourBytes
  entries : List StreamFooterEntry
  deriving DecidableEq

namespace StreamFooter

def ENCODED_SIZE_BYTES_IGNORING_ENTRIES : Nat := 12

def ENCODED_SIZE_BYTES_SINGLE_ENTRY : Nat := 20

def ENCODED_SIZE_BYTES : Nat := ENCODED_SIZE_BYTES_IGNORING_ENTRIES + ENCODED_SIZE_BYTES_SINGLE_ENTRY

def DLR_IDENTIFIER : FourBytes := ⟨70, 79, 79, 84⟩

def entryBytes (e : StreamFooterEntry) : Bytes :=
  u64ToLe e.dlrFooterByteSpanFromStartExcludingHeader.start ++
    u64ToLe e.dlrFooterByteSpanFromStartExcludingHeader.len ++ u32ToLe e.crcExcludingHeader

/-- The entries come first, so that the fixed part is found from the end of a file. -/
def toDlrBytes (f : StreamFooter) : Bytes :=
  f.entries.flatMap entryBytes ++ f.fourcc.toList ++ f.identifier.toList ++ u32ToLe (UInt32.ofNat f.entries.length)

/-- Read one entry at a position of the window. -/
def readEntry (dynamicData : Bytes) (pos : Nat) : Except Fault StreamFooterEntry := do
  let start ← slice dynamicData pos (pos + 8)
  let len ← slice dynamicData (pos + 8) (pos + 16)
  let crc ← slice dynamicData (pos + 16) (pos + 20)
  pure ⟨⟨u64FromLe start, u64FromLe len⟩, u32FromLe crc⟩

/-- Read as many entries as the footer says it has. -/
def readEntries (dynamicData : Bytes) : Nat → Nat → Except Fault (List StreamFooterEntry)
  | 0, _ => pure []
  | n + 1, pos => do
    let entry ← readEntry dynamicData pos
    let rest ← readEntries dynamicData n (pos + ENCODED_SIZE_BYTES_SINGLE_ENTRY)
    pure (entry :: rest)

def fromDlrBytes (data : Bytes) : Except Fault StreamFooter := do
  if data.length < ENCODED_SIZE_BYTES then
    let len := data.length
    .error (.err (.frameDecoding s!"invalid StreamFooter length (expected 32 but got {len})"))
  else
    let fixedData ← slice data (data.length - ENCODED_SIZE_BYTES_IGNORING_ENTRIES) data.length
    let fourcc ← toArray4 (← slice fixedData 0 4)
    if fourcc ≠ DLR_FOURCC then
      let expected := DLR_FOURCC.debug
      let got := fourcc.debug
      .error (.err (.frameDecoding s!"invalid StreamFooter FourCC (expected {expected} but got {got})"))
    else
      let identifier ← toArray4 (← slice fixedData 4 8)
      if identifier ≠ DLR_IDENTIFIER then
        let expected := DLR_IDENTIFIER.debug
        let got := identifier.debug
        .error (.err (.frameDecoding
          s!"invalid StreamFooter identifier (expected {expected} but got {got})"))
      else
        let numDlrFooters := u32FromLe (← slice fixedData 8 12)
        -- the window is that of a footer with one entry, however many there are
        let dynamicData ← slice data (data.length - ENCODED_SIZE_BYTES) data.length
        let entries ← readEntries dynamicData numDlrFooters.toNat 0
        pure ⟨fourcc, identifier, entries⟩

def fromDlrFooterBytes (crc : Bytes → UInt32) (offset : UInt64) (dlrFooterBytes : Bytes) : StreamFooter where
  fourcc := DLR_FOURCC
  identifier := DLR_IDENTIFIER
  entries := [⟨⟨offset, UInt64.ofNat dlrFooterBytes.length⟩, crc dlrFooterBytes⟩]

end StreamFooter

/-! ## Message headers -/

inductive MessageKind where
  | «end»
  | setStoreInfo
  | arrowMsg
  | blueprintActivationCommand
  deriving DecidableEq

def MessageKind.toNat : MessageKind → Nat
  | .end => 0
  | .setStoreInfo => 1
  | .arrowMsg => 2
  | .blueprintActivationCommand => 3

def MessageKind.ofNat? : Nat → Option MessageKind
  | 0 => some .end
  | 1 => some .setStoreInfo
  | 2 => some .arrowMsg
  | 3 => some .blueprintActivationCommand
  | _ => none

structure MessageHeader where
  kind : MessageKind
  len : UInt64
  deriving DecidableEq

namespace MessageHeader

def ENCODED_SIZE_BYTES : Nat := 16

def toDlrBytes (h : MessageHeader) : Bytes := u64ToLe (UInt64.ofNat h.kind.toNat) ++ u64ToLe h.len

def fromDlrBytes (data : Bytes) : Except Fault MessageHeader := do
  if data.length ≠ ENCODED_SIZE_BYTES then
    let len := data.length
    .error (.err (.frameDecoding s!"invalid MessageHeader length (expected 16 but got {len})"))
  else
    let kind := (u64FromLe (← slice data 0 8)).toNat
    match MessageKind.ofNat? kind with
    | none => .error (.err (.frameDecoding s!"unknown MessageHeader kind: {kind}"))
    | some messageKind =>
      let len := u64FromLe (← slice data 8 16)
      pure ⟨messageKind, len⟩

end MessageHeader

/-! ## Slices -/

variable {data : Bytes}

theorem slice_of_le {a b : Nat} (ha : a ≤ b) (hb : b ≤ data.length) :
    slice data a b = .ok ((data.drop a).take (b - a)) := if_pos ⟨ha, hb⟩

theorem slice_of_lt {a b : Nat} (hb : data.length < b) :
    slice data a b = .error (.panic .sliceOutOfRange) := if_neg fun h => absurd h.2 (by omega)

theorem toArray4_of_length (h : data.length = 4) : ∃ b, toArray4 data = .ok b ∧ b.toList = data := by
  match data, h with
  | [a, b, c, d], _ => exact ⟨⟨a, b, c, d⟩, rfl, rfl⟩

theorem toArray4_toList (b : FourBytes) : toArray4 b.toList = .ok b := rfl

@[simp] theorem FourBytes.toList_length (b : FourBytes) : b.toList.length = 4 := rfl

@[simp] theorem EncodingOptions.toDlrBytes_length (o : EncodingOptions) : o.toDlrBytes.length = 4 := rfl

/-! ## Reading back what was written -/

def NoPanic {α : Type} (r : Except Fault α) : Prop := ∀ p, r ≠ .error (.panic p)

theorem EncodingOptions.fromDlrBytes_toDlrBytes (o : EncodingOptions) : fromDlrBytes o.toDlrBytes = .ok o := by
  obtain ⟨compression, serializer⟩ := o
  cases compression <;> cases serializer <;> rfl

theorem EncodingOptions.fromDlrBytes_noPanic (data : Bytes) : NoPanic (fromDlrBytes data) := by
  intro p
  unfold fromDlrBytes
  split
  · rename_i compression serializer
    by_cases h0 : compression = 0
    · by_cases h1 : serializer = 1
      · simp [h0, h1, bind, Except.bind, pure, Except.pure]
      · by_cases h2 : serializer = 2
        · simp [h0, h2, bind, Except.bind, pure, Except.pure]
        · simp [h0, h1, h2, bind, Except.bind, pure, Except.pure]
    · by_cases h0' : compression = 1
      · by_cases h1 : serializer = 1
        · simp [h0', h1, bind, Except.bind, pure, Except.pure]
        · by_cases h2 : serializer = 2
          · simp [h0', h2, bind, Except.bind, pure, Except.pure]
          · simp [h0', h1, h2, bind, Except.bind, pure, Except.pure]
      · simp [h0, h0', bind, Except.bind]
  · simp

namespace StreamHeader

@[simp] theorem toDlrBytes_length (h : StreamHeader) : h.toDlrBytes.length = ENCODED_SIZE_BYTES := by
  simp [toDlrBytes, ENCODED_SIZE_BYTES]

theorem fromDlrBytes_of_length (h : data.length = ENCODED_SIZE_BYTES) :
    ∃ fourcc version : FourBytes, fourcc.toList = data.take 4 ∧ version.toList = (data.drop 4).take 4 ∧
      fromDlrBytes data = if fourcc ∈ OLD_DLR_FOURCC then .error (.err .oldRrdVersion)
        else if fourcc ≠ DLR_FOURCC then .error (.err (.notAnRrd DLR_FOURCC fourcc))
        else (EncodingOptions.fromDlrBytes (data.drop 8)).map fun options => ⟨fourcc, version, options⟩ := by
  have h12 : data.length = 12 := h
  obtain ⟨fourcc, hf, hf'⟩ := @toArray4_of_length (data.take 4) (by simp [h12])
  obtain ⟨version, hv, hv'⟩ := @toArray4_of_length ((data.drop 4).take 4) (by simp [h12])
  refine ⟨fourcc, version, hf', hv', ?_⟩
  have hrest : (data.drop 8).take (data.length - 8) = data.drop 8 := take_of_length_le (by simp)
  unfold fromDlrBytes
  rw [if_neg (fun hne => hne h), slice_of_le (by omega) (by omega), slice_of_le (by omega) (by omega),
    slice_of_le (by omega) (Nat.le_refl _), hrest]
  simp only [bind, Except.bind, drop_zero, Nat.sub_zero, hf, Nat.reduceSub, hv]
  split
  · rfl
  · split
    · rfl
    · cases EncodingOptions.fromDlrBytes (data.drop 8) <;> rfl

theorem fromDlrBytes_noPanic (data : Bytes) : NoPanic (fromDlrBytes data) := by
  intro p
  by_cases h : data.length = ENCODED_SIZE_BYTES
  · obtain ⟨fourcc, version, -, -, heq⟩ := fromDlrBytes_of_length h
    rw [heq]
    split
    · simp
    · split
      · simp
      · have hoptions := EncodingOptions.fromDlrBytes_noPanic (data.drop 8) p
        cases hopt : EncodingOptions.fromDlrBytes (data.drop 8) with
        | ok o => simp [Except.map]
        | error f =>
          rw [hopt] at hoptions
          simpa [Except.map] using hoptions
  · unfold fromDlrBytes
    rw [if_pos h]
    simp

theorem fromDlrBytes_toDlrBytes (version : FourBytes) (options : EncodingOptions) :
    fromDlrBytes (toDlrBytes ⟨DLR_FOURCC, version, options⟩) = .ok ⟨DLR_FOURCC, version, options⟩ := by
  unfold fromDlrBytes
  rw [if_neg (fun hne => hne (toDlrBytes_length _)), toDlrBytes_length]
  have h1 : slice (toDlrBytes ⟨DLR_FOURCC, version, options⟩) 0 4 = .ok DLR_FOURCC.toList := rfl
  have h2 : slice (toDlrBytes ⟨DLR_FOURCC, version, options⟩) 4 8 = .ok version.toList := rfl
  have h3 : slice (toDlrBytes ⟨DLR_FOURCC, version, options⟩) 8 ENCODED_SIZE_BYTES = .ok options.toDlrBytes := rfl
  rw [h1, h2, h3]
  simp only [bind, Except.bind, toArray4_toList, EncodingOptions.fromDlrBytes_toDlrBytes]
  rfl

theorem toVersionAndOptions_noPanic (h : StreamHeader) : NoPanic h.toVersionAndOptions := by
  intro p
  unfold toVersionAndOptions
  generalize (if h.version = ⟨0, 0, 0, 0⟩ then (⟨0, 2, 0, none⟩ : CrateVersion)
    else .fromBytes h.version) = version
  dsimp only
  split <;> simp

end StreamHeader

namespace MessageHeader

@[simp] theorem toDlrBytes_length (h : MessageHeader) : h.toDlrBytes.length = ENCODED_SIZE_BYTES := by
  simp [toDlrBytes, ENCODED_SIZE_BYTES]

theorem fromDlrBytes_of_length (h : data.length = ENCODED_SIZE_BYTES) :
    fromDlrBytes data = match MessageKind.ofNat? (u64FromLe (data.take 8)).toNat with
      | none => .error (.err (.frameDecoding
          ("unknown MessageHeader kind: " ++ toString (u64FromLe (data.take 8)).toNat)))
      | some kind => .ok ⟨kind, u64FromLe (data.drop 8)⟩ := by
  have h16 : data.length = 16 := h
  have hrest : (data.drop 8).take 8 = data.drop 8 := take_of_length_le (by simp [h16])
  unfold fromDlrBytes
  rw [if_neg (fun hne => hne h), slice_of_le (by omega) (by omega), slice_of_le (by omega) (by omega)]
  simp only [bind, Except.bind, drop_zero, Nat.sub_zero, Nat.reduceSub, hrest]
  cases MessageKind.ofNat? (u64FromLe (data.take 8)).toNat with
  | none => rfl
  | some kind => rfl

theorem fromDlrBytes_toDlrBytes (h : MessageHeader) : fromDlrBytes h.toDlrBytes = .ok h := by
  obtain ⟨kind, len⟩ := h
  rw [fromDlrBytes_of_length (toDlrBytes_length _)]
  have htake : (toDlrBytes ⟨kind, len⟩).take 8 = u64ToLe (UInt64.ofNat kind.toNat) :=
    take_left' (u64ToLe_length _)
  have hdrop : (toDlrBytes ⟨kind, len⟩).drop 8 = u64ToLe len := drop_left' (u64ToLe_length _)
  rw [htake, hdrop, u64FromLe_toLe, u64FromLe_toLe]
  cases kind <;> rfl

theorem fromDlrBytes_of_streamHeader (version : FourBytes) (options : EncodingOptions) {rest : Bytes}
    (h : rest.length = 4) : ∃ text, fromDlrBytes
      (StreamHeader.toDlrBytes ⟨DLR_FOURCC, version, options⟩ ++ rest) = .error (.err (.frameDecoding text)) := by
  rw [fromDlrBytes_of_length (by simp [h, ENCODED_SIZE_BYTES, StreamHeader.ENCODED_SIZE_BYTES])]
  have htake : (StreamHeader.toDlrBytes ⟨DLR_FOURCC, version, options⟩ ++ rest).take 8 =
      DLR_FOURCC.toList ++ version.toList := rfl
  rw [htake]
  have hkind : 4 ≤ (u64FromLe (DLR_FOURCC.toList ++ version.toList)).toNat := by
    have hlt := leValue_lt (DLR_FOURCC.toList ++ version.toList)
    have hlen : (DLR_FOURCC.toList ++ version.toList).length = 8 := rfl
    rw [hlen] at hlt
    unfold u64FromLe
    rw [UInt64.toNat_ofNat_of_lt' (by omega)]
    show 4 ≤ 82 + 256 * _
    omega
  have hnone : MessageKind.ofNat? (u64FromLe (DLR_FOURCC.toList ++ version.toList)).toNat = none := by
    generalize (u64FromLe (DLR_FOURCC.toList ++ version.toList)).toNat = n at hkind
    match n, hkind with
    | n + 4, _ => rfl
  rw [hnone]
  exact ⟨_, rfl⟩

end MessageHeader

namespace StreamFooter

/-- Long enough for a footer, with both magic words in their place before the end. -/
def Marked (data : Bytes) : Prop :=
  ENCODED_SIZE_BYTES ≤ data.length ∧ (data.drop (data.length - 12)).take 4 = DLR_FOURCC.toList ∧
    (data.drop (data.length - 8)).take 4 = DLR_IDENTIFIER.toList

instance (data : Bytes) : Decidable (Marked data) := inferInstanceAs (Decidable (_ ∧ _ ∧ _))

/-- How many DLR footers the last four bytes announce. -/
def numDlrFooters (data : Bytes) : Nat := (u32FromLe (data.drop (data.length - 4))).toNat

theorem slice_fixed : slice data (data.length - ENCODED_SIZE_BYTES_IGNORING_ENTRIES) data.length =
    .ok (data.drop (data.length - 12)) := by
  rw [slice_of_le (Nat.sub_le _ _) (Nat.le_refl _)]
  exact congrArg _ (take_of_length_le (by simp [ENCODED_SIZE_BYTES_IGNORING_ENTRIES]))

theorem fromDlrBytes_of_marked (h : Marked data) : fromDlrBytes data =
    (readEntries (data.drop (data.length - ENCODED_SIZE_BYTES)) (numDlrFooters data) 0).map
      fun entries => ⟨DLR_FOURCC, DLR_IDENTIFIER, entries⟩ := by
  obtain ⟨hlen, hfourcc, hident⟩ := h
  have h32 : 32 ≤ data.length := hlen
  have hdynamic : slice data (data.length - ENCODED_SIZE_BYTES) data.length =
      .ok (data.drop (data.length - ENCODED_SIZE_BYTES)) := by
    rw [slice_of_le (by omega) (Nat.le_refl _)]
    exact congrArg _ (take_of_length_le (by simp))
  have hparts : ∀ i, i + 4 ≤ 12 → slice (data.drop (data.length - 12)) i (i + 4) =
      .ok ((data.drop (data.length - (12 - i))).take 4) := by
    intro i hi
    rw [slice_of_le (by omega) (by simp; omega), drop_drop]
    have h1 : data.length - 12 + i = data.length - (12 - i) := by omega
    have h2 : i + 4 - i = 4 := by omega
    rw [h1, h2]
  have hcount : (data.drop (data.length - 4)).take 4 = data.drop (data.length - 4) :=
    take_of_length_le (by simp; omega)
  unfold fromDlrBytes
  rw [if_neg (by omega), slice_fixed, hdynamic]
  simp only [bind, Except.bind]
  rw [hparts 0 (by omega), hparts 4 (by omega), hparts 8 (by omega)]
  simp only [Nat.sub_zero, Nat.reduceSub, hfourcc, hident, hcount, toArray4_toList]
  unfold numDlrFooters
  cases readEntries (data.drop (data.length - ENCODED_SIZE_BYTES))
    (u32FromLe (data.drop (data.length - 4))).toNat 0 <;> rfl

theorem fromDlrBytes_of_not_marked (h : ¬ Marked data) :
    ∃ text, fromDlrBytes data = .error (.err (.frameDecoding text)) := by
  unfold fromDlrBytes
  by_cases hlen : data.length < ENCODED_SIZE_BYTES
  · rw [if_pos hlen]
    exact ⟨_, rfl⟩
  · have h32 : 32 ≤ data.length := Nat.le_of_not_lt hlen
    obtain ⟨fourcc, hf, hf'⟩ := @toArray4_of_length ((data.drop (data.length - 12)).take 4)
      (by simp; omega)
    obtain ⟨ident, hi, hi'⟩ := @toArray4_of_length ((data.drop (data.length - 8)).take 4)
      (by simp; omega)
    rw [if_neg hlen, slice_fixed]
    simp only [bind, Except.bind]
    rw [slice_of_le (by omega) (by simp; omega)]
    simp only [drop_zero, Nat.sub_zero, hf]
    by_cases hne : fourcc ≠ DLR_FOURCC
    · rw [if_pos hne]
      exact ⟨_, rfl⟩
    · rw [if_neg hne, slice_of_le (by omega) (by simp; omega), drop_drop]
      have h8 : data.length - 12 + 4 = data.length - 8 := by omega
      simp only [h8, Nat.reduceSub, hi]
      have hident : ident ≠ DLR_IDENTIFIER := by
        rintro rfl
        refine h ⟨h32, ?_, hi'.symm⟩
        rw [← hf', not_not.mp hne]
      rw [if_pos hident]
      exact ⟨_, rfl⟩

variable {window : Bytes}

theorem readEntry_ok (h : window.length = ENCODED_SIZE_BYTES) :
    readEntry window 0 = .ok ⟨⟨u64FromLe (window.take 8), u64FromLe ((window.drop 8).take 8)⟩,
      u32FromLe ((window.drop 16).take 4)⟩ := by
  have h32 : window.length = 32 := h
  unfold readEntry
  rw [slice_of_le (by omega) (by omega), slice_of_le (by omega) (by omega), slice_of_le (by omega) (by omega)]
  rfl

theorem readEntry_of_second (h : window.length = ENCODED_SIZE_BYTES) :
    readEntry window ENCODED_SIZE_BYTES_SINGLE_ENTRY = .error (.panic .sliceOutOfRange) := by
  have h32 : window.length = 32 := h
  unfold readEntry ENCODED_SIZE_BYTES_SINGLE_ENTRY
  rw [slice_of_le (by omega) (by omega), slice_of_lt (by omega)]
  rfl

theorem readEntries_one (h : window.length = ENCODED_SIZE_BYTES) :
    readEntries window 1 0 = .ok [⟨⟨u64FromLe (window.take 8), u64FromLe ((window.drop 8).take 8)⟩,
      u32FromLe ((window.drop 16).take 4)⟩] := by
  rw [readEntries, readEntry_ok h]
  rfl

theorem readEntries_of_two_le (h : window.length = ENCODED_SIZE_BYTES) {n : Nat}
    (hn : 2 ≤ n) : readEntries window n 0 = .error (.panic .sliceOutOfRange) := by
  obtain ⟨n, rfl⟩ := Nat.exists_eq_add_of_le' hn
  rw [readEntries, readEntry_ok h]
  rw [readEntries, Nat.zero_add, readEntry_of_second h]
  rfl

theorem window_length (h : ENCODED_SIZE_BYTES ≤ data.length) :
    (data.drop (data.length - ENCODED_SIZE_BYTES)).length = ENCODED_SIZE_BYTES := by
  rw [length_drop]
  omega

theorem fromDlrBytes_noPanic_iff (data : Bytes) :
    NoPanic (fromDlrBytes data) ↔ (Marked data → numDlrFooters data ≤ 1) := by
  by_cases h : Marked data
  · have hwindow := window_length h.1
    rw [fromDlrBytes_of_marked h]
    constructor
    · intro hok _
      by_contra hn
      rw [readEntries_of_two_le hwindow (by omega)] at hok
      exact hok _ rfl
    · intro hn p
      have hcases : numDlrFooters data = 0 ∨ numDlrFooters data = 1 := by
        have := hn h
        omega
      rcases hcases with h0 | h1
      · rw [h0]
        simp [readEntries, Except.map, pure, Except.pure]
      · rw [h1, readEntries_one hwindow]
        simp [Except.map]
  · obtain ⟨text, heq⟩ := fromDlrBytes_of_not_marked h
    rw [heq]
    simp [NoPanic, h]

@[simp] theorem entryBytes_length (e : StreamFooterEntry) :
    (entryBytes e).length = ENCODED_SIZE_BYTES_SINGLE_ENTRY := by
  simp [entryBytes, ENCODED_SIZE_BYTES_SINGLE_ENTRY]

theorem toDlrBytes_length (e : StreamFooterEntry) :
    (toDlrBytes ⟨DLR_FOURCC, DLR_IDENTIFIER, [e]⟩).length = ENCODED_SIZE_BYTES := by
  simp [toDlrBytes, ENCODED_SIZE_BYTES, ENCODED_SIZE_BYTES_IGNORING_ENTRIES, ENCODED_SIZE_BYTES_SINGLE_ENTRY]

theorem fromDlrBytes_toDlrBytes (e : StreamFooterEntry) :
    fromDlrBytes (toDlrBytes ⟨DLR_FOURCC, DLR_IDENTIFIER, [e]⟩) = .ok ⟨DLR_FOURCC, DLR_IDENTIFIER, [e]⟩ := by
  obtain ⟨⟨start, len⟩, crc⟩ := e
  generalize hdata : toDlrBytes ⟨DLR_FOURCC, DLR_IDENTIFIER, [⟨⟨start, len⟩, crc⟩]⟩ = data
  have hlen : data.length = 32 := hdata ▸ toDlrBytes_length _
  have hparts : data = u64ToLe start ++ (u64ToLe len ++ (u32ToLe crc ++ (DLR_FOURCC.toList ++
      (DLR_IDENTIFIER.toList ++ u32ToLe 1)))) := by
    rw [← hdata]
    simp [toDlrBytes, entryBytes]
  -- the bytes are a list of 32 elements, so its parts are read off by computation
  have hmarked : Marked data := by
    refine ⟨Nat.le_of_eq hlen.symm, ?_, ?_⟩
    · rw [hlen, hparts]
      rfl
    · rw [hlen, hparts]
      rfl
  have hcount : numDlrFooters data = 1 := by
    unfold numDlrFooters
    rw [hlen, hparts]
    show (u32FromLe (u32ToLe 1)).toNat = 1
    rw [u32FromLe_toLe]
    rfl
  have hwindow : data.drop (data.length - ENCODED_SIZE_BYTES) = data := by
    rw [hlen]
    rfl
  have hstart : data.take 8 = u64ToLe start := by rw [hparts]; rfl
  have hspan : (data.drop 8).take 8 = u64ToLe len := by rw [hparts]; rfl
  have hcrc : (data.drop 16).take 4 = u32ToLe crc := by rw [hparts]; rfl
  rw [fromDlrBytes_of_marked hmarked, hcount, hwindow, readEntries_one hlen, hstart, hspan, hcrc,
    u64FromLe_toLe, u64FromLe_toLe, u32FromLe_toLe]
  rfl

end StreamFooter

end Dalaran
