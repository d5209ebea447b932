import Dalaran.Dlr.Buffer

/-
  The decoder of DLR streams (`Decoder` in `state_machine.rs`).

  Byte chunks are pushed in, messages are read out. `try_read_impl` is one match
  on the state; each of its branches first gets the bytes of a frame and then
  looks at them, and the second half is a function of its own here (`onStreamHeader`
  to `onStreamFooter`). Where the source returns `self.try_read()`, the turn is
  `again`; `tryRead` takes turns until one returns. The recursion of the source is
  bounded by the bytes that are pending (`fuel`).

  The payload codecs are a parameter. A footer is Protobuf and no more; a message
  is converted, too, which can panic (`Payloads`). The byte span and the position
  that the source hands to `T::decode` and to its log lines are left out: neither
  implementation of `T::decode` reads the span, and logging changes nothing.

  Correspondence (Rust ↔ Lean):
    `DecoderEntrypoint::decode` ↔ `Codec.decode`, without its `End` branch
    `RrdFooter::from_dlr_bytes` ↔ `Codec.decodeFooter`
    `CachingApplicationIdInjector` ↔ the type `Cache`
    `Decoder::try_read_impl`, `try_read` ↔ `Decoder.step`, `Decoder.tryRead`
-/

namespace Dalaran

/-- How payloads are decoded. A cache of application ids goes along; a payload that fails to decode
leaves it as it is. -/
structure Codec (Msg Cache Manifest : Type) where
  decode : Cache → Option CrateVersion → MessageKind → Bytes → Except Fault (Msg × Cache)
  decodeFooter : Bytes → Except CodecError (List Manifest)

/-- A codec that takes payloads as they are; those that start with `0xff` it cannot read, which is a
truncated tag to Protobuf, too. -/
def Codec.plain : Codec Bytes Unit Bytes where
  decode := fun _ _ _ bytes =>
    if bytes.head? = some 255 then .error (.err (.payload "failed to decode Protobuf message"))
    else .ok (bytes, ())
  decodeFooter := fun bytes =>
    if bytes.head? = some 255 then .error (.payload "failed to decode Protobuf message") else .ok [bytes]

inductive DecoderState where
  | waitingForStreamHeader
  | waitingForMessageHeader
  | waitingForMessagePayload (header : MessageHeader)
  | waitingForStreamFooter
  | aborted
  deriving DecidableEq

structure Control (Cache Manifest : Type) where
  version : Option CrateVersion
  options : EncodingOptions
  state : DecoderState
  appIdCache : Cache
  dlrManifests : List Manifest

structure Decoder (Cache Manifest : Type) extends Control Cache Manifest where
  byteChunks : ByteChunkBuffer

/-- What a branch of `try_read_impl` returns; `again` is `self.try_read()`. -/
inductive Turn (Msg : Type) where
  | again
  | ok (message : Option Msg)
  | err (e : CodecError)

variable {Msg Cache Manifest : Type}

namespace Control

def new (cache : Cache) : Control Cache Manifest where
  version := none
  options := .PROTOBUF_UNCOMPRESSED
  state := .waitingForStreamHeader
  appIdCache := cache
  dlrManifests := []

variable (codec : Codec Msg Cache Manifest) (c : Control Cache Manifest)

def onStreamHeader (isFirstHeader : Bool) (headerData : Bytes) : Except Panic (Control Cache Manifest × Turn Msg) :=
  match (StreamHeader.fromDlrBytes headerData).bind StreamHeader.toVersionAndOptions with
  | .error (.panic p) => .error p
  | .error (.err e) =>
    if isFirstHeader then .ok (c, .err e)
    else .ok ({ c with state := .aborted }, .ok none) -- trailing bytes behind a whole stream
  | .ok (version, options) =>
    .ok ({ c with version := some version, options := options, state := .waitingForMessageHeader }, .again)

/-- The bytes of a message header can be peeked at: whether they are read, too. -/
def onMessageHeader (peeked : Bytes) : Except Panic (Control Cache Manifest × Bool × Turn Msg) :=
  match MessageHeader.fromDlrBytes peeked with
  | .error (.panic p) => .error p
  -- corrupt, or the next stream without an end of this one
  | .error (.err (.frameDecoding _)) => .ok ({ c with state := .waitingForStreamHeader }, false, .again)
  | .error (.err e) => .ok (c, false, .err e)
  | .ok header => .ok ({ c with state := .waitingForMessagePayload header }, true, .again)

def onMessagePayload (header : MessageHeader) (bytes : Bytes) : Except Panic (Control Cache Manifest × Turn Msg) :=
  if header.kind = .end then
    if bytes.isEmpty then .ok ({ c with state := .waitingForStreamFooter }, .again)
    else
      match codec.decodeFooter bytes with
      | .error e => .ok (c, .err e) -- returns before the state changes
      | .ok manifests =>
        .ok ({ c with dlrManifests := c.dlrManifests ++ manifests, state := .waitingForStreamFooter }, .again)
  else
    match codec.decode c.appIdCache c.version header.kind bytes with
    | .error (.panic p) => .error p
    | .error (.err e) => .ok ({ c with state := .waitingForMessageHeader }, .err e)
    | .ok (message, cache) =>
      .ok ({ c with appIdCache := cache, state := .waitingForMessageHeader }, .ok (some message))

/-- The end of each DLR footer is computed, to log an error where it lies ahead. -/
def checkEntries : List StreamFooterEntry → Except Panic Unit
  | [] => .ok ()
  | e :: entries => do
    let span := e.dlrFooterByteSpanFromStartExcludingHeader
    let _ ← checkedAdd span.start span.len
    checkEntries entries

def onStreamFooter (bytes : Bytes) : Except Panic (Control Cache Manifest × Turn Msg) :=
  match StreamFooter.fromDlrBytes bytes with
  | .error (.panic p) => .error p
  | .error (.err _) => .ok ({ c with state := .aborted }, .ok none)
  | .ok footer => do
    checkEntries footer.entries
    pure ({ c with state := .waitingForStreamHeader }, .again)

end Control

namespace Decoder

variable (codec : Codec Msg Cache Manifest) (d : Decoder Cache Manifest)

def new (cache : Cache) : Decoder Cache Manifest where
  toControl := .new cache
  byteChunks := .new

def pushByteChunk (chunk : Bytes) : Decoder Cache Manifest :=
  { d with byteChunks := d.byteChunks.push chunk }

/-- One pass of `try_read_impl`. -/
def step : Except Panic (Decoder Cache Manifest × Turn Msg) :=
  match d.state with
  | .waitingForStreamHeader => do
    let read ← d.byteChunks.tryRead StreamHeader.ENCODED_SIZE_BYTES
    match read.1 with
    | none => pure ({ d with byteChunks := read.2 }, .ok none)
    | some headerData =>
      let next ← d.toControl.onStreamHeader (d.byteChunks.numRead == 0) headerData
      pure (⟨next.1, read.2⟩, next.2)
  | .waitingForMessageHeader =>
    let peeked := d.byteChunks.tryPeek MessageHeader.ENCODED_SIZE_BYTES
    if peeked.length = MessageHeader.ENCODED_SIZE_BYTES then do
      let next ← d.toControl.onMessageHeader peeked
      if next.2.1 then
        let read ← d.byteChunks.tryRead MessageHeader.ENCODED_SIZE_BYTES
        match read.1 with
        | none => .error .expectFailed
        | some _ => pure (⟨next.1, read.2⟩, next.2.2)
      else pure (⟨next.1, d.byteChunks⟩, next.2.2)
    else pure (d, .ok none)
  | .waitingForMessagePayload header => do
    let read ← d.byteChunks.tryRead header.len.toNat
    match read.1 with
    | none => pure ({ d with byteChunks := read.2 }, .ok none)
    | some bytes =>
      let next ← d.toControl.onMessagePayload codec header bytes
      pure (⟨next.1, read.2⟩, next.2)
  | .waitingForStreamFooter => do
    let read ← d.byteChunks.tryRead StreamFooter.ENCODED_SIZE_BYTES
    match read.1 with
    | none => pure ({ d with byteChunks := read.2 }, .ok none)
    | some bytes =>
      let next ← d.toControl.onStreamFooter bytes
      pure (⟨next.1, read.2⟩, next.2)
  | .aborted => pure (d, .ok none)

/-- Take turns until one returns; a message without an application id is dropped. -/
def tryReadWithin : Nat → Decoder Cache Manifest →
    Except Panic (Decoder Cache Manifest × Except CodecError (Option Msg))
  | 0, d => .ok (d, .ok none)
  | n + 1, d =>
    match d.step codec with
    | .error p => .error p
    | .ok (d, .again) => tryReadWithin n d
    | .ok (d, .err (.storeIdMissingApplicationId _ _)) => tryReadWithin n d
    | .ok (d, .err e) => .ok (d, .error e)
    | .ok (d, .ok message) => .ok (d, .ok message)

/-- More turns than a call can take: a turn reads bytes, or comes closer to the next frame. -/
def fuel : Nat := 4 * d.byteChunks.pending.length + 4

def tryRead : Except Panic (Decoder Cache Manifest × Except CodecError (Option Msg)) :=
  tryReadWithin codec d.fuel d

end Decoder

end Dalaran
