import Dalaran.Base.Assoc
import Dalaran.Base.Collect
import Dalaran.Dlr.Delivery

/-
  The encoder of DLR streams (`encoder.rs`, `log_msg.rs`, `footer/builders.rs`).

  An encoder writes a stream header, then a message for each `append`, and on
  `finish` an `End` message with the footer, and a stream footer that says where the
  footer is. The footer has a manifest for each store, with a row for each chunk
  that says where its payload is.

  The bytes of payloads (Protobuf, Arrow, LZ4) and how a batch becomes a chunk are
  parameters (`Transport`). Writes succeed, as they do into a `Vec`: the output is a
  byte string that starts empty. Of a manifest, the rows are modelled with what
  locates a chunk; its index columns and its schema are part of `Chunk`.

  Correspondence (Rust ↔ Lean):
    `ToTransport`, `Encodable` of a `Msg` ↔ `Transport.toTransport`, `Frame.bytes`
    `RrdManifestBuilder`, `ManifestState` ↔ a list of `ManifestRow`
    `FooterState::finish`, `to_transport` ↔ `Transport.encodeFooter`
-/

namespace Dalaran

open List Assoc Collect

/-- `LogMsg`. The rest of a `StoreInfo`, which nothing here looks at, is `Details`. -/
inductive LogMsg (StoreId Details Batch : Type) where
  | setStoreInfo (storeId : StoreId) (storeVersion : Option CrateVersion) (details : Details)
  | arrowMsg (storeId : StoreId) (batch : Batch)
  | blueprintActivationCommand (blueprintId : StoreId) (makeActive makeDefault : Bool)
  deriving DecidableEq

inductive EncodeError where
  | alreadyFinished
  | alreadyUnwrapped
  | codec (e : CodecError)
  | chunk (text : String)
  | sorbet (text : String)
  deriving DecidableEq

/-- A byte string that a `Vec` can hold. -/
def ByteVec := { bytes : Bytes // bytes.length ≤ ISIZE_MAX }

theorem ByteVec.length_le (bytes : ByteVec) : bytes.1.length ≤ ISIZE_MAX := bytes.2

structure ManifestRow (Chunk : Type) where
  chunk : Chunk
  byteOffsetExcludingHeader : UInt64
  byteSizeExcludingHeader : UInt64
  byteSizeUncompressedExcludingHeader : UInt64

/-- The manifests of the stores seen so far. -/
abbrev FooterState (StoreId Chunk : Type) := Assoc StoreId (List (ManifestRow Chunk))

/-- What turns messages and footers into payloads. -/
structure Transport (StoreId Details Batch ChunkBatch Chunk : Type) where
  toTransport : Compression → LogMsg StoreId Details Batch → Except EncodeError ByteVec
  byteSizeUncompressed : Compression → LogMsg StoreId Details Batch → UInt64
  chunkBatch : Batch → Except EncodeError ChunkBatch
  fromChunkBatch : ChunkBatch → Except EncodeError Chunk
  encodeFooter : FooterState StoreId Chunk → Except EncodeError ByteVec

variable {StoreId Details Batch ChunkBatch Chunk : Type}

def LogMsg.kind : LogMsg StoreId Details Batch → MessageKind
  | .setStoreInfo .. => .setStoreInfo
  | .arrowMsg .. => .arrowMsg
  | .blueprintActivationCommand .. => .blueprintActivationCommand

theorem LogMsg.kind_ne_end (m : LogMsg StoreId Details Batch) : m.kind ≠ .end := by
  cases m <;> exact fun h => nomatch h

def LogMsg.frame (m : LogMsg StoreId Details Batch) (payload : ByteVec) : Frame := ⟨m.kind, payload.1, payload.2⟩

structure Encoder (StoreId Chunk : Type) where
  compression : Compression
  write : Option Bytes
  numWritten : UInt64
  footerState : Option (FooterState StoreId Chunk)
  isFinished : Bool

section

variable [DecidableEq StoreId] (T : Transport StoreId Details Batch ChunkBatch Chunk) (crc : Bytes → UInt32)

def FooterState.append (fs : FooterState StoreId Chunk) (message : LogMsg StoreId Details Batch)
    (byteSpan : Span) (byteSizeUncompressed : UInt64) : FooterState StoreId Chunk × Except EncodeError Unit :=
  match message with
  | .arrowMsg storeId batch =>
    match T.chunkBatch batch with
    | .error e => (fs, .error e)
    | .ok chunkBatch =>
      let fs := Assoc.upsert fs storeId [] id
      match T.fromChunkBatch chunkBatch with
      | .error e => (fs, .error e)
      | .ok chunk =>
        (Assoc.upsert fs storeId [] fun rows =>
          rows ++ [⟨chunk, byteSpan.start, byteSpan.len, byteSizeUncompressed⟩], .ok ())
  -- a store without chunks has no manifest
  | .setStoreInfo .. => (fs, .ok ())
  | .blueprintActivationCommand .. => (fs, .ok ())

namespace Encoder

def newEager (version : CrateVersion) (options : EncodingOptions) : Encoder StoreId Chunk :=
  let out := StreamHeader.toDlrBytes ⟨DLR_FOURCC, version.toBytes, options⟩
  { compression := options.compression
    write := some out
    numWritten := UInt64.ofNat out.length
    footerState := some ∅
    isFinished := false }

def writeEncodable (e : Encoder StoreId Chunk) (scratch : Bytes) :
    Except Panic (Encoder StoreId Chunk × Except EncodeError (UInt64 × Span)) :=
  if e.isFinished then .ok (e, .error .alreadyFinished)
  else
    match e.write with
    | none => .ok (e, .error .alreadyUnwrapped)
    | some w => do
      let byteOffset ← checkedAdd e.numWritten (UInt64.ofNat MessageHeader.ENCODED_SIZE_BYTES)
      let n := UInt64.ofNat scratch.length
      let numWritten ← checkedAdd e.numWritten n
      let byteSize := n - UInt64.ofNat MessageHeader.ENCODED_SIZE_BYTES
      pure ({ e with write := some (w ++ scratch), numWritten := numWritten }, .ok (n, ⟨byteOffset, byteSize⟩))

def append (e : Encoder StoreId Chunk) (message : LogMsg StoreId Details Batch) :
    Except Panic (Encoder StoreId Chunk × Except EncodeError UInt64) :=
  match T.toTransport e.compression message with
  | .error err => .ok (e, .error err)
  | .ok payload => do
    let written ← e.writeEncodable (message.frame payload).bytes
    match written.2, written.1.footerState with
    | .error err, _ => pure (written.1, .error err)
    | .ok (n, _), none => pure (written.1, .ok n)
    | .ok (n, byteSpan), some fs =>
      let appended := fs.append T message byteSpan (T.byteSizeUncompressed e.compression message)
      pure ({ written.1 with footerState := some appended.1 }, appended.2.map fun _ => n)

def doNotEmitFooter (e : Encoder StoreId Chunk) : Encoder StoreId Chunk := { e with footerState := none }

/-- Write the end of a stream: header, footer and stream footer. -/
def finishImpl (e : Encoder StoreId Chunk) (w : Bytes) (dlrFooter : ByteVec) : Except Panic (Encoder StoreId Chunk) := do
  let outHeader := MessageHeader.toDlrBytes ⟨.end, UInt64.ofNat dlrFooter.1.length⟩
  let endMsgByteOffset ← checkedAdd e.numWritten (UInt64.ofNat outHeader.length)
  let numWritten ← checkedAdd endMsgByteOffset (UInt64.ofNat dlrFooter.1.length)
  let outStreamFooter := (StreamFooter.fromDlrFooterBytes crc endMsgByteOffset dlrFooter.1).toDlrBytes
  let numWritten ← checkedAdd numWritten (UInt64.ofNat outStreamFooter.length)
  pure { e with write := some (w ++ outHeader ++ dlrFooter.1 ++ outStreamFooter), numWritten := numWritten }

/-- End the stream, with a footer unless that was disabled. -/
def finish (e : Encoder StoreId Chunk) : Except Panic (Encoder StoreId Chunk × Except EncodeError Unit) :=
  if e.isFinished then .ok (e, .ok ())
  else
    match e.write with
    | none => .ok (e, .error .alreadyUnwrapped)
    | some w =>
      match e.footerState with
      | none => .ok ({ e with isFinished := true }, .ok ())
      | some fs =>
        let e := { e with isFinished := true, footerState := none }
        match T.encodeFooter fs with
        | .error err => .ok (e, .error err)
        | .ok dlrFooter => do
          let e ← e.finishImpl crc w dlrFooter
          pure (e, .ok ())

/-- One `append` after the other, whatever they return. -/
def appendAll : Encoder StoreId Chunk → List (LogMsg StoreId Details Batch) →
    Except Panic (Encoder StoreId Chunk × List (Except EncodeError UInt64))
  | e, [] => .ok (e, [])
  | e, message :: messages => do
    let appended ← e.append T message
    let rest ← appendAll appended.1 messages
    pure (rest.1, appended.2 :: rest.2)

end Encoder

/-! ## Manifests -/

namespace FooterState

variable {T}

theorem lookup_append {batch : Batch} {chunkBatch : ChunkBatch} (hbatch : T.chunkBatch batch = .ok chunkBatch)
    (fs : FooterState StoreId Chunk) (s storeId : StoreId) (byteSpan : Span) (size : UInt64) :
    (append T fs (.arrowMsg s batch) byteSpan size).1.lookup storeId =
      if storeId = s then some ((fs.lookup s).getD [] ++ (T.fromChunkBatch chunkBatch).toOption.toList.map
        fun chunk => ⟨chunk, byteSpan.start, byteSpan.len, size⟩)
      else fs.lookup storeId := by
  unfold append
  dsimp only
  rw [hbatch]
  dsimp only
  cases T.fromChunkBatch chunkBatch with
  | error err =>
    rw [lookup_upsert]
    simp [Except.toOption]
  | ok chunk =>
    rw [lookup_upsert, lookup_upsert, if_pos rfl, lookup_upsert]
    split
    · simp [Except.toOption]
    · rfl

theorem append_cases (T : Transport StoreId Details Batch ChunkBatch Chunk) (fs : FooterState StoreId Chunk)
    (message : LogMsg StoreId Details Batch) (byteSpan : Span) (size : UInt64) :
    (append T fs message byteSpan size).1 = fs ∧
        (∀ s batch chunkBatch, message = .arrowMsg s batch → T.chunkBatch batch ≠ .ok chunkBatch) ∨
      ∃ s batch chunkBatch, message = .arrowMsg s batch ∧ T.chunkBatch batch = .ok chunkBatch := by
  cases message with
  | setStoreInfo s version details => exact .inl ⟨rfl, fun _ _ _ h => nomatch h⟩
  | blueprintActivationCommand s active default => exact .inl ⟨rfl, fun _ _ _ h => nomatch h⟩
  | arrowMsg s batch =>
    cases hbatch : T.chunkBatch batch with
    | error err =>
      refine .inl ⟨?_, ?_⟩
      · unfold append
        dsimp only
        rw [hbatch]
      · intro s' batch' chunkBatch heq hok
        obtain ⟨rfl, rfl⟩ := LogMsg.arrowMsg.inj heq
        cases hbatch.symm.trans hok
    | ok chunkBatch => exact .inr ⟨s, batch, chunkBatch, rfl, hbatch⟩

theorem row_of_append {fs : FooterState StoreId Chunk} {message : LogMsg StoreId Details Batch} {byteSpan : Span}
    {size : UInt64} {storeId : StoreId} {rows : List (ManifestRow Chunk)} {row : ManifestRow Chunk}
    (hrows : (append T fs message byteSpan size).1.lookup storeId = some rows) (hrow : row ∈ rows) :
    (∃ rows', fs.lookup storeId = some rows' ∧ row ∈ rows') ∨
      ∃ batch chunkBatch, message = .arrowMsg storeId batch ∧ T.chunkBatch batch = .ok chunkBatch ∧
        T.fromChunkBatch chunkBatch = .ok row.chunk ∧ row.byteOffsetExcludingHeader = byteSpan.start ∧
        row.byteSizeExcludingHeader = byteSpan.len := by
  rcases append_cases T fs message byteSpan size with ⟨hsame, -⟩ | ⟨s, batch, chunkBatch, rfl, hbatch⟩
  · rw [hsame] at hrows
    exact .inl ⟨rows, hrows, hrow⟩
  · rw [lookup_append hbatch] at hrows
    by_cases hs : storeId = s
    · subst hs
      rw [if_pos rfl] at hrows
      cases hrows
      rcases mem_append.mp hrow with hrow | hrow
      · cases hold : fs.lookup storeId with
        | none =>
          rw [hold] at hrow
          cases hrow
        | some rows' =>
          rw [hold] at hrow
          exact .inl ⟨rows', rfl, hrow⟩
      · cases hchunk : T.fromChunkBatch chunkBatch with
        | error err =>
          rw [hchunk] at hrow
          cases hrow
        | ok chunk =>
          rw [hchunk] at hrow
          obtain rfl := mem_singleton.mp hrow
          exact .inr ⟨batch, chunkBatch, rfl, hbatch, hchunk, rfl, rfl⟩
    · rw [if_neg hs] at hrows
      exact .inl ⟨rows, hrows, hrow⟩

theorem mem_keys_append {fs : FooterState StoreId Chunk} {message : LogMsg StoreId Details Batch} {byteSpan : Span}
    {size : UInt64} {storeId : StoreId} : storeId ∈ (append T fs message byteSpan size).1.keys ↔
      storeId ∈ fs.keys ∨ ∃ batch chunkBatch, message = .arrowMsg storeId batch ∧
        T.chunkBatch batch = .ok chunkBatch := by
  rcases append_cases T fs message byteSpan size with ⟨hsame, hno⟩ | ⟨s, batch, chunkBatch, rfl, hbatch⟩
  · rw [hsame]
    refine ⟨.inl, fun h => h.resolve_right fun hnew => ?_⟩
    obtain ⟨batch, chunkBatch, heq, hok⟩ := hnew
    exact hno storeId batch chunkBatch heq hok
  · rw [mem_keys_iff, mem_keys_iff, lookup_append hbatch]
    by_cases hs : storeId = s
    · subst hs
      rw [if_pos rfl]
      exact ⟨fun _ => .inr ⟨batch, chunkBatch, rfl, hbatch⟩, fun _ => ⟨_, rfl⟩⟩
    · rw [if_neg hs]
      refine ⟨.inl, fun h => h.resolve_right fun hnew => ?_⟩
      obtain ⟨batch', chunkBatch', heq, -⟩ := hnew
      exact hs (LogMsg.arrowMsg.inj heq).1.symm

end FooterState

/-! ## What has been written -/

def written (version : CrateVersion) (options : EncodingOptions)
    (sent : List (LogMsg StoreId Details Batch × ByteVec)) : Bytes :=
  StreamHeader.toDlrBytes ⟨DLR_FOURCC, version.toBytes, options⟩ ++ framesBytes (sent.map fun p => p.1.frame p.2)

omit [DecidableEq StoreId] in
theorem written_append (version : CrateVersion) (options : EncodingOptions)
    (sent sent' : List (LogMsg StoreId Details Batch × ByteVec)) :
    written version options (sent ++ sent') =
      written version options sent ++ framesBytes (sent'.map fun p => p.1.frame p.2) := by
  simp [written, framesBytes]

theorem checkedAdd_ok {a b c : UInt64} (h : checkedAdd a b = .ok c) :
    c.toNat = a.toNat + b.toNat ∧ a.toNat + b.toNat < 18446744073709551616 := by
  unfold checkedAdd at h
  split at h
  · rename_i hlt
    cases h
    refine ⟨?_, hlt⟩
    exact Nat.mod_eq_of_lt hlt
  · cases h

theorem toNat_ofNat_length {n : Nat} (h : n ≤ ISIZE_MAX + MessageHeader.ENCODED_SIZE_BYTES) :
    (UInt64.ofNat n).toNat = n := by
  unfold ISIZE_MAX MessageHeader.ENCODED_SIZE_BYTES at h
  have hlt : n < UInt64.size := by
    unfold UInt64.size
    omega
  exact UInt64.toNat_ofNat_of_lt' hlt

/-- A row is that of a message, and locates its payload in what was written. -/
def Located (T : Transport StoreId Details Batch ChunkBatch Chunk) (version : CrateVersion)
    (options : EncodingOptions) (sent : List (LogMsg StoreId Details Batch × ByteVec)) (storeId : StoreId)
    (row : ManifestRow Chunk) : Prop :=
  ∃ before batch payload after chunkBatch, sent = before ++ (.arrowMsg storeId batch, payload) :: after ∧
    T.chunkBatch batch = .ok chunkBatch ∧ T.fromChunkBatch chunkBatch = .ok row.chunk ∧
    row.byteOffsetExcludingHeader.toNat =
      (written version options before).length + MessageHeader.ENCODED_SIZE_BYTES ∧
    row.byteSizeExcludingHeader.toNat = payload.1.length

structure Encoder.Open (T : Transport StoreId Details Batch ChunkBatch Chunk) (version : CrateVersion)
    (options : EncodingOptions) (e : Encoder StoreId Chunk)
    (sent : List (LogMsg StoreId Details Batch × ByteVec)) : Prop where
  isFinished : e.isFinished = false
  compression : e.compression = options.compression
  write : e.write = some (written version options sent)
  numWritten : e.numWritten.toNat = (written version options sent).length
  sent_ok : ∀ p ∈ sent, T.toTransport options.compression p.1 = .ok p.2
  located : ∀ fs, e.footerState = some fs → ∀ storeId rows, fs.lookup storeId = some rows →
    ∀ row ∈ rows, Located T version options sent storeId row
  stores : ∀ fs, e.footerState = some fs → ∀ storeId, storeId ∈ fs.keys ↔
    ∃ batch payload chunkBatch, (.arrowMsg storeId batch, payload) ∈ sent ∧ T.chunkBatch batch = .ok chunkBatch

variable {T crc} {version : CrateVersion} {options : EncodingOptions} {e e' : Encoder StoreId Chunk}
  {sent : List (LogMsg StoreId Details Batch × ByteVec)}

omit [DecidableEq StoreId] in
theorem Located.mono {storeId : StoreId} {row : ManifestRow Chunk}
    (h : Located T version options sent storeId row) (sent' : List (LogMsg StoreId Details Batch × ByteVec)) :
    Located T version options (sent ++ sent') storeId row := by
  obtain ⟨before, batch, payload, after, chunkBatch, rfl, hrest⟩ := h
  exact ⟨before, batch, payload, after ++ sent', chunkBatch, by simp, hrest⟩

namespace Encoder

theorem open_newEager (T : Transport StoreId Details Batch ChunkBatch Chunk) (version : CrateVersion)
    (options : EncodingOptions) : (newEager version options : Encoder StoreId Chunk).Open T version options [] where
  isFinished := rfl
  compression := rfl
  write := by simp [newEager, written]
  numWritten := by
    rfl
  sent_ok := fun p hp => absurd hp not_mem_nil
  located := by
    intro fs hfs storeId rows hrows
    cases hfs
    simp at hrows
  stores := by
    intro fs hfs storeId
    cases hfs
    simp

theorem Open.writeEncodable (h : e.Open T version options sent) (f : Frame)
    {r : Except EncodeError (UInt64 × Span)} (hw : e.writeEncodable f.bytes = .ok (e', r)) :
    ∃ n span, r = .ok (n, span) ∧ n.toNat = f.bytes.length ∧
      span.start.toNat = (written version options sent).length + MessageHeader.ENCODED_SIZE_BYTES ∧
      span.len.toNat = f.payload.length ∧ e'.isFinished = false ∧ e'.compression = e.compression ∧
      e'.footerState = e.footerState ∧ e'.write = some (written version options sent ++ f.bytes) ∧
      e'.numWritten.toNat = (written version options sent ++ f.bytes).length := by
  unfold Encoder.writeEncodable at hw
  rw [h.isFinished, h.write] at hw
  simp only [Bool.false_eq_true, if_false, bind, Except.bind] at hw
  have hlen := f.bytes_length
  have hpayload := f.payload_le
  have hn : (UInt64.ofNat f.bytes.length).toNat = f.bytes.length := toNat_ofNat_length (by omega)
  have h16 : (UInt64.ofNat MessageHeader.ENCODED_SIZE_BYTES).toNat = MessageHeader.ENCODED_SIZE_BYTES := rfl
  cases hoffset : checkedAdd e.numWritten (UInt64.ofNat MessageHeader.ENCODED_SIZE_BYTES) with
  | error p => simp [hoffset] at hw
  | ok byteOffset =>
    cases hnum : checkedAdd e.numWritten (UInt64.ofNat f.bytes.length) with
    | error p => simp [hoffset, hnum] at hw
    | ok numWritten =>
      simp only [hoffset, hnum, pure, Except.pure, Except.ok.injEq, Prod.mk.injEq] at hw
      obtain ⟨rfl, rfl⟩ := hw
      have hstart := (checkedAdd_ok hoffset).1
      have htotal := (checkedAdd_ok hnum).1
      refine ⟨_, _, rfl, hn, ?_, ?_, rfl, rfl, rfl, rfl, ?_⟩
      · rw [hstart, h.numWritten, h16]
      · show (UInt64.ofNat f.bytes.length - UInt64.ofNat MessageHeader.ENCODED_SIZE_BYTES).toNat = f.payload.length
        rw [UInt64.toNat_sub_of_le, hn, h16, hlen]
        · omega
        · rw [UInt64.le_iff_toNat_le, hn, h16]
          omega
      · show numWritten.toNat = _
        rw [htotal, h.numWritten, hn, length_append]

theorem Open.append (h : e.Open T version options sent) (message : LogMsg StoreId Details Batch)
    {r : Except EncodeError UInt64} (ha : e.append T message = .ok (e', r)) :
    (∃ err, T.toTransport options.compression message = .error err ∧ r = .error err ∧ e' = e) ∨
      ∃ payload, T.toTransport options.compression message = .ok payload ∧
        e'.Open T version options (sent ++ [(message, payload)]) ∧ (e'.footerState.isSome = e.footerState.isSome) := by
  unfold Encoder.append at ha
  rw [h.compression] at ha
  cases htransport : T.toTransport options.compression message with
  | error err =>
    rw [htransport] at ha
    simp only [Except.ok.injEq, Prod.mk.injEq] at ha
    exact .inl ⟨err, rfl, ha.2.symm, ha.1.symm⟩
  | ok payload =>
    rw [htransport] at ha
    simp only [bind, Except.bind] at ha
    refine .inr ⟨payload, rfl, ?_⟩
    cases hwrite : e.writeEncodable (message.frame payload).bytes with
    | error p => simp [hwrite] at ha
    | ok result =>
      obtain ⟨e₁, r₁⟩ := result
      rw [hwrite] at ha
      dsimp only at ha
      obtain ⟨n, span, rfl, -, hstart, hlen, hfin, hcomp, hfs, hw, hnum⟩ := h.writeEncodable _ hwrite
      have hwritten : written version options (sent ++ [(message, payload)]) =
          written version options sent ++ (message.frame payload).bytes := by
        rw [written_append]
        simp
      have hsent : ∀ p ∈ sent ++ [(message, payload)], T.toTransport options.compression p.1 = .ok p.2 := by
        intro p hp
        rcases mem_append.mp hp with hp | hp
        · exact h.sent_ok p hp
        · obtain rfl := mem_singleton.mp hp
          exact htransport
      cases hstate : e₁.footerState with
      | none =>
        rw [hstate] at ha
        simp only [pure, Except.pure, Except.ok.injEq, Prod.mk.injEq] at ha
        obtain ⟨rfl, -⟩ := ha
        refine ⟨⟨hfin, hcomp.trans h.compression, hwritten ▸ hw, hwritten ▸ hnum, hsent, ?_, ?_⟩, ?_⟩
        · intro fs hfs'
          cases hstate.symm.trans hfs'
        · intro fs hfs'
          cases hstate.symm.trans hfs'
        · rw [← hfs]
      | some fs =>
        rw [hstate] at ha
        simp only [pure, Except.pure, Except.ok.injEq, Prod.mk.injEq] at ha
        obtain ⟨rfl, -⟩ := ha
        rw [hstate] at hfs
        refine ⟨⟨hfin, hcomp.trans h.compression, hwritten ▸ hw, hwritten ▸ hnum, hsent, ?_, ?_⟩, ?_⟩
        · intro fs' hfs' storeId rows hrows row hrow
          cases hfs'
          rcases FooterState.row_of_append hrows hrow with ⟨rows', hold, hrow'⟩ |
            ⟨batch, chunkBatch, rfl, hbatch, hchunk, hoffset, hsize⟩
          · exact (h.located fs hfs.symm storeId rows' hold row hrow').mono _
          · refine ⟨sent, batch, payload, [], chunkBatch, rfl, hbatch, hchunk, ?_, ?_⟩
            · rw [hoffset, hstart]
            · rw [hsize, hlen]
              rfl
        · intro fs' hfs' storeId
          cases hfs'
          rw [FooterState.mem_keys_append, h.stores fs hfs.symm storeId]
          constructor
          · intro hmem
            rcases hmem with ⟨batch, payload', chunkBatch, hmem, hbatch⟩ | ⟨batch, chunkBatch, rfl, hbatch⟩
            · exact ⟨batch, payload', chunkBatch, mem_append_left _ hmem, hbatch⟩
            · exact ⟨batch, payload, chunkBatch, mem_append_right _ (mem_singleton.mpr rfl), hbatch⟩
          · intro hmem
            obtain ⟨batch, payload', chunkBatch, hmem, hbatch⟩ := hmem
            rcases mem_append.mp hmem with hmem | hmem
            · exact .inl ⟨batch, payload', chunkBatch, hmem, hbatch⟩
            · obtain ⟨rfl, rfl⟩ := Prod.mk.inj (mem_singleton.mp hmem)
              exact .inr ⟨batch, chunkBatch, rfl, hbatch⟩
        · rw [← hfs]
          rfl

theorem Open.doNotEmitFooter (h : e.Open T version options sent) : e.doNotEmitFooter.Open T version options sent where
  isFinished := h.isFinished
  compression := h.compression
  write := h.write
  numWritten := h.numWritten
  sent_ok := h.sent_ok
  located := fun _ hfs => nomatch hfs
  stores := fun _ hfs => nomatch hfs

theorem Open.appendAll : ∀ {messages : List (LogMsg StoreId Details Batch)} {e e' : Encoder StoreId Chunk}
    {sent : List (LogMsg StoreId Details Batch × ByteVec)} {rs : List (Except EncodeError UInt64)},
    e.Open T version options sent → e.appendAll T messages = .ok (e', rs) →
      ∃ new, e'.Open T version options (sent ++ new) ∧ (new.map Prod.fst).Sublist messages ∧
        ((∀ r ∈ rs, ∃ n, r = .ok n) → new.map Prod.fst = messages) ∧
        e'.footerState.isSome = e.footerState.isSome
  | [], e, e', sent, rs, h, ha => by
    obtain ⟨rfl, rfl⟩ := Prod.mk.inj (Except.ok.inj ha)
    exact ⟨[], by simpa using h, .slnil, fun _ => rfl, rfl⟩
  | message :: messages, e, e', sent, rs, h, ha => by
    rw [Encoder.appendAll] at ha
    obtain ⟨⟨e₁, r⟩, hfirst, ha⟩ := bind_eq_ok.mp ha
    obtain ⟨⟨e₂, rs'⟩, hrest, ha⟩ := bind_eq_ok.mp ha
    obtain ⟨rfl, rfl⟩ := Prod.mk.inj (Except.ok.inj ha)
    rcases h.append message hfirst with ⟨err, -, rfl, rfl⟩ | ⟨payload, -, hopen, hsome⟩
    · obtain ⟨new, hopen', hsub, -, hsome'⟩ := Open.appendAll h hrest
      refine ⟨new, hopen', hsub.cons message, fun hall => ?_, hsome'⟩
      obtain ⟨n, hn⟩ := hall (.error err) mem_cons_self
      cases hn
    · obtain ⟨new, hopen', hsub, hall', hsome'⟩ := Open.appendAll hopen hrest
      refine ⟨(message, payload) :: new, ?_, hsub.cons_cons message, fun hall => ?_, hsome'.trans hsome⟩
      · simpa using hopen'
      · rw [map_cons, hall' fun r hr => hall r (mem_cons_of_mem _ hr)]

theorem append_parses (hsome : e.footerState.isSome) {storeId : StoreId} {batch : Batch} {n : UInt64}
    (ha : e.append T (.arrowMsg storeId batch) = .ok (e', .ok n)) (hopen : e.Open T version options sent) :
    ∃ chunkBatch, T.chunkBatch batch = .ok chunkBatch := by
  unfold Encoder.append at ha
  cases htransport : T.toTransport e.compression (.arrowMsg storeId batch) with
  | error err =>
    rw [htransport] at ha
    cases ha
  | ok payload =>
    rw [htransport] at ha
    obtain ⟨⟨e₁, r₁⟩, hwrite, ha⟩ := bind_eq_ok.mp ha
    obtain ⟨n', span, rfl, -, -, -, -, -, hfs, -⟩ := hopen.writeEncodable _ hwrite
    rw [← hfs] at hsome
    obtain ⟨fs, hfs'⟩ := Option.isSome_iff_exists.mp hsome
    rw [hfs'] at ha
    have hresult := (Prod.mk.inj (Except.ok.inj ha)).2
    unfold FooterState.append at hresult
    dsimp only at hresult
    cases hbatch : T.chunkBatch batch with
    | ok chunkBatch => exact ⟨chunkBatch, rfl⟩
    | error err =>
      rw [hbatch] at hresult
      cases hresult

theorem appendAll_parses : ∀ {messages : List (LogMsg StoreId Details Batch)} {e e' : Encoder StoreId Chunk}
    {sent : List (LogMsg StoreId Details Batch × ByteVec)} {rs : List (Except EncodeError UInt64)},
    e.Open T version options sent → e.footerState.isSome → e.appendAll T messages = .ok (e', rs) →
    (∀ r ∈ rs, ∃ n, r = .ok n) → ∀ storeId batch, .arrowMsg storeId batch ∈ messages →
      ∃ chunkBatch, T.chunkBatch batch = .ok chunkBatch
  | [], _, _, _, _, _, _, _, _, storeId, batch, hmem => absurd hmem not_mem_nil
  | message :: messages, e, e', sent, rs, h, hsome, ha, hall, storeId, batch, hmem => by
    rw [Encoder.appendAll] at ha
    obtain ⟨⟨e₁, r⟩, hfirst, ha⟩ := bind_eq_ok.mp ha
    obtain ⟨⟨e₂, rs'⟩, hrest, ha⟩ := bind_eq_ok.mp ha
    obtain ⟨rfl, rfl⟩ := Prod.mk.inj (Except.ok.inj ha)
    obtain ⟨n, rfl⟩ := hall r mem_cons_self
    rcases mem_cons.mp hmem with rfl | hmem
    · exact append_parses hsome hfirst h
    · rcases h.append message hfirst with ⟨err, -, hr, -⟩ | ⟨payload, -, hopen, hsome'⟩
      · cases hr
      · exact appendAll_parses hopen (hsome'.trans hsome) hrest (fun r hr => hall r (mem_cons_of_mem _ hr))
          storeId batch hmem

theorem Open.finish (h : e.Open T version options sent) (hf : e.finish T crc = .ok (e', .ok ())) :
    (e.footerState = none ∧ e'.write = some (written version options sent)) ∨
      ∃ fs footer offset, e.footerState = some fs ∧ T.encodeFooter fs = .ok footer ∧
        offset.toNat = (written version options sent).length + MessageHeader.ENCODED_SIZE_BYTES ∧
        offset.toNat + footer.1.length < 18446744073709551616 ∧
        e'.write = some (written version options sent ++ Frame.bytes ⟨.end, footer.1, footer.2⟩ ++
          (StreamFooter.fromDlrFooterBytes crc offset footer.1).toDlrBytes) := by
  unfold Encoder.finish at hf
  rw [h.isFinished, h.write] at hf
  simp only [Bool.false_eq_true, if_false] at hf
  cases hstate : e.footerState with
  | none =>
    rw [hstate] at hf
    simp only [Except.ok.injEq, Prod.mk.injEq] at hf
    refine .inl ⟨rfl, ?_⟩
    rw [← hf.1]
  | some fs =>
    rw [hstate] at hf
    dsimp only at hf
    cases hfooter : T.encodeFooter fs with
    | error err =>
      rw [hfooter] at hf
      simp at hf
    | ok footer =>
      rw [hfooter] at hf
      obtain ⟨e₁, himpl, hf⟩ := bind_eq_ok.mp hf
      obtain ⟨rfl, -⟩ := Prod.mk.inj (Except.ok.inj hf)
      unfold finishImpl at himpl
      obtain ⟨offset, hoffset, himpl⟩ := bind_eq_ok.mp himpl
      obtain ⟨numWritten, hnum, himpl⟩ := bind_eq_ok.mp himpl
      obtain ⟨numWritten', hnum', himpl⟩ := bind_eq_ok.mp himpl
      cases himpl
      have hlen : (UInt64.ofNat footer.1.length).toNat = footer.1.length :=
        toNat_ofNat_length (Nat.le_trans footer.2 (Nat.le_add_right _ _))
      obtain ⟨hstart, -⟩ := checkedAdd_ok hoffset
      obtain ⟨-, hend⟩ := checkedAdd_ok hnum
      refine .inr ⟨fs, footer, offset, rfl, hfooter, ?_, ?_, ?_⟩
      · rw [hstart, h.numWritten, MessageHeader.toDlrBytes_length]
        rfl
      · rw [hlen] at hend
        exact hend
      · simp [Frame.bytes, Frame.header]

end Encoder

end

end Dalaran
