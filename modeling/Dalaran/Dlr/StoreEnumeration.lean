import Mathlib.Order.Lattice
import Dalaran.Dlr.FooterReader

/-
  The stores of a file (`enumerate_dlr_stores` in `footer_reader.rs`).

  With a footer, the stores are those that have a manifest; without one, those
  that the messages announce, found by a scan that skips over chunks. A file
  written by the encoder has the same stores either way exactly if the stores
  announced are the stores of the chunks (`enumerateDlrStores_agree_iff`).

  `RrdFooter::from_dlr_bytes` with its conversion is a parameter, which gives the
  stores of the manifests; so is the application id of a store.

  Correspondence (Rust ↔ Lean):
    `enumerate_legacy_metadata` ↔ `enumerateLegacyMetadata`, its loop `scan`
    `Vec::sort`, `Vec::dedup` ↔ `List.mergeSort`, `dedup`
-/

namespace Dalaran

open List MessageHeader Encoder

variable {StoreId AppId Details Batch ChunkBatch Chunk Cache Manifest : Type}

structure RrdMetadata (StoreId AppId : Type) where
  storeIds : List StoreId
  defaultBlueprintByAppId : Assoc AppId StoreId

/-- Remove elements that stand behind an equal one. -/
def dedup {α : Type} [DecidableEq α] : List α → List α
  | [] => []
  | [a] => [a]
  | a :: b :: l => if a = b then dedup (b :: l) else a :: dedup (b :: l)

def advance (offset len : Nat) : Except Fault Nat :=
  if offset + len < 18446744073709551616 then .ok (offset + len) else .error (.panic .addOverflow)

/-- What a message tells about the stores of a file. -/
def RrdMetadata.add [DecidableEq AppId] (applicationId : StoreId → AppId) (found : RrdMetadata StoreId AppId) :
    LogMsg StoreId Details Batch → RrdMetadata StoreId AppId
  | .setStoreInfo storeId _ _ => { found with storeIds := found.storeIds ++ [storeId] }
  | .blueprintActivationCommand blueprintId _ true =>
    { found with defaultBlueprintByAppId := found.defaultBlueprintByAppId.insert (applicationId blueprintId) blueprintId }
  | _ => found

section

variable [DecidableEq AppId] (applicationId : StoreId → AppId)
  (codec : Codec (LogMsg StoreId Details Batch) Cache Manifest)

/-- Walk over at most `n` messages. -/
def scan (version : CrateVersion) (file : Bytes) :
    Nat → Nat → Cache → RrdMetadata StoreId AppId → Except Fault (RrdMetadata StoreId AppId)
  | 0, _, _, found => .ok found
  | n + 1, offset, cache, found =>
    match readExactAt file offset MessageHeader.ENCODED_SIZE_BYTES with
    | none => .ok found
    | some msgHeaderBuf => do
      let offset ← advance offset MessageHeader.ENCODED_SIZE_BYTES
      let header ← MessageHeader.fromDlrBytes msgHeaderBuf
      match header.kind with
      | .end => pure found
      | .arrowMsg =>
        let offset ← advance offset header.len.toNat
        scan version file n offset cache found
      | kind =>
        match readExactAt file offset header.len.toNat with
        | none => .error (.err UNEXPECTED_EOF)
        | some payload =>
          let offset ← advance offset header.len.toNat
          match codec.decode cache (some version) kind payload with
          | .error fault => .error fault
          | .ok (message, cache) => scan version file n offset cache (found.add applicationId message)

variable [LinearOrder StoreId]

/-- The stores that the messages of a file announce. -/
def enumerateLegacyMetadata (cache : Cache) (file : Bytes) : Except Fault (RrdMetadata StoreId AppId) :=
  match readExactAt file 0 StreamHeader.ENCODED_SIZE_BYTES with
  | none => .error (.err UNEXPECTED_EOF)
  | some streamHeaderBuf => do
    let streamHeader ← StreamHeader.fromDlrBytes streamHeaderBuf
    let versionAndOptions ← streamHeader.toVersionAndOptions
    -- more steps than there are messages
    let found ← scan applicationId codec versionAndOptions.1 file (file.length + 1) StreamHeader.ENCODED_SIZE_BYTES
      cache ⟨[], ∅⟩
    let storeIds := dedup (found.storeIds.mergeSort fun a b => decide (a ≤ b))
    pure ⟨storeIds, Assoc.filterMap found.defaultBlueprintByAppId fun _ storeId =>
      if storeIds.contains storeId then some storeId else none⟩

def enumerateDlrStores (footerStores : Bytes → Except CodecError (List StoreId)) (crc : Bytes → UInt32)
    (cache : Cache) (file : Bytes) : Except Fault (List StoreId) := do
  match ← readDlrFooterPayload crc file with
  | some payload =>
    match footerStores payload with
    | .error e => .error (.err e)
    | .ok storeIds => pure (storeIds.mergeSort fun a b => decide (a ≤ b))
  | none =>
    let metadata ← enumerateLegacyMetadata applicationId codec cache file
    pure metadata.storeIds

end

/-! ## Sorting keeps the members -/

theorem mem_dedup {α : Type} [DecidableEq α] {a : α} : ∀ {l : List α}, a ∈ dedup l ↔ a ∈ l
  | [] => Iff.rfl
  | [b] => Iff.rfl
  | b :: c :: l => by
    have ih := @mem_dedup α _ a (c :: l)
    unfold dedup
    split
    · rename_i heq
      subst heq
      rw [ih]
      simp
    · rw [mem_cons, ih, mem_cons, mem_cons, mem_cons]

/-! ## The scan of an encoded stream -/

def LogMsg.announced : LogMsg StoreId Details Batch → Option StoreId
  | .setStoreInfo storeId _ _ => some storeId
  | .arrowMsg _ _ => none
  | .blueprintActivationCommand _ _ _ => none

theorem mem_announced {messages : List (LogMsg StoreId Details Batch)} {storeId : StoreId} :
    storeId ∈ messages.filterMap LogMsg.announced ↔
      ∃ version details, .setStoreInfo storeId version details ∈ messages := by
  rw [mem_filterMap]
  constructor
  · intro h
    obtain ⟨message, hmem, hannounced⟩ := h
    cases message with
    | setStoreInfo s version details =>
      cases hannounced
      exact ⟨version, details, hmem⟩
    | arrowMsg s batch => cases hannounced
    | blueprintActivationCommand s active default => cases hannounced
  · intro h
    obtain ⟨version, details, hmem⟩ := h
    exact ⟨_, hmem, rfl⟩

section

variable [DecidableEq AppId] {applicationId : StoreId → AppId} {T : Transport StoreId Details Batch ChunkBatch Chunk}
  {fromTransport : Cache → MessageKind → Bytes → Except Fault (LogMsg StoreId Details Batch × Cache)}
  {decodeFooter : Bytes → Except CodecError (List Manifest)}

theorem add_storeIds (found : RrdMetadata StoreId AppId) (version : Option CrateVersion)
    (message : LogMsg StoreId Details Batch) :
    (found.add applicationId (message.patchVersion version)).storeIds = found.storeIds ++ message.announced.toList := by
  cases message with
  | setStoreInfo s v details => rfl
  | arrowMsg s batch =>
    rw [LogMsg.announced, Option.toList, append_nil]
    rfl
  | blueprintActivationCommand s active default =>
    rw [LogMsg.announced, Option.toList, append_nil]
    cases default <;> rfl

theorem advance_ok {offset len : Nat} (h : offset + len < 18446744073709551616) :
    advance offset len = .ok (offset + len) := if_pos h

theorem scan_frame (hinv : Inverse T fromTransport decodeFooter) (version : CrateVersion) {compression : Compression}
    {message : LogMsg StoreId Details Batch} {payload : ByteVec}
    (htransport : T.toTransport compression message = .ok payload) (before after : Bytes)
    (hfile : (before ++ (message.frame payload).bytes ++ after).length < 18446744073709551616) (n : Nat) (cache : Cache)
    (found : RrdMetadata StoreId AppId) :
    ∃ cache' found', found'.storeIds = found.storeIds ++ message.announced.toList ∧
      scan applicationId (appCodec fromTransport decodeFooter) version
          (before ++ (message.frame payload).bytes ++ after) (n + 1) before.length cache found =
        scan applicationId (appCodec fromTransport decodeFooter) version
          (before ++ (message.frame payload).bytes ++ after) n (before ++ (message.frame payload).bytes).length
          cache' found' := by
  have hframe := (message.frame payload).bytes_length
  have hlen := (message.frame payload).header_len
  have hheader := toDlrBytes_length (message.frame payload).header
  rw [length_append, length_append] at hfile
  have hbuf : readExactAt (before ++ (message.frame payload).bytes ++ after) before.length
      MessageHeader.ENCODED_SIZE_BYTES = some (message.frame payload).header.toDlrBytes := by
    rw [readExactAt_of_le (by rw [length_append, length_append]; omega)]
    have hparts : before ++ (message.frame payload).bytes ++ after =
        before ++ (message.frame payload).header.toDlrBytes ++ (payload.1 ++ after) := by
      simp [Frame.bytes, LogMsg.frame]
    rw [hparts, take_drop_part before _ _ rfl hheader.symm]
  have hpayload : readExactAt (before ++ (message.frame payload).bytes ++ after)
      (before.length + MessageHeader.ENCODED_SIZE_BYTES) (message.frame payload).header.len.toNat =
      some payload.1 := by
    rw [readExactAt_of_le (by rw [length_append, length_append]; omega)]
    have hparts : before ++ (message.frame payload).bytes ++ after =
        (before ++ (message.frame payload).header.toDlrBytes) ++ payload.1 ++ after := by
      simp [Frame.bytes, LogMsg.frame]
    rw [hparts, take_drop_part (before ++ (message.frame payload).header.toDlrBytes) payload.1 after
      (by rw [length_append, hheader]) hlen]
  have hadvance := @advance_ok before.length MessageHeader.ENCODED_SIZE_BYTES (by omega)
  have hadvance' := @advance_ok (before.length + MessageHeader.ENCODED_SIZE_BYTES)
    (message.frame payload).header.len.toNat (by omega)
  have hend : (before ++ (message.frame payload).bytes).length =
      before.length + MessageHeader.ENCODED_SIZE_BYTES + (message.frame payload).header.len.toNat := by
    rw [length_append]
    omega
  obtain ⟨cache', hcodec⟩ := hinv.decode htransport cache (some version)
  rw [scan, hbuf]
  simp only [bind, Except.bind, hadvance, fromDlrBytes_toDlrBytes]
  cases message with
  | arrowMsg s batch =>
    refine ⟨cache, found, ?_, ?_⟩
    · rw [LogMsg.announced, Option.toList, append_nil]
    · rw [hend]
      simp only [LogMsg.frame, Frame.header, LogMsg.kind] at hadvance' ⊢
      rw [hadvance']
  | setStoreInfo | blueprintActivationCommand =>
    refine ⟨cache', found.add applicationId _, add_storeIds found (some version) _, ?_⟩
    rw [hend]
    simp only [LogMsg.frame, Frame.header, LogMsg.kind] at hadvance' hpayload hcodec ⊢
    rw [hpayload]
    simp only [hadvance', hcodec]

theorem scan_sent (hinv : Inverse T fromTransport decodeFooter) (version : CrateVersion) (compression : Compression) :
    ∀ (sent : List (LogMsg StoreId Details Batch × ByteVec)) (before : Bytes) (n : Nat) (cache : Cache)
      (found : RrdMetadata StoreId AppId), (∀ p ∈ sent, T.toTransport compression p.1 = .ok p.2) →
      (before ++ framesBytes (sent.map fun p => p.1.frame p.2)).length < 18446744073709551616 → sent.length < n →
      ∃ found', scan applicationId (appCodec fromTransport decodeFooter) version
          (before ++ framesBytes (sent.map fun p => p.1.frame p.2)) n before.length cache found = .ok found' ∧
        found'.storeIds = found.storeIds ++ (sent.map Prod.fst).filterMap LogMsg.announced
  | [], before, n + 1, cache, found, _, _, _ => by
    refine ⟨found, ?_, by simp⟩
    have heof : readExactAt before before.length MessageHeader.ENCODED_SIZE_BYTES = none := by
      unfold readExactAt
      rw [if_neg]
      unfold MessageHeader.ENCODED_SIZE_BYTES
      omega
    rw [map_nil, framesBytes_nil, append_nil, scan, heof]
  | p :: sent, before, n + 1, cache, found, hsent, hfile, hn => by
    have htransport := hsent p mem_cons_self
    have hparts : before ++ framesBytes ((p :: sent).map fun p => p.1.frame p.2) =
        before ++ (p.1.frame p.2).bytes ++ framesBytes (sent.map fun p => p.1.frame p.2) := by
      rw [map_cons, framesBytes_cons, append_assoc]
    rw [hparts] at hfile ⊢
    obtain ⟨cache', found', hids, hstep⟩ := @scan_frame _ _ _ _ _ _ _ _ _ applicationId T fromTransport decodeFooter
      hinv version compression p.1 p.2 htransport before _ hfile n cache found
    obtain ⟨found'', hrest, hids'⟩ := scan_sent hinv version compression sent (before ++ (p.1.frame p.2).bytes) n
      cache' found' (fun q hq => hsent q (mem_cons_of_mem _ hq)) hfile (Nat.lt_of_succ_lt_succ hn)
    refine ⟨found'', ?_, ?_⟩
    · rw [hstep, hrest]
    · rw [hids', hids, map_cons, filterMap_cons, append_assoc]
      cases p.1.announced <;> rfl

end

/-! ## Files without a footer -/

def EndsInFooter (file : Bytes) : Prop :=
  StreamFooter.Marked (file.drop (file.length - StreamFooter.ENCODED_SIZE_BYTES)) ∧
    0 < StreamFooter.numDlrFooters (file.drop (file.length - StreamFooter.ENCODED_SIZE_BYTES))

instance (file : Bytes) : Decidable (EndsInFooter file) := inferInstanceAs (Decidable (_ ∧ _))

theorem readDlrFooterPayload_none (crc : Bytes → UInt32) (version : FourBytes) (options : EncodingOptions)
    (body : Bytes) (hfile : ¬ EndsInFooter (StreamHeader.toDlrBytes ⟨DLR_FOURCC, version, options⟩ ++ body)) :
    readDlrFooterPayload crc (StreamHeader.toDlrBytes ⟨DLR_FOURCC, version, options⟩ ++ body) = .ok none := by
  have hhlen := StreamHeader.toDlrBytes_length ⟨DLR_FOURCC, version, options⟩
  have hlen : (StreamHeader.toDlrBytes ⟨DLR_FOURCC, version, options⟩ ++ body).length =
      StreamHeader.ENCODED_SIZE_BYTES + body.length := by
    rw [length_append, hhlen]
  have hbuf : readExactAt (StreamHeader.toDlrBytes ⟨DLR_FOURCC, version, options⟩ ++ body) 0
      StreamHeader.ENCODED_SIZE_BYTES = some (StreamHeader.toDlrBytes ⟨DLR_FOURCC, version, options⟩) := by
    rw [readExactAt_of_le (by omega), drop_zero, take_left' hhlen]
  generalize StreamHeader.toDlrBytes ⟨DLR_FOURCC, version, options⟩ ++ body = file at *
  unfold readDlrFooterPayload
  rw [if_neg (by omega), hbuf]
  simp only [bind, Except.bind, StreamHeader.fromDlrBytes_toDlrBytes]
  by_cases hshort : file.length < StreamFooter.ENCODED_SIZE_BYTES
  · rw [if_pos hshort]
    rfl
  · have htail : ((file.drop (file.length - StreamFooter.ENCODED_SIZE_BYTES)).take StreamFooter.ENCODED_SIZE_BYTES) =
        file.drop (file.length - StreamFooter.ENCODED_SIZE_BYTES) :=
      take_of_length_le (by rw [length_drop]; omega)
    rw [if_neg hshort, readExactAt_of_le (by omega), htail]
    dsimp only
    by_cases hmarked : StreamFooter.Marked (file.drop (file.length - StreamFooter.ENCODED_SIZE_BYTES))
    · have hcount : StreamFooter.numDlrFooters (file.drop (file.length - StreamFooter.ENCODED_SIZE_BYTES)) = 0 := by
        by_contra hne
        exact hfile ⟨hmarked, Nat.pos_of_ne_zero hne⟩
      rw [StreamFooter.fromDlrBytes_of_marked hmarked, hcount]
      rfl
    · obtain ⟨text, htext⟩ := StreamFooter.fromDlrBytes_of_not_marked hmarked
      rw [htext]
      rfl

theorem Stream.accepted_or (s : Stream StoreId Details Batch) :
    s.Accepted ∨ ∃ e, StreamHeader.toVersionAndOptions ⟨DLR_FOURCC, s.version.toBytes, s.options⟩ = .error (.err e) := by
  unfold Accepted StreamHeader.toVersionAndOptions
  dsimp only
  generalize (if s.version.toBytes = ⟨0, 0, 0, 0⟩ then (⟨0, 2, 0, none⟩ : CrateVersion)
    else .fromBytes s.version.toBytes) = version
  cases StreamHeader.isAncientUpstreamFile version with
  | true => exact .inr ⟨_, rfl⟩
  | false => exact .inl rfl

section

variable [DecidableEq AppId] [LinearOrder StoreId] {applicationId : StoreId → AppId}
  {T : Transport StoreId Details Batch ChunkBatch Chunk} {crc : Bytes → UInt32}
  {fromTransport : Cache → MessageKind → Bytes → Except Fault (LogMsg StoreId Details Batch × Cache)}
  {decodeFooter : Bytes → Except CodecError (List Manifest)}
  {footerStores : Bytes → Except CodecError (List StoreId)}

theorem enumerateDlrStores_of_scan (hinv : Inverse T fromTransport decodeFooter) (cache : Cache)
    (s : Stream StoreId Details Batch) {sent : List (LogMsg StoreId Details Batch × ByteVec)}
    (hsent : ∀ p ∈ sent, T.toTransport s.options.compression p.1 = .ok p.2)
    (hlt : (written s.version s.options sent).length < 18446744073709551616)
    (hfile : ¬ EndsInFooter (written s.version s.options sent)) :
    (s.Accepted → ∃ ids, enumerateDlrStores applicationId (appCodec fromTransport decodeFooter) footerStores crc cache
        (written s.version s.options sent) = .ok ids ∧
        ∀ storeId, storeId ∈ ids ↔ ∃ version details, .setStoreInfo storeId version details ∈ sent.map Prod.fst) ∧
      (¬ s.Accepted → ∃ e, enumerateDlrStores applicationId (appCodec fromTransport decodeFooter) footerStores crc cache
        (written s.version s.options sent) = .error e) := by
  have hhlen := s.header_length
  have hbuf : readExactAt (written s.version s.options sent) 0 StreamHeader.ENCODED_SIZE_BYTES = some s.header := by
    rw [readExactAt_of_le (by rw [written, length_append, StreamHeader.toDlrBytes_length]; omega), drop_zero,
      written, take_left' (StreamHeader.toDlrBytes_length _)]
    rfl
  have hnone : readDlrFooterPayload crc (written s.version s.options sent) = .ok none :=
    readDlrFooterPayload_none crc s.version.toBytes s.options _ hfile
  have hheader : StreamHeader.fromDlrBytes s.header = .ok ⟨DLR_FOURCC, s.version.toBytes, s.options⟩ :=
    StreamHeader.fromDlrBytes_toDlrBytes _ _
  unfold enumerateDlrStores
  rw [hnone]
  unfold enumerateLegacyMetadata
  rw [hbuf]
  simp only [bind, Except.bind, hheader]
  refine ⟨fun haccepted => ?_, fun hrefused => ?_⟩
  · have hcount : sent.length ≤ (written s.version s.options sent).length := by
      have hframes := length_le_framesBytes (sent.map fun p => p.1.frame p.2)
      rw [length_map] at hframes
      rw [written, length_append]
      omega
    obtain ⟨found, hscan, hids⟩ := @scan_sent _ _ _ _ _ _ _ _ _ applicationId T fromTransport decodeFooter hinv
      (.fromBytes s.version.toBytes) s.options.compression sent s.header ((written s.version s.options sent).length + 1)
      cache ⟨[], ∅⟩ hsent hlt (Nat.lt_succ_of_le hcount)
    rw [hhlen] at hscan
    rw [show StreamHeader.toVersionAndOptions _ = _ from haccepted]
    dsimp only
    rw [show scan _ _ _ (written s.version s.options sent) _ _ _ _ = _ from hscan]
    refine ⟨_, rfl, ?_⟩
    intro storeId
    rw [mem_dedup, mem_mergeSort, hids, nil_append, mem_announced]
  · obtain ⟨e, he⟩ := s.accepted_or.resolve_left hrefused
    rw [he]
    exact ⟨_, rfl⟩

theorem enumerateDlrStores_of_footer {version : CrateVersion} {options : EncodingOptions}
    {sent : List (LogMsg StoreId Details Batch × ByteVec)} (cache : Cache) {fs : FooterState StoreId Chunk}
    (hstores : ∀ payload, T.encodeFooter fs = .ok payload → ∃ ids, footerStores payload.1 = .ok ids ∧
      ∀ storeId, storeId ∈ ids ↔ storeId ∈ fs.keys)
    {footer : ByteVec} (hfooter : T.encodeFooter fs = .ok footer) {offset : UInt64}
    (hoffset : offset.toNat = (written version options sent).length + MessageHeader.ENCODED_SIZE_BYTES)
    (hlt : offset.toNat + footer.1.length < 18446744073709551616) :
    ∃ ids, enumerateDlrStores applicationId (appCodec fromTransport decodeFooter) footerStores crc cache
        (written version options sent ++ Frame.bytes ⟨.end, footer.1, footer.2⟩ ++
          (StreamFooter.fromDlrFooterBytes crc offset footer.1).toDlrBytes) = .ok ids ∧
      ∀ storeId, storeId ∈ ids ↔ storeId ∈ fs.keys := by
  obtain ⟨ids, hids, hmem⟩ := hstores footer hfooter
  have hread : readDlrFooterPayload crc (written version options sent ++ Frame.bytes ⟨.end, footer.1, footer.2⟩ ++
      (StreamFooter.fromDlrFooterBytes crc offset footer.1).toDlrBytes) = .ok (some footer.1) := by
    have hparts : written version options sent ++ Frame.bytes ⟨.end, footer.1, footer.2⟩ =
        StreamHeader.toDlrBytes ⟨DLR_FOURCC, version.toBytes, options⟩ ++
          (framesBytes (sent.map fun p => p.1.frame p.2) ++
            MessageHeader.toDlrBytes ⟨.end, UInt64.ofNat footer.1.length⟩) ++ footer.1 := by
      simp [written, Frame.bytes, Frame.header]
    rw [hparts]
    refine readDlrFooterPayload_of_footer crc version.toBytes options _ footer.1 offset footer.2 ?_ hlt
    rw [hoffset, written]
    simp only [length_append, toDlrBytes_length]
    omega
  refine ⟨ids.mergeSort fun a b => decide (a ≤ b), ?_, ?_⟩
  · unfold enumerateDlrStores
    rw [hread]
    simp only [bind, Except.bind, hids]
    rfl
  · intro storeId
    rw [mem_mergeSort, hmem]

/-- Footer and scan agree. For messages that an encoder writes once with a footer and once without one
(and whose last bytes are not a stream footer by chance), the two files list the same stores if and only
if the version is one that the scan accepts and the stores announced are the stores of the chunks. -/
theorem enumerateDlrStores_agree_iff (applicationId : StoreId → AppId)
    (T : Transport StoreId Details Batch ChunkBatch Chunk) (crc : Bytes → UInt32)
    (fromTransport : Cache → MessageKind → Bytes → Except Fault (LogMsg StoreId Details Batch × Cache))
    (decodeFooter : Bytes → Except CodecError (List Manifest)) (hinv : Inverse T fromTransport decodeFooter)
    (footerStores : Bytes → Except CodecError (List StoreId))
    (hstores : ∀ fs payload, T.encodeFooter fs = .ok payload → ∃ ids, footerStores payload.1 = .ok ids ∧
      ∀ storeId, storeId ∈ ids ↔ storeId ∈ fs.keys) (cache : Cache) (s : Stream StoreId Details Batch)
    (e₁ e₁' : Encoder StoreId Chunk) (rs₁ : List (Except EncodeError UInt64)) (withFooter : Bytes)
    (happend₁ : (Encoder.newEager s.version s.options).appendAll T s.messages = .ok (e₁, rs₁)) (hrs₁ : AllOk rs₁)
    (hfinish₁ : e₁.finish T crc = .ok (e₁', .ok ())) (hfile₁ : e₁'.write = some withFooter)
    (e₂ e₂' : Encoder StoreId Chunk) (rs₂ : List (Except EncodeError UInt64)) (withoutFooter : Bytes)
    (happend₂ : (Encoder.newEager s.version s.options).doNotEmitFooter.appendAll T s.messages = .ok (e₂, rs₂))
    (hrs₂ : AllOk rs₂) (hfinish₂ : e₂.finish T crc = .ok (e₂', .ok ())) (hfile₂ : e₂'.write = some withoutFooter)
    (hplain : ¬ EndsInFooter withoutFooter) :
    (∃ ids₁ ids₂, enumerateDlrStores applicationId (appCodec fromTransport decodeFooter) footerStores crc cache
        withFooter = .ok ids₁ ∧
      enumerateDlrStores applicationId (appCodec fromTransport decodeFooter) footerStores crc cache
        withoutFooter = .ok ids₂ ∧ ∀ storeId, storeId ∈ ids₁ ↔ storeId ∈ ids₂) ↔
    s.Accepted ∧ ∀ storeId, (∃ version details, .setStoreInfo storeId version details ∈ s.messages) ↔
      ∃ batch, .arrowMsg storeId batch ∈ s.messages := by
  obtain ⟨sent₁, hopen₁, -, hall₁, hsome₁⟩ := (open_newEager T s.version s.options).appendAll happend₁
  obtain ⟨sent₂, hopen₂, -, hall₂, hsome₂⟩ :=
    (open_newEager T s.version s.options).doNotEmitFooter.appendAll happend₂
  rw [nil_append] at hopen₁ hopen₂
  have hsent₁ := hall₁ hrs₁
  have hsent₂ := hall₂ hrs₂
  have hparses := appendAll_parses (open_newEager T s.version s.options) rfl happend₁ hrs₁
  -- the file with a footer lists the stores of the chunks
  have hfooter : ∃ ids, enumerateDlrStores applicationId (appCodec fromTransport decodeFooter) footerStores crc cache
      withFooter = .ok ids ∧ ∀ storeId, storeId ∈ ids ↔ ∃ batch, .arrowMsg storeId batch ∈ s.messages := by
    rcases hopen₁.finish hfinish₁ with ⟨hnone, -⟩ | ⟨fs, footer, offset, hfs, hencode, hoffset, hlt, hw⟩
    · rw [hnone] at hsome₁
      cases hsome₁
    · obtain rfl := Option.some.inj (hfile₁.symm.trans hw)
      obtain ⟨ids, hids, hmem⟩ := @enumerateDlrStores_of_footer _ _ _ _ _ _ _ _ _ _ applicationId T crc fromTransport
        decodeFooter footerStores s.version s.options sent₁ cache fs (hstores fs) footer hencode offset hoffset hlt
      refine ⟨ids, hids, ?_⟩
      intro storeId
      rw [hmem, hopen₁.stores fs hfs]
      constructor
      · intro h
        obtain ⟨batch, payload, -, hmem, -⟩ := h
        exact ⟨batch, hsent₁ ▸ mem_map.mpr ⟨_, hmem, rfl⟩⟩
      · intro h
        obtain ⟨batch, hmem⟩ := h
        obtain ⟨chunkBatch, hbatch⟩ := hparses storeId batch hmem
        rw [← hsent₁] at hmem
        obtain ⟨⟨message, payload⟩, hmem, rfl⟩ := mem_map.mp hmem
        exact ⟨batch, payload, chunkBatch, hmem, hbatch⟩
  -- the file without one lists the stores announced
  have hscan : (s.Accepted → ∃ ids, enumerateDlrStores applicationId (appCodec fromTransport decodeFooter) footerStores
        crc cache withoutFooter = .ok ids ∧
        ∀ storeId, storeId ∈ ids ↔ ∃ version details, .setStoreInfo storeId version details ∈ s.messages) ∧
      (¬ s.Accepted → ∃ e, enumerateDlrStores applicationId (appCodec fromTransport decodeFooter) footerStores
        crc cache withoutFooter = .error e) := by
    rcases hopen₂.finish hfinish₂ with ⟨-, hw⟩ | ⟨fs, footer, offset, hfs, -⟩
    · obtain rfl := Option.some.inj (hfile₂.symm.trans hw)
      have hlt : (written s.version s.options sent₂).length < 18446744073709551616 := by
        rw [← hopen₂.numWritten]
        exact e₂.numWritten.toNat_lt
      rw [← hsent₂]
      exact enumerateDlrStores_of_scan hinv cache s hopen₂.sent_ok hlt hplain
    · rw [hfs] at hsome₂
      cases hsome₂
  obtain ⟨ids₁, hids₁, hmem₁⟩ := hfooter
  constructor
  · intro h
    obtain ⟨ids, ids₂, hids, hids₂, hagree⟩ := h
    obtain rfl := Except.ok.inj (hids₁.symm.trans hids)
    by_cases haccepted : s.Accepted
    · obtain ⟨ids₂', hids₂', hmem₂⟩ := hscan.1 haccepted
      obtain rfl := Except.ok.inj (hids₂'.symm.trans hids₂)
      refine ⟨haccepted, ?_⟩
      intro storeId
      rw [← hmem₁, hagree, hmem₂]
    · obtain ⟨e, he⟩ := hscan.2 haccepted
      cases he.symm.trans hids₂
  · intro h
    obtain ⟨ids₂, hids₂, hmem₂⟩ := hscan.1 h.1
    refine ⟨ids₁, ids₂, hids₁, hids₂, ?_⟩
    intro storeId
    rw [hmem₁, hmem₂, h.2]

end

/-! ## Recordings with and without an announcement of every store -/

instance linearOrderUInt8 : LinearOrder UInt8 := LinearOrder.lift' UInt8.toNat fun _ _ => UInt8.toNat_inj.mp

def plainStores (payload : Bytes) : Except CodecError (List UInt8) := .ok payload

theorem plainStores_keys (fs : FooterState UInt8 UInt8) (payload : ByteVec)
    (h : plainTransport.encodeFooter fs = .ok payload) :
    ∃ ids, plainStores payload.1 = .ok ids ∧ ∀ storeId, storeId ∈ ids ↔ storeId ∈ fs.keys := by
  have hdef : plainTransport.encodeFooter fs = if h : fs.keys.length ≤ ISIZE_MAX then .ok ⟨fs.keys, h⟩
      else .error (.codec (.payload "capacity overflow")) := rfl
  rw [hdef] at h
  split at h
  · cases h
    exact ⟨fs.keys, rfl, fun _ => Iff.rfl⟩
  · cases h

def announced : Stream UInt8 Unit UInt8 where
  version := .LOCAL
  options := .PROTOBUF_UNCOMPRESSED
  messages := oneChunk

theorem enumerateDlrStores_agree_iff_oneChunk : ∃ e₁ e₁' rs₁ withFooter e₂ e₂' rs₂ withoutFooter,
    (Encoder.newEager .LOCAL .PROTOBUF_UNCOMPRESSED).appendAll plainTransport oneChunk = .ok (e₁, rs₁) ∧
    e₁.finish plainTransport (fun _ => 0) = .ok (e₁', .ok ()) ∧ e₁'.write = some withFooter ∧
    (Encoder.newEager .LOCAL .PROTOBUF_UNCOMPRESSED).doNotEmitFooter.appendAll plainTransport oneChunk = .ok (e₂, rs₂) ∧
    e₂.finish plainTransport (fun _ => 0) = .ok (e₂', .ok ()) ∧ e₂'.write = some withoutFooter ∧
    ∃ ids₁ ids₂, enumerateDlrStores (id : UInt8 → UInt8) (appCodec fromPlain plainFooter) plainStores (fun _ => 0) ()
        withFooter = .ok ids₁ ∧
      enumerateDlrStores (id : UInt8 → UInt8) (appCodec fromPlain plainFooter) plainStores (fun _ => 0) ()
        withoutFooter = .ok ids₂ ∧ ∀ storeId, storeId ∈ ids₁ ↔ storeId ∈ ids₂ := by
  refine ⟨_, _, _, _, _, _, _, _, rfl, rfl, rfl, rfl, rfl, rfl, ?_⟩
  refine (enumerateDlrStores_agree_iff id plainTransport (fun _ => 0) fromPlain plainFooter inverse_plain plainStores
    plainStores_keys () announced _ _ _ _ rfl ?_ rfl rfl _ _ _ _ rfl ?_ rfl rfl (by decide)).mpr ⟨rfl, ?_⟩
  · intro r hr
    obtain rfl | hr := mem_cons.mp hr
    · exact ⟨_, rfl⟩
    · exact ⟨_, mem_singleton.mp hr⟩
  · intro r hr
    obtain rfl | hr := mem_cons.mp hr
    · exact ⟨_, rfl⟩
    · exact ⟨_, mem_singleton.mp hr⟩
  · intro storeId
    simp [announced, oneChunk]

def unannounced : List (LogMsg UInt8 Unit UInt8) := [.setStoreInfo 1 none (), .arrowMsg 1 2, .arrowMsg 3 4]

/-- The footer lists the store, the scan does not. -/
theorem enumerateDlrStores_disagree : ∃ e₁ e₁' rs₁ withFooter e₂ e₂' rs₂ withoutFooter ids₁ ids₂,
    (Encoder.newEager .LOCAL .PROTOBUF_UNCOMPRESSED).appendAll plainTransport unannounced = .ok (e₁, rs₁) ∧
    e₁.finish plainTransport (fun _ => 0) = .ok (e₁', .ok ()) ∧ e₁'.write = some withFooter ∧
    (Encoder.newEager .LOCAL .PROTOBUF_UNCOMPRESSED).doNotEmitFooter.appendAll plainTransport unannounced =
      .ok (e₂, rs₂) ∧
    e₂.finish plainTransport (fun _ => 0) = .ok (e₂', .ok ()) ∧ e₂'.write = some withoutFooter ∧
    enumerateDlrStores (id : UInt8 → UInt8) (appCodec fromPlain plainFooter) plainStores (fun _ => 0) ()
      withFooter = .ok ids₁ ∧
    enumerateDlrStores (id : UInt8 → UInt8) (appCodec fromPlain plainFooter) plainStores (fun _ => 0) ()
      withoutFooter = .ok ids₂ ∧ 3 ∈ ids₁ ∧ 3 ∉ ids₂ := by
  refine ⟨_, _, _, _, _, _, _, _, [3, 1].mergeSort fun a b => decide (a ≤ b),
    @dedup _ LinearOrder.toDecidableEq ([1].mergeSort fun a b => decide (a ≤ b)), rfl, rfl, rfl, rfl, rfl, rfl, rfl, rfl, ?_, ?_⟩
  · rw [mem_mergeSort]
    decide
  · intro h
    have h := mem_mergeSort.mp (@mem_dedup _ LinearOrder.toDecidableEq _ _ |>.mp h)
    revert h
    decide

end Dalaran
