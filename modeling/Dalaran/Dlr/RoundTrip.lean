import Dalaran.Dlr.Encoder

/-
  Streams that were encoded are decoded.

  Several streams may stand one behind the other, each with an end or without one.
  Behind one without an end a decoder waits for a message header, and peeks at the
  header of the next stream, which is none (`move_nextStream`).

  What comes out is what went in, with two exceptions the source makes. The version
  in a `SetStoreInfo` is replaced by that of its stream, and a stream of a version
  that only upstream can have written is refused.

  Correspondence (Rust ↔ Lean):
    `log_msg_transport_to_app` ↔ the parameter `fromTransport`
    `ToApplication for Msg` (patched version) ↔ `LogMsg.patchVersion`, `appCodec`
    `Encoder::{encode, encode_into}`, `Drop` ↔ `Encodes`
-/

namespace Dalaran

open Reader LittleEndian List Encoder StreamHeader

variable {StoreId Details Batch ChunkBatch Chunk Cache Manifest : Type}

/-- The version of a store is that of the stream it came in. -/
def LogMsg.patchVersion (patchedVersion : Option CrateVersion) :
    LogMsg StoreId Details Batch → LogMsg StoreId Details Batch
  | .setStoreInfo storeId storeVersion details => .setStoreInfo storeId (patchedVersion.or storeVersion) details
  | message => message

/-- The codec of a decoder of `LogMsg`s. -/
def appCodec (fromTransport : Cache → MessageKind → Bytes → Except Fault (LogMsg StoreId Details Batch × Cache))
    (decodeFooter : Bytes → Except CodecError (List Manifest)) :
    Codec (LogMsg StoreId Details Batch) Cache Manifest where
  decode := fun cache version kind bytes =>
    (fromTransport cache kind bytes).map fun r => (r.1.patchVersion version, r.2)
  decodeFooter := decodeFooter

structure Inverse (T : Transport StoreId Details Batch ChunkBatch Chunk)
    (fromTransport : Cache → MessageKind → Bytes → Except Fault (LogMsg StoreId Details Batch × Cache))
    (decodeFooter : Bytes → Except CodecError (List Manifest)) : Prop where
  message : ∀ compression message payload cache, T.toTransport compression message = .ok payload →
    ∃ cache', fromTransport cache message.kind payload.1 = .ok (message, cache')
  footer : ∀ fs payload, T.encodeFooter fs = .ok payload → ∃ manifests, decodeFooter payload.1 = .ok manifests

structure Stream (StoreId Details Batch : Type) where
  version : CrateVersion
  options : EncodingOptions
  messages : List (LogMsg StoreId Details Batch)

section

variable [DecidableEq StoreId]

def AllOk (rs : List (Except EncodeError UInt64)) : Prop := ∀ r ∈ rs, ∃ n, r = .ok n

inductive Encodes (T : Transport StoreId Details Batch ChunkBatch Chunk) (crc : Bytes → UInt32) :
    Stream StoreId Details Batch → Bytes → Prop where
  | finished {s : Stream StoreId Details Batch} {e e' : Encoder StoreId Chunk}
      {rs : List (Except EncodeError UInt64)} {bytes : Bytes}
      (happend : (Encoder.newEager s.version s.options).appendAll T s.messages = .ok (e, rs)) (hrs : AllOk rs)
      (hfinish : e.finish T crc = .ok (e', .ok ())) (hbytes : e'.write = some bytes) : Encodes T crc s bytes
  | withoutFooter {s : Stream StoreId Details Batch} {e e' : Encoder StoreId Chunk}
      {rs : List (Except EncodeError UInt64)} {bytes : Bytes}
      (happend : (Encoder.newEager s.version s.options).doNotEmitFooter.appendAll T s.messages = .ok (e, rs))
      (hrs : AllOk rs) (hfinish : e.finish T crc = .ok (e', .ok ())) (hbytes : e'.write = some bytes) :
      Encodes T crc s bytes
  | omitted {s : Stream StoreId Details Batch} {e : Encoder StoreId Chunk}
      {rs : List (Except EncodeError UInt64)} {bytes : Bytes}
      (happend : (Encoder.newEager s.version s.options).appendAll T s.messages = .ok (e, rs)) (hrs : AllOk rs)
      (hbytes : e.write = some bytes) : Encodes T crc s bytes

/-- What stands at the end of an encoded stream. -/
def IsEnding (T : Transport StoreId Details Batch ChunkBatch Chunk) (crc : Bytes → UInt32) (ending : Bytes) : Prop :=
  ending = [] ∨ ∃ fs footer offset, T.encodeFooter fs = .ok footer ∧
    offset.toNat + footer.1.length < 18446744073709551616 ∧
    ending = Frame.bytes ⟨.end, footer.1, footer.length_le⟩ ++ (StreamFooter.fromDlrFooterBytes crc offset footer.1).toDlrBytes

variable {T : Transport StoreId Details Batch ChunkBatch Chunk} {crc : Bytes → UInt32}

theorem Encodes.bytes_eq {s : Stream StoreId Details Batch} {bytes : Bytes} (h : Encodes T crc s bytes) :
    ∃ sent ending, sent.map Prod.fst = s.messages ∧
      (∀ p ∈ sent, T.toTransport s.options.compression p.1 = .ok p.2) ∧ IsEnding T crc ending ∧
      bytes = written s.version s.options sent ++ ending := by
  cases h with
  | finished happend hrs hfinish hbytes =>
    obtain ⟨sent, hopen, -, hall, -⟩ := (open_newEager T s.version s.options).appendAll happend
    rcases hopen.finish hfinish with ⟨-, hw⟩ | ⟨fs, footer, offset, -, hfooter, -, hlt, hw⟩
    · refine ⟨sent, [], hall hrs, hopen.sent_ok, .inl rfl, ?_⟩
      rw [append_nil]
      exact Option.mem_unique hbytes hw
    · refine ⟨sent, _, hall hrs, hopen.sent_ok, .inr ⟨fs, footer, offset, hfooter, hlt, rfl⟩, ?_⟩
      rw [← append_assoc]
      exact Option.mem_unique hbytes hw
  | withoutFooter happend hrs hfinish hbytes =>
    obtain ⟨sent, hopen, -, hall, hsome⟩ := (open_newEager T s.version s.options).doNotEmitFooter.appendAll happend
    refine ⟨sent, [], hall hrs, hopen.sent_ok, .inl rfl, ?_⟩
    rw [append_nil]
    rcases hopen.finish hfinish with ⟨-, hw⟩ | ⟨fs, footer, offset, hfs, -⟩
    · exact Option.mem_unique hbytes hw
    · rw [hfs] at hsome
      cases hsome
  | omitted happend hrs hbytes =>
    obtain ⟨sent, hopen, -, hall, -⟩ := (open_newEager T s.version s.options).appendAll happend
    refine ⟨sent, [], hall hrs, hopen.sent_ok, .inl rfl, ?_⟩
    rw [append_nil]
    exact Option.mem_unique hbytes hopen.write

end

/-! ## The way through a stream -/

/-- A version that a decoder takes. -/
def Stream.Accepted (s : Stream StoreId Details Batch) : Prop :=
  (StreamHeader.toVersionAndOptions ⟨DLR_FOURCC, s.version.toBytes, s.options⟩) =
    .ok (.fromBytes s.version.toBytes, s.options)

def Stream.header (s : Stream StoreId Details Batch) : Bytes :=
  StreamHeader.toDlrBytes ⟨DLR_FOURCC, s.version.toBytes, s.options⟩

def Control.behindHeader (c : Control Cache Manifest) (s : Stream StoreId Details Batch) : Control Cache Manifest :=
  { c with version := some (.fromBytes s.version.toBytes), options := s.options, state := .waitingForMessageHeader }

section

variable {Msg : Type} {codec : Codec Msg Cache Manifest} {c : Control Cache Manifest} {k : Nat}

theorem Stream.header_length (s : Stream StoreId Details Batch) : s.header.length = StreamHeader.ENCODED_SIZE_BYTES :=
  toDlrBytes_length _

theorem path_header (hc : c.state = .waitingForStreamHeader) {s : Stream StoreId Details Batch} (hs : s.Accepted)
    (rest : Bytes) : (decoderMachine codec).Path (c, k) (s.header ++ rest) [] (c.behindHeader s, k + s.header.length) rest := by
  have hlen := s.header_length
  have htake : (s.header ++ rest).take StreamHeader.ENCODED_SIZE_BYTES = s.header := take_left' hlen
  have hlook : c.look codec k ((s.header ++ rest).take StreamHeader.ENCODED_SIZE_BYTES) =
      .ok (c.behindHeader s, true, .again) := by
    unfold Control.look
    rw [hc]
    rw [htake]
    unfold Control.onStreamHeader Stream.header
    rw [fromDlrBytes_toDlrBytes]
    dsimp only [Except.bind]
    rw [hs]
    rfl
  have hmove : (decoderMachine codec).move (c, k) (s.header ++ rest) =
      .goOn (c.behindHeader s, k + StreamHeader.ENCODED_SIZE_BYTES) StreamHeader.ENCODED_SIZE_BYTES :=
    Control.move_turn (by rw [hc]; rfl) (by decide) (by rw [length_append]; omega) hlook
  have hdrop : (s.header ++ rest).drop StreamHeader.ENCODED_SIZE_BYTES = rest := drop_left' hlen
  have hpath := Machine.Path.goOn hmove (.refl _ _)
  exact hpath

theorem move_nextStream (hc : c.state = .waitingForMessageHeader) (s : Stream StoreId Details Batch) {rest : Bytes}
    (hrest : 4 ≤ rest.length) : (decoderMachine codec).move (c, k) (s.header ++ rest) =
      .goOn ({ c with state := .waitingForStreamHeader }, k) 0 := by
  have hlen := s.header_length
  have htake : (s.header ++ rest).take MessageHeader.ENCODED_SIZE_BYTES = s.header ++ rest.take 4 := by
    rfl
  obtain ⟨text, htext⟩ := MessageHeader.fromDlrBytes_of_streamHeader s.version.toBytes s.options
    (show (rest.take 4).length = 4 by rw [length_take]; omega)
  have hlook : c.look codec k ((s.header ++ rest).take MessageHeader.ENCODED_SIZE_BYTES) =
      .ok ({ c with state := .waitingForStreamHeader }, false, .again) := by
    unfold Control.look
    rw [hc]
    rw [htake]
    unfold Control.onMessageHeader
    rw [show MessageHeader.fromDlrBytes (s.header ++ rest.take 4) = _ from htext]
  have h12 : StreamHeader.ENCODED_SIZE_BYTES = 12 := rfl
  have h16 : MessageHeader.ENCODED_SIZE_BYTES = 16 := rfl
  exact Control.move_turn (by rw [hc]; rfl) (by decide) (by rw [length_append]; omega) hlook

theorem path_streamFooter (hc : c.state = .waitingForStreamFooter) (e : StreamFooterEntry)
    (hlt : e.dlrFooterByteSpanFromStartExcludingHeader.start.toNat +
      e.dlrFooterByteSpanFromStartExcludingHeader.len.toNat < 18446744073709551616) (rest : Bytes) :
    (decoderMachine codec).Path (c, k)
      (StreamFooter.toDlrBytes ⟨DLR_FOURCC, StreamFooter.DLR_IDENTIFIER, [e]⟩ ++ rest) []
      ({ c with state := .waitingForStreamHeader }, k + StreamFooter.ENCODED_SIZE_BYTES) rest := by
  have hlen := StreamFooter.toDlrBytes_length e
  have hcheck : Control.checkEntries [e] = .ok () := by
    cases hentries : Control.checkEntries [e] with
    | ok u => rfl
    | error p => exact absurd hlt ((Control.checkEntries_one e).mp ⟨p, hentries⟩)
  have hlook : c.look codec k ((StreamFooter.toDlrBytes ⟨DLR_FOURCC, StreamFooter.DLR_IDENTIFIER, [e]⟩ ++ rest).take
      StreamFooter.ENCODED_SIZE_BYTES) = .ok ({ c with state := .waitingForStreamHeader }, true, .again) := by
    unfold Control.look
    rw [hc]
    rw [take_left' hlen]
    unfold Control.onStreamFooter
    rw [StreamFooter.fromDlrBytes_toDlrBytes]
    dsimp only
    rw [hcheck]
    rfl
  have hmove : (decoderMachine codec).move (c, k)
      (StreamFooter.toDlrBytes ⟨DLR_FOURCC, StreamFooter.DLR_IDENTIFIER, [e]⟩ ++ rest) =
      .goOn ({ c with state := .waitingForStreamHeader }, k + StreamFooter.ENCODED_SIZE_BYTES)
        StreamFooter.ENCODED_SIZE_BYTES :=
    Control.move_turn (by rw [hc]; rfl) (by decide) (by rw [length_append]; omega) hlook
  have hpath := Machine.Path.goOn hmove (.refl _ _)
  exact hpath

theorem path_end (hc : c.state = .waitingForMessageHeader) (f : Frame) (hkind : f.kind = .end)
    (hgood : f.GoodEnd codec) (crc : Bytes → UInt32) (offset : UInt64)
    (hlt : offset.toNat + f.payload.length < 18446744073709551616) (rest : Bytes) :
    ∃ c' k', c'.state = .waitingForStreamHeader ∧ (decoderMachine codec).Path (c, k)
      (f.bytes ++ ((StreamFooter.fromDlrFooterBytes crc offset f.payload).toDlrBytes ++ rest)) [] (c', k') rest := by
  obtain ⟨hheader, hdrop⟩ := @Control.move_messageHeader _ _ _ codec c k hc f
    ((StreamFooter.fromDlrFooterBytes crc offset f.payload).toDlrBytes ++ rest)
  obtain ⟨manifests, hend⟩ := @Control.onMessagePayload_end _ _ _ codec
    { c with state := .waitingForMessagePayload f.header } f hkind hgood
  obtain ⟨hpayload, hdrop'⟩ := @Control.move_payload _ _ _ codec _ (k + MessageHeader.ENCODED_SIZE_BYTES) f rfl
    _ _ hend ((StreamFooter.fromDlrFooterBytes crc offset f.payload).toDlrBytes ++ rest)
  have hfits : offset.toNat + (UInt64.ofNat f.payload.length).toNat < 18446744073709551616 := by
    rw [toNat_ofNat_length (Nat.le_trans f.payload_le (Nat.le_add_right _ _))]
    exact hlt
  refine ⟨{ c with dlrManifests := c.dlrManifests ++ manifests, state := .waitingForStreamHeader },
    k + MessageHeader.ENCODED_SIZE_BYTES + f.payload.length + StreamFooter.ENCODED_SIZE_BYTES, rfl,
    .goOn hheader ?_⟩
  rw [hdrop]
  refine .goOn hpayload ?_
  rw [hdrop']
  exact path_streamFooter rfl ⟨⟨offset, UInt64.ofNat f.payload.length⟩, crc f.payload⟩ hfits rest

end

section

variable [DecidableEq StoreId] {T : Transport StoreId Details Batch ChunkBatch Chunk} {crc : Bytes → UInt32}
  {fromTransport : Cache → MessageKind → Bytes → Except Fault (LogMsg StoreId Details Batch × Cache)}
  {decodeFooter : Bytes → Except CodecError (List Manifest)} {c : Control Cache Manifest} {k : Nat}

omit [DecidableEq StoreId] in
theorem Inverse.decode (hinv : Inverse T fromTransport decodeFooter) {compression : Compression}
    {message : LogMsg StoreId Details Batch} {payload : ByteVec}
    (h : T.toTransport compression message = .ok payload) (cache : Cache) (version : Option CrateVersion) :
    ∃ cache', (appCodec fromTransport decodeFooter).decode cache version message.kind payload.1 =
      .ok (message.patchVersion version, cache') := by
  obtain ⟨cache', hdecode⟩ := hinv.message compression message payload cache h
  refine ⟨cache', ?_⟩
  show (fromTransport cache message.kind payload.1).map _ = _
  rw [hdecode]
  rfl

omit [DecidableEq StoreId] in
theorem deliver_sent (hinv : Inverse T fromTransport decodeFooter) (compression : Compression) :
    ∀ (sent : List (LogMsg StoreId Details Batch × ByteVec)) (c : Control Cache Manifest),
      (∀ p ∈ sent, T.toTransport compression p.1 = .ok p.2) →
      (c.deliver (appCodec fromTransport decodeFooter) (sent.map fun p => p.1.frame p.2)).1 =
        sent.map fun p => .ok (p.1.patchVersion c.version)
  | [], _, _ => rfl
  | p :: sent, c, hsent => by
    obtain ⟨cache, hok⟩ := hinv.decode (hsent p mem_cons_self) c.appIdCache c.version
    have ih := deliver_sent hinv compression sent { c with appIdCache := cache }
      fun q hq => hsent q (mem_cons_of_mem _ hq)
    rw [map_cons, Control.deliver, show (p.1.frame p.2).kind = p.1.kind from rfl,
      show (p.1.frame p.2).payload = p.2.1 from rfl, hok]
    dsimp only
    rw [ih]
    rfl

/-- Behind a whole stream, or at the start. -/
def Between (c : Control Cache Manifest) : Prop :=
  c.state = .waitingForStreamHeader ∨ c.state = .waitingForMessageHeader

omit [DecidableEq StoreId] in
theorem path_body (hinv : Inverse T fromTransport decodeFooter) (hc : c.state = .waitingForMessageHeader)
    (compression : Compression) {sent : List (LogMsg StoreId Details Batch × ByteVec)}
    (hsent : ∀ p ∈ sent, T.toTransport compression p.1 = .ok p.2) {ending : Bytes} (hending : IsEnding T crc ending)
    (rest : Bytes) :
    ∃ c' k', Between c' ∧ (decoderMachine (appCodec fromTransport decodeFooter)).Path (c, k)
      (framesBytes (sent.map fun p => p.1.frame p.2) ++ (ending ++ rest))
      (sent.map fun p => .ok (p.1.patchVersion c.version)) (c', k') rest := by
  have hkinds : ∀ f ∈ sent.map fun p => p.1.frame p.2, f.kind ≠ .end := by
    intro f hf
    obtain ⟨p, -, rfl⟩ := mem_map.mp hf
    exact p.1.kind_ne_end
  have hreturns : ∀ f ∈ sent.map fun p => p.1.frame p.2, f.Returns (appCodec fromTransport decodeFooter) := by
    intro f hf c _ p hp
    obtain ⟨q, hq, rfl⟩ := mem_map.mp hf
    obtain ⟨cache, hok⟩ := hinv.decode (hsent q hq) c.appIdCache c.version
    cases hok.symm.trans hp
  have hrow := @path_frames _ _ _ (appCodec fromTransport decodeFooter) c k hc _ hkinds hreturns (ending ++ rest)
  rw [deliver_sent hinv compression sent c hsent] at hrow
  have hstate := @Control.deliver_state _ _ _ (appCodec fromTransport decodeFooter) c hc
    (sent.map fun p => p.1.frame p.2)
  rcases hending with rfl | ⟨fs, footer, offset, hfooter, hlt, rfl⟩
  · exact ⟨_, _, .inr hstate, hrow⟩
  · obtain ⟨manifests, hdecode⟩ := hinv.footer fs footer hfooter
    obtain ⟨c', k', hc', hend⟩ := @path_end _ _ _ (appCodec fromTransport decodeFooter) _ (k + _) hstate
      ⟨.end, footer.1, footer.2⟩ rfl (.inr ⟨manifests, hdecode⟩) crc offset hlt rest
    rw [append_assoc] at hrow
    refine ⟨c', k', .inl hc', ?_⟩
    have hwhole := hrow.trans hend
    rw [append_nil] at hwhole
    rw [append_assoc]
    exact hwhole

def Stream.delivered (s : Stream StoreId Details Batch) : List (LogMsg StoreId Details Batch) :=
  s.messages.map (LogMsg.patchVersion (some (.fromBytes s.version.toBytes)))

theorem path_stream (hinv : Inverse T fromTransport decodeFooter) (hc : Between c)
    {s : Stream StoreId Details Batch} (hs : s.Accepted) {bytes : Bytes} (hbytes : Encodes T crc s bytes)
    (rest : Bytes) (hrest : MessageHeader.ENCODED_SIZE_BYTES ≤ (bytes ++ rest).length ∨ c.state = .waitingForStreamHeader) :
    ∃ c' k', Between c' ∧ (decoderMachine (appCodec fromTransport decodeFooter)).Path (c, k) (bytes ++ rest)
      (s.delivered.map .ok) (c', k') rest := by
  obtain ⟨sent, ending, hmessages, hsent, hending, rfl⟩ := hbytes.bytes_eq
  have hdelivered : s.delivered.map Except.ok = sent.map fun p =>
      (.ok (p.1.patchVersion (some (.fromBytes s.version.toBytes))) : Except CodecError (LogMsg StoreId Details Batch)) := by
    rw [Stream.delivered, ← hmessages, map_map, map_map]
    rfl
  have hparts : written s.version s.options sent ++ ending ++ rest =
      s.header ++ (framesBytes (sent.map fun p => p.1.frame p.2) ++ (ending ++ rest)) := by
    simp [written, Stream.header]
  have hfrom : ∀ c₁ : Control Cache Manifest, c₁.state = .waitingForStreamHeader → ∃ c' k', Between c' ∧
      (decoderMachine (appCodec fromTransport decodeFooter)).Path (c₁, k)
        (written s.version s.options sent ++ ending ++ rest) (s.delivered.map .ok) (c', k') rest := by
    intro c₁ hc₁
    have hheader := @path_header _ _ _ _ _ _ (appCodec fromTransport decodeFooter) c₁ k hc₁ s hs
      (framesBytes (sent.map fun p => p.1.frame p.2) ++ (ending ++ rest))
    obtain ⟨c', k', hbetween, hbody⟩ := @path_body _ _ _ _ _ _ _ T crc fromTransport decodeFooter (c₁.behindHeader s)
      (k + s.header.length) hinv rfl s.options.compression sent hsent ending hending rest
    refine ⟨c', k', hbetween, ?_⟩
    rw [hparts, hdelivered]
    exact hheader.trans hbody
  by_cases hstate : c.state = .waitingForStreamHeader
  · exact hfrom c hstate
  · have hmessage := hc.resolve_left hstate
    have hlen := hrest.resolve_right hstate
    rw [hparts, length_append, s.header_length] at hlen
    have h12 : StreamHeader.ENCODED_SIZE_BYTES = 12 := rfl
    have h16 : MessageHeader.ENCODED_SIZE_BYTES = 16 := rfl
    have hmove := @move_nextStream _ _ _ _ _ _ (appCodec fromTransport decodeFooter) c k hmessage s
      (framesBytes (sent.map fun p => p.1.frame p.2) ++ (ending ++ rest)) (by omega)
    obtain ⟨c', k', hbetween, hpath⟩ := hfrom { c with state := .waitingForStreamHeader } rfl
    refine ⟨c', k', hbetween, ?_⟩
    rw [hparts] at hpath ⊢
    exact .goOn hmove hpath

/-! ## Streams in a row -/

theorem Encodes.length_le {s : Stream StoreId Details Batch} {bytes : Bytes} (h : Encodes T crc s bytes) :
    StreamHeader.ENCODED_SIZE_BYTES ≤ bytes.length ∧
      (s.messages ≠ [] → MessageHeader.ENCODED_SIZE_BYTES ≤ bytes.length) := by
  obtain ⟨sent, ending, hmessages, -, -, rfl⟩ := h.bytes_eq
  have hheader : (StreamHeader.toDlrBytes ⟨DLR_FOURCC, s.version.toBytes, s.options⟩).length =
    StreamHeader.ENCODED_SIZE_BYTES := toDlrBytes_length _
  unfold written
  rw [length_append, length_append, hheader]
  refine ⟨by omega, fun hne => ?_⟩
  cases sent with
  | nil => exact absurd hmessages.symm hne
  | cons p sent =>
    rw [map_cons, framesBytes_cons, length_append, Frame.bytes_length]
    omega

theorem drain_streams (hinv : Inverse T fromTransport decodeFooter) :
    ∀ (ss : List (Stream StoreId Details Batch × Bytes)) (c : Control Cache Manifest) (k : Nat), Between c →
      (∀ p ∈ ss, p.1.Accepted ∧ Encodes T crc p.1 p.2) →
      ∃ s x, (decoderMachine (appCodec fromTransport decodeFooter)).drain (c, k) (ss.flatMap Prod.snd) =
        ((ss.flatMap fun p => p.1.delivered).map .ok, .on s x)
  | [], c, k, hc, _ => by
    refine ⟨(c, k), [], ?_⟩
    have hmove : (decoderMachine (appCodec fromTransport decodeFooter)).move (c, k) [] = .wait := by
      show Control.move _ (c, k) [] = .wait
      rcases hc with hc | hc
      · rw [Control.move_of_need (show c.state.need = some StreamHeader.ENCODED_SIZE_BYTES by rw [hc]; rfl)]
        rfl
      · rw [Control.move_of_need (show c.state.need = some MessageHeader.ENCODED_SIZE_BYTES by rw [hc]; rfl)]
        rfl
    rw [flatMap_nil, Machine.drain_eq, hmove]
    rfl
  | p :: ss, c, k, hc, hss => by
    obtain ⟨haccepted, hencodes⟩ := hss p mem_cons_self
    have hss' : ∀ q ∈ ss, q.1.Accepted ∧ Encodes T crc q.1 q.2 := fun q hq => hss q (mem_cons_of_mem _ hq)
    rw [flatMap_cons, flatMap_cons, map_append]
    by_cases hready : MessageHeader.ENCODED_SIZE_BYTES ≤ (p.2 ++ ss.flatMap Prod.snd).length ∨
        c.state = .waitingForStreamHeader
    · obtain ⟨c', k', hbetween, hpath⟩ := @path_stream _ _ _ _ _ _ _ _ T crc fromTransport decodeFooter c k hinv hc
        p.1 haccepted p.2 hencodes (ss.flatMap Prod.snd) hready
      obtain ⟨s, x, hrest⟩ := drain_streams hinv ss c' k' hbetween hss'
      refine ⟨s, x, ?_⟩
      rw [hpath.drain, hrest]
    · -- a header that is too short to be told from a message header is the last thing there is
      have hshort : ¬ MessageHeader.ENCODED_SIZE_BYTES ≤ p.2.length + (ss.flatMap Prod.snd).length := by
        rw [← length_append]
        exact fun h => hready (.inl h)
      have hstate := hc.resolve_left fun h => hready (.inr h)
      have h12 : StreamHeader.ENCODED_SIZE_BYTES = 12 := rfl
      have h16 : MessageHeader.ENCODED_SIZE_BYTES = 16 := rfl
      obtain ⟨hlen, hmessage⟩ := hencodes.length_le
      have hnil : p.1.messages = [] := by
        by_contra hne
        have := hmessage hne
        omega
      have hlast : ss = [] := by
        cases ss with
        | nil => rfl
        | cons q ss =>
          have hq := (hss' q mem_cons_self).2.length_le.1
          rw [flatMap_cons, length_append] at hshort
          omega
      subst hlast
      refine ⟨(c, k), p.2 ++ [], ?_⟩
      have hmove : (decoderMachine (appCodec fromTransport decodeFooter)).move (c, k) (p.2 ++ []) = .wait := by
        show Control.move _ (c, k) (p.2 ++ []) = .wait
        rw [append_nil,
          Control.move_of_need (show c.state.need = some MessageHeader.ENCODED_SIZE_BYTES by rw [hstate]; rfl),
          if_neg (by decide), if_pos]
        rw [flatMap_nil, length_nil] at hshort
        omega
      rw [flatMap_nil, Machine.drain_eq, hmove]
      simp [Stream.delivered, hnil]

namespace Decoder

/-- Round trip. A decoder fed with streams one behind the other, in any pieces and read at any time,
gives the messages they were encoded from, in order and nothing else. The version of a store is that of
its stream. -/
theorem decodes_encoded_streams (T : Transport StoreId Details Batch ChunkBatch Chunk) (crc : Bytes → UInt32)
    (fromTransport : Cache → MessageKind → Bytes → Except Fault (LogMsg StoreId Details Batch × Cache))
    (decodeFooter : Bytes → Except CodecError (List Manifest)) (hinv : Inverse T fromTransport decodeFooter)
    (cache : Cache) (ss : List (Stream StoreId Details Batch × Bytes))
    (hss : ∀ p ∈ ss, p.1.Accepted ∧ Encodes T crc p.1 p.2) (ops : List (Machine.Op UInt8))
    (hops : Machine.pushed ops = ss.flatMap Prod.snd) :
    (calls (appCodec fromTransport decodeFooter) (new cache) ops).1 ++
        (readRest (appCodec fromTransport decodeFooter) (calls (appCodec fromTransport decodeFooter) (new cache) ops).2).1 =
      (ss.flatMap fun p => p.1.delivered).map .ok ∧
    ∃ d, (readRest (appCodec fromTransport decodeFooter)
      (calls (appCodec fromTransport decodeFooter) (new cache) ops).2).2 = .ok d := by
  obtain ⟨s, x, hdrain⟩ := @drain_streams _ _ _ _ _ _ _ _ T crc fromTransport decodeFooter hinv ss (Control.new cache) 0 (.inl rfl) hss
  have hcalls := (decoderMachine (appCodec fromTransport decodeFooter)).drain_eq_calls ops (Control.new cache, 0) []
  obtain ⟨hready, hrefines⟩ := calls_refines (appCodec fromTransport decodeFooter) ops _ (ready_new cache)
  rw [nil_append, hops, hdrain] at hcalls
  rw [show (decoderMachine (appCodec fromTransport decodeFooter)).calls (.on (Control.new cache, 0) []) ops = _ from
    hrefines, readRest_refines hready] at hcalls
  obtain ⟨hresults, hend⟩ := Prod.mk.inj hcalls
  refine ⟨hresults.symm, ?_⟩
  cases hrest : (readRest (appCodec fromTransport decodeFooter)
      (calls (appCodec fromTransport decodeFooter) (new cache) ops).2).2 with
  | ok d => exact ⟨d, rfl⟩
  | error p =>
    rw [hrest] at hend
    cases hend

end Decoder

end

/-! ## A transport of single bytes -/

theorem le_isizeMax_of_short {bytes : Bytes} (h : bytes.length ≤ 5) : bytes.length ≤ ISIZE_MAX := by
  unfold ISIZE_MAX
  omega

def plainPayload : LogMsg UInt8 Unit UInt8 → ByteVec
  | .setStoreInfo storeId none _ => ⟨[storeId], le_isizeMax_of_short (by simp)⟩
  | .setStoreInfo storeId (some version) _ => ⟨storeId :: version.toBytes.toList, le_isizeMax_of_short (by simp)⟩
  | .arrowMsg storeId batch => ⟨[storeId, batch], le_isizeMax_of_short (by simp)⟩
  | .blueprintActivationCommand blueprintId makeActive makeDefault =>
    ⟨[blueprintId, if makeActive then 1 else 0, if makeDefault then 1 else 0], le_isizeMax_of_short (by simp)⟩

def plainTransport : Transport UInt8 Unit UInt8 UInt8 UInt8 where
  toTransport := fun _ message =>
    match message with
    | .setStoreInfo _ (some version) _ =>
      if CrateVersion.fromBytes version.toBytes = version then .ok (plainPayload message)
      else .error (.codec (.payload "no such version"))
    | message => .ok (plainPayload message)
  byteSizeUncompressed := fun _ message => UInt64.ofNat (plainPayload message).1.length
  chunkBatch := .ok
  fromChunkBatch := .ok
  encodeFooter := fun fs =>
    if h : fs.keys.length ≤ ISIZE_MAX then .ok ⟨fs.keys, h⟩ else .error (.codec (.payload "capacity overflow"))

def fromPlain (_ : Unit) (kind : MessageKind) (bytes : Bytes) : Except Fault (LogMsg UInt8 Unit UInt8 × Unit) :=
  match kind, bytes with
  | .setStoreInfo, [storeId] => .ok (.setStoreInfo storeId none (), ())
  | .setStoreInfo, [storeId, a, b, c, d] => .ok (.setStoreInfo storeId (some (.fromBytes ⟨a, b, c, d⟩)) (), ())
  | .arrowMsg, [storeId, batch] => .ok (.arrowMsg storeId batch, ())
  | .blueprintActivationCommand, [blueprintId, a, b] => .ok (.blueprintActivationCommand blueprintId (a == 1) (b == 1), ())
  | _, _ => .error (.err (.payload "failed to decode Protobuf message"))

def plainFooter (bytes : Bytes) : Except CodecError (List Bytes) := .ok [bytes]

theorem inverse_plain : Inverse plainTransport fromPlain plainFooter where
  message := by
    intro compression message payload cache h
    cases message with
    | setStoreInfo storeId storeVersion details =>
      cases storeVersion with
      | none =>
        cases h
        exact ⟨(), rfl⟩
      | some version =>
        unfold plainTransport at h
        dsimp only at h
        split at h
        · rename_i hversion
          cases h
          refine ⟨(), ?_⟩
          show Except.ok (LogMsg.setStoreInfo storeId (some (CrateVersion.fromBytes version.toBytes)) (), ()) = _
          rw [hversion]
        · cases h
    | arrowMsg storeId batch =>
      cases h
      exact ⟨(), rfl⟩
    | blueprintActivationCommand blueprintId makeActive makeDefault =>
      cases h
      refine ⟨(), ?_⟩
      cases makeActive <;> cases makeDefault <;> rfl
  footer := fun _ payload _ => ⟨[payload.1], rfl⟩

namespace Decoder

def unversioned (version : CrateVersion) : Stream UInt8 Unit UInt8 where
  version := version
  options := .PROTOBUF_UNCOMPRESSED
  messages := [.setStoreInfo 7 none ()]

def unversionedBytes (version : CrateVersion) : Bytes :=
  (unversioned version).header ++ plainStoreInfo.bytes

theorem encodes_unversioned (version : CrateVersion) :
    Encodes plainTransport (fun _ => 0) (unversioned version) (unversionedBytes version) :=
  .omitted rfl (fun _ hr => ⟨17, mem_singleton.mp hr⟩) rfl

/-- Two streams in one chunk. -/
theorem decodes_encoded_streams_twice :
    (calls (appCodec fromPlain plainFooter) (new ())
        [.push (unversionedBytes .LOCAL ++ unversionedBytes .LOCAL), .read]).1 ++
      (readRest (appCodec fromPlain plainFooter) (calls (appCodec fromPlain plainFooter) (new ())
        [.push (unversionedBytes .LOCAL ++ unversionedBytes .LOCAL), .read]).2).1 =
      [.ok (.setStoreInfo 7 (some .LOCAL) ()), .ok (.setStoreInfo 7 (some .LOCAL) ())] := by
  have hss : ∀ p ∈ [(unversioned .LOCAL, unversionedBytes .LOCAL), (unversioned .LOCAL, unversionedBytes .LOCAL)],
      p.1.Accepted ∧ Encodes plainTransport (fun _ => 0) p.1 p.2 := by
    intro p hp
    obtain rfl : p = (unversioned .LOCAL, unversionedBytes .LOCAL) := by simpa using hp
    exact ⟨rfl, encodes_unversioned _⟩
  have h := decodes_encoded_streams plainTransport (fun _ => 0) fromPlain plainFooter inverse_plain () _ hss
    [.push (unversionedBytes .LOCAL ++ unversionedBytes .LOCAL), .read] rfl
  exact h.1

/-- A store without a version comes out with that of its stream, and a stream of a version between this
build and 0.23 is refused. -/
theorem decodes_other_messages :
    Encodes plainTransport (fun _ => 0) (unversioned .LOCAL) (unversionedBytes .LOCAL) ∧
    (readAll (appCodec fromPlain plainFooter) ((new ()).pushByteChunk (unversionedBytes .LOCAL))).1 =
      [.ok (.setStoreInfo 7 (some .LOCAL) ())] ∧
    [.ok (.setStoreInfo 7 (some .LOCAL) ())] ≠
      (unversioned .LOCAL).messages.map (Except.ok : _ → Except CodecError (LogMsg UInt8 Unit UInt8)) ∧
    Encodes plainTransport (fun _ => 0) (unversioned ⟨0, 2, 0, none⟩) (unversionedBytes ⟨0, 2, 0, none⟩) ∧
    (readAll (appCodec fromPlain plainFooter) ((new ()).pushByteChunk (unversionedBytes ⟨0, 2, 0, none⟩))).1.head? =
      some (.error (.incompatibleDalaranVersion ⟨0, 2, 0, none⟩ .LOCAL)) := by
  refine ⟨encodes_unversioned _, rfl, ?_, encodes_unversioned _, rfl⟩
  intro h
  cases h

end Decoder

end Dalaran
