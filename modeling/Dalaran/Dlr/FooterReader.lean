import Dalaran.Dlr.RoundTrip

/-
  Reading a file from its end (`read_dlr_footer_payload` in `footer_reader.rs`).

  A file that was written with a footer ends in a stream footer that leads to it.
  `read_dlr_footer_payload` follows that lead and gets what `finish` wrote
  (`readDlrFooterPayload_of_footer`). The manifests in there say where the chunks
  are, truthfully (`footer_spans_designate`).

  A file is its bytes; reads of it only fail behind its end.
-/

namespace Dalaran

open Reader LittleEndian List StreamFooter

/-- Read exactly `len` bytes, unless the file ends before. -/
def readExactAt (file : Bytes) (offset len : Nat) : Option Bytes :=
  if offset + len ≤ file.length then some ((file.drop offset).take len) else none

def UNEXPECTED_EOF : CodecError := .io "failed to fill whole buffer"

/-- The footer payload the end of a file leads to. -/
def readDlrFooterPayload (crc : Bytes → UInt32) (file : Bytes) : Except Fault (Option Bytes) :=
  if file.length < StreamHeader.ENCODED_SIZE_BYTES then
    .error (.err (.frameDecoding "file too small to be an DLR"))
  else
    match readExactAt file 0 StreamHeader.ENCODED_SIZE_BYTES with
    | none => .error (.err UNEXPECTED_EOF)
    | some headerBuf => do
      let _ ← StreamHeader.fromDlrBytes headerBuf
      if file.length < StreamFooter.ENCODED_SIZE_BYTES then pure none
      else
        match readExactAt file (file.length - StreamFooter.ENCODED_SIZE_BYTES) StreamFooter.ENCODED_SIZE_BYTES with
        | none => .error (.err UNEXPECTED_EOF)
        | some footerBuf =>
          match StreamFooter.fromDlrBytes footerBuf with
          | .error (.panic p) => .error (.panic p)
          | .error (.err _) => pure none -- no footer
          | .ok streamFooter =>
            match streamFooter.entries.head? with
            | none => pure none
            | some entry =>
              let span := entry.dlrFooterByteSpanFromStartExcludingHeader
              match checkedAdd span.start span.len with
              | .error p => .error (.panic p)
              | .ok spanEnd =>
                if file.length < spanEnd.toNat then
                  let start := span.start.toNat
                  let stop := spanEnd.toNat
                  let fileLen := file.length
                  .error (.err (.frameDecoding
                    s!"RrdFooter payload span ({start}..{stop}) exceeds file size ({fileLen})"))
                else
                  match readExactAt file span.start.toNat span.len.toNat with
                  | none => .error (.err UNEXPECTED_EOF)
                  | some payloadBuf =>
                    if crc payloadBuf ≠ entry.crcExcludingHeader then
                      .error (.err (.crcMismatch entry.crcExcludingHeader (crc payloadBuf)))
                    else pure (some payloadBuf)

/-! ## Slices of what was written -/

theorem readExactAt_of_le {file : Bytes} {offset len : Nat} (h : offset + len ≤ file.length) :
    readExactAt file offset len = some ((file.drop offset).take len) := if_pos h

theorem take_drop_part (before part after : Bytes) {offset len : Nat} (ho : offset = before.length)
    (hl : len = part.length) : ((before ++ part ++ after).drop offset).take len = part := by
  subst ho hl
  rw [append_assoc, drop_left' rfl, take_left' rfl]

theorem readDlrFooterPayload_of_footer (crc : Bytes → UInt32) (version : FourBytes) (options : EncodingOptions)
    (body payload : Bytes) (offset : UInt64) (hpayload : payload.length ≤ ISIZE_MAX)
    (hoffset : offset.toNat = (StreamHeader.toDlrBytes ⟨DLR_FOURCC, version, options⟩ ++ body).length)
    (hlt : offset.toNat + payload.length < 18446744073709551616) :
    readDlrFooterPayload crc (StreamHeader.toDlrBytes ⟨DLR_FOURCC, version, options⟩ ++ body ++ payload ++
      (StreamFooter.fromDlrFooterBytes crc offset payload).toDlrBytes) = .ok (some payload) := by
  generalize hfooter : (fromDlrFooterBytes crc offset payload).toDlrBytes = footerBytes
  have hflen : footerBytes.length = StreamFooter.ENCODED_SIZE_BYTES := hfooter ▸ toDlrBytes_length _
  have hread : fromDlrBytes footerBytes = .ok (fromDlrFooterBytes crc offset payload) :=
    hfooter ▸ fromDlrBytes_toDlrBytes _
  have hhlen := StreamHeader.toDlrBytes_length ⟨DLR_FOURCC, version, options⟩
  generalize hfile : StreamHeader.toDlrBytes ⟨DLR_FOURCC, version, options⟩ ++ body ++ payload ++ footerBytes = file
  have hlen : file.length = offset.toNat + payload.length + StreamFooter.ENCODED_SIZE_BYTES := by
    rw [← hfile, length_append, length_append, hflen, hoffset]
  have hle : StreamHeader.ENCODED_SIZE_BYTES ≤ offset.toNat := by
    rw [hoffset, length_append, hhlen]
    omega
  have h32 : StreamFooter.ENCODED_SIZE_BYTES = 32 := rfl
  have hbuf : readExactAt file 0 StreamHeader.ENCODED_SIZE_BYTES =
      some (StreamHeader.toDlrBytes ⟨DLR_FOURCC, version, options⟩) := by
    rw [readExactAt_of_le (by omega), drop_zero, ← hfile]
    simp only [append_assoc]
    rw [take_left' hhlen]
  have hfbuf : readExactAt file (file.length - StreamFooter.ENCODED_SIZE_BYTES) StreamFooter.ENCODED_SIZE_BYTES =
      some footerBytes := by
    rw [readExactAt_of_le (by omega)]
    have hpos : file.length - StreamFooter.ENCODED_SIZE_BYTES =
        (StreamHeader.toDlrBytes ⟨DLR_FOURCC, version, options⟩ ++ body ++ payload).length := by
      rw [hlen, length_append, ← hoffset]
      omega
    rw [hpos, ← hfile, drop_left' rfl, take_of_length_le (by omega)]
  have hspan : (UInt64.ofNat payload.length).toNat = payload.length :=
    toNat_ofNat_length (Nat.le_trans hpayload (Nat.le_add_right _ _))
  have hpbuf : readExactAt file offset.toNat (UInt64.ofNat payload.length).toNat = some payload := by
    rw [readExactAt_of_le (by omega), ← hfile, take_drop_part _ payload footerBytes hoffset hspan]
  unfold readDlrFooterPayload
  rw [if_neg (by omega), hbuf]
  simp only [bind, Except.bind, StreamHeader.fromDlrBytes_toDlrBytes]
  rw [if_neg (by omega), hfbuf]
  dsimp only
  rw [hread]
  have hadd : checkedAdd offset (UInt64.ofNat payload.length) = .ok (offset + UInt64.ofNat payload.length) := by
    unfold checkedAdd
    rw [if_pos (by omega)]
  have hsum := (checkedAdd_ok hadd).1
  simp only [fromDlrFooterBytes, List.head?_cons, hadd]
  rw [if_neg (by omega), hpbuf]
  simp only [ne_eq, not_true_eq_false, if_false]
  rfl

/-! ## Where the encoder says things are -/

section

variable {StoreId Details Batch ChunkBatch Chunk : Type} {T : Transport StoreId Details Batch ChunkBatch Chunk}
  {version : CrateVersion} {options : EncodingOptions}

theorem Located.slice {sent : List (LogMsg StoreId Details Batch × ByteVec)} {storeId : StoreId}
    {row : ManifestRow Chunk} (h : Located T version options sent storeId row) (ending : Bytes) :
    ∃ batch payload chunkBatch, (.arrowMsg storeId batch, payload) ∈ sent ∧
      T.chunkBatch batch = .ok chunkBatch ∧ T.fromChunkBatch chunkBatch = .ok row.chunk ∧
      row.byteSizeExcludingHeader.toNat = payload.1.length ∧
      ((written version options sent ++ ending).drop row.byteOffsetExcludingHeader.toNat).take
        row.byteSizeExcludingHeader.toNat = payload.1 := by
  obtain ⟨before, batch, payload, after, chunkBatch, rfl, hbatch, hchunk, hoffset, hsize⟩ := h
  refine ⟨batch, payload, chunkBatch, mem_append_right _ mem_cons_self, hbatch, hchunk, hsize, ?_⟩
  have hparts : written version options (before ++ (.arrowMsg storeId batch, payload) :: after) ++ ending =
      (written version options before ++ MessageHeader.toDlrBytes ⟨.arrowMsg, UInt64.ofNat payload.1.length⟩) ++
        payload.1 ++ (framesBytes (after.map fun p => p.1.frame p.2) ++ ending) := by
    rw [written_append]
    simp [Frame.bytes, LogMsg.frame, Frame.header, LogMsg.kind]
  rw [hparts]
  refine take_drop_part _ payload.1 _ ?_ hsize
  rw [hoffset, length_append, MessageHeader.toDlrBytes_length]

variable [DecidableEq StoreId]

/-- The spans of a footer are true. After any `append` calls and a `finish`, every row of every manifest
in the footer locates in the file the payload of the message it was recorded for, the stream footer at the
end of the file locates the footer, and reading from the end gets it. -/
theorem footer_spans_designate (T : Transport StoreId Details Batch ChunkBatch Chunk) (crc : Bytes → UInt32)
    (version : CrateVersion) (options : EncodingOptions) (messages : List (LogMsg StoreId Details Batch))
    (e e' : Encoder StoreId Chunk) (rs : List (Except EncodeError UInt64))
    (happend : (Encoder.newEager version options).appendAll T messages = .ok (e, rs))
    (hfinish : e.finish T crc = .ok (e', .ok ())) :
    ∃ fs footer file entry, e.footerState = some fs ∧ T.encodeFooter fs = .ok footer ∧ e'.write = some file ∧
      (∀ storeId rows, fs.lookup storeId = some rows → ∀ row ∈ rows, ∃ batch payload chunkBatch,
        .arrowMsg storeId batch ∈ messages ∧ T.chunkBatch batch = .ok chunkBatch ∧
        T.fromChunkBatch chunkBatch = .ok row.chunk ∧
        T.toTransport options.compression (.arrowMsg storeId batch) = .ok payload ∧
        row.byteSizeExcludingHeader.toNat = payload.1.length ∧
        (file.drop row.byteOffsetExcludingHeader.toNat).take row.byteSizeExcludingHeader.toNat = payload.1) ∧
      StreamFooter.fromDlrBytes (file.drop (file.length - StreamFooter.ENCODED_SIZE_BYTES)) =
        .ok ⟨DLR_FOURCC, StreamFooter.DLR_IDENTIFIER, [entry]⟩ ∧
      entry.dlrFooterByteSpanFromStartExcludingHeader.len.toNat = footer.1.length ∧
      (file.drop entry.dlrFooterByteSpanFromStartExcludingHeader.start.toNat).take
        entry.dlrFooterByteSpanFromStartExcludingHeader.len.toNat = footer.1 ∧
      readDlrFooterPayload crc file = .ok (some footer.1) := by
  obtain ⟨sent, hopen, hsub, -, hsome⟩ := (Encoder.open_newEager T version options).appendAll happend
  rw [nil_append] at hopen
  rcases hopen.finish hfinish with ⟨hnone, -⟩ | ⟨fs, footer, offset, hfs, hfooter, hoffset, hlt, hw⟩
  · rw [hnone] at hsome
    cases hsome
  · let entry : StreamFooterEntry := ⟨⟨offset, UInt64.ofNat footer.1.length⟩, crc footer.1⟩
    have hspan : (UInt64.ofNat footer.1.length).toNat = footer.1.length :=
      toNat_ofNat_length (Nat.le_trans footer.2 (Nat.le_add_right _ _))
    have hflen : (fromDlrFooterBytes crc offset footer.1).toDlrBytes.length =
        StreamFooter.ENCODED_SIZE_BYTES := toDlrBytes_length _
    have hparts : written version options sent ++ Frame.bytes ⟨.end, footer.1, footer.2⟩ =
        (written version options sent ++ MessageHeader.toDlrBytes ⟨.end, UInt64.ofNat footer.1.length⟩) ++ footer.1 := by
      rw [Frame.bytes, ← append_assoc]
      rfl
    have hoffset' : offset.toNat = (written version options sent ++
        MessageHeader.toDlrBytes ⟨.end, UInt64.ofNat footer.1.length⟩).length := by
      rw [hoffset, length_append, MessageHeader.toDlrBytes_length]
    refine ⟨fs, footer, _, entry, hfs, hfooter, hw, ?_, ?_, hspan, ?_, ?_⟩
    · intro storeId rows hrows row hrow
      obtain ⟨batch, payload, chunkBatch, hmem, hbatch, hchunk, hsize, hslice⟩ :=
        (hopen.located fs hfs storeId rows hrows row hrow).slice (Frame.bytes ⟨.end, footer.1, footer.2⟩ ++
          (fromDlrFooterBytes crc offset footer.1).toDlrBytes)
      refine ⟨batch, payload, chunkBatch, hsub.subset (mem_map.mpr ⟨_, hmem, rfl⟩), hbatch, hchunk,
        hopen.sent_ok _ hmem, hsize, ?_⟩
      rw [append_assoc]
      exact hslice
    · rw [length_append, hflen, Nat.add_sub_cancel, drop_left' rfl]
      exact fromDlrBytes_toDlrBytes entry
    · rw [hparts]
      exact take_drop_part _ footer.1 _ hoffset' hspan
    · rw [hparts]
      unfold written at hoffset' ⊢
      rw [append_assoc (StreamHeader.toDlrBytes _)] at hoffset' ⊢
      exact readDlrFooterPayload_of_footer crc version.toBytes options _ footer.1 offset footer.2 hoffset' hlt

end

def oneChunk : List (LogMsg UInt8 Unit UInt8) := [.setStoreInfo 1 none (), .arrowMsg 1 2]

theorem footer_spans_designate_oneChunk : ∃ e e' rs file,
    (Encoder.newEager .LOCAL .PROTOBUF_UNCOMPRESSED).appendAll plainTransport oneChunk = .ok (e, rs) ∧
      e.finish plainTransport (fun _ => 0) = .ok (e', .ok ()) ∧ e'.write = some file ∧
      readDlrFooterPayload (fun _ => 0) file = .ok (some [1]) := by
  refine ⟨_, _, _, _, rfl, rfl, rfl, ?_⟩
  obtain ⟨fs, footer, file, entry, hfs, hfooter, hw, -, -, -, -, hread⟩ :=
    footer_spans_designate plainTransport (fun _ => 0) .LOCAL .PROTOBUF_UNCOMPRESSED oneChunk _ _ _ rfl rfl
  cases hfs
  cases hw
  cases hfooter
  exact hread

end Dalaran
