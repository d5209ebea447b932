import Dalaran.Base.LittleEndian

/-
  Annex B streams (`dl_video::nalu`, `dl_video::h264`).

  In an mp4 sample every NAL unit has its length before it; in an Annex B stream it has
  a start code before it instead. The parameter sets go before a sync sample, unless the
  sample before it had them: the state remembers where they were written, and not where
  a sync sample was, so of three sync samples in a row the third has them again
  (`writeChunks_iff`).

  Correspondence (Rust ↔ Lean):
    `write_length_prefixed_nalus_to_annexb_stream` ↔ `writeLengthPrefixedNalus`
    `re_mp4::AvcCBox` ↔ `AvcC`
  The stream is the bytes written so far, and writing to it does not fail. A slice out of
  bounds panics, which is `none`.
-/

namespace Dalaran.Video

open LittleEndian List Option

structure AnnexBStreamState where
  previousFrameWasIdr : Bool

def ANNEXB_NAL_START_CODE : List UInt8 := [0x00, 0x00, 0x00, 0x01]

inductive AnnexBStreamWriteError where
  | badVideoData (message : String)

/-- A configuration record. -/
structure AvcC where
  lengthSizeMinusOne : Nat
  sequenceParameterSets : List (List UInt8)
  pictureParameterSets : List (List UInt8)

def AvcC.lengthPrefixSize (avcc : AvcC) : Nat := avcc.lengthSizeMinusOne + 1

structure Chunk where
  isSync : Bool
  data : List UInt8

abbrev Written := Option (List UInt8 × Except AnnexBStreamWriteError Unit)

def slice (data : List UInt8) (start stop : Nat) : Option (List UInt8) :=
  if start ≤ stop ∧ stop ≤ data.length then some ((data.drop start).take (stop - start)) else none

def fromBeBytes (bytes : List UInt8) : Nat := leValue bytes.reverse

def nalUnitSize (data : List UInt8) (bufferOffset : Nat) : Nat → Option (Except AnnexBStreamWriteError Nat)
  | 1 => data[bufferOffset]?.map fun byte => .ok byte.toNat
  | 2 => (slice data bufferOffset (bufferOffset + 2)).map fun bytes => .ok (fromBeBytes bytes)
  | 4 => (slice data bufferOffset (bufferOffset + 4)).map fun bytes => .ok (fromBeBytes bytes)
  | n => some (.error (.badVideoData s!"Bad length prefix size: {n}"))

theorem nalUnitSize_zero (data : List UInt8) (offset n : Nat) : nalUnitSize data offset 0 ≠ some (.ok n) := by
  intro h
  cases h

/-- The loop over the units, from an offset on. -/
def writeNalusFrom (data : List UInt8) (lengthPrefixSize bufferOffset : Nat) (stream : List UInt8) : Written :=
  if bufferOffset < data.length then
    if data.length < bufferOffset + lengthPrefixSize then
      some (stream, .error (.badVideoData "Not enough bytes to fit the length prefix"))
    else
      match _h : nalUnitSize data bufferOffset lengthPrefixSize with
      | none => none
      | some (.error e) => some (stream, .error e)
      | some (.ok nalUnitSize) =>
        let dataStart := bufferOffset + lengthPrefixSize
        let dataEnd := bufferOffset + nalUnitSize + lengthPrefixSize
        if data.length < dataEnd then
          some (stream, .error (.badVideoData "Video sample data ends with incomplete NAL unit."))
        else
          match slice data dataStart dataEnd with
          | none => none
          | some unit => writeNalusFrom data lengthPrefixSize dataEnd (stream ++ ANNEXB_NAL_START_CODE ++ unit)
  else some (stream, .ok ())
termination_by data.length - bufferOffset
decreasing_by
  have hpos : lengthPrefixSize ≠ 0 := by
    rintro rfl
    exact nalUnitSize_zero _ _ _ _h
  omega

def writeLengthPrefixedNalus (stream data : List UInt8) (lengthPrefixSize : Nat) : Written :=
  writeNalusFrom data lengthPrefixSize 0 stream

/-- Units with a start code before each. -/
def annexB (units : List (List UInt8)) : List UInt8 := units.flatMap (ANNEXB_NAL_START_CODE ++ ·)

def writeAvcChunkToAnnexb (avcc : AvcC) (stream : List UInt8) (emitParameterSets : Bool) (chunk : Chunk) : Written :=
  let stream :=
    if emitParameterSets then stream ++ annexB avcc.sequenceParameterSets ++ annexB avcc.pictureParameterSets
    else stream
  writeLengthPrefixedNalus stream chunk.data avcc.lengthPrefixSize

def writeAvcChunkToNaluStream (avcc : AvcC) (stream : List UInt8) (chunk : Chunk) (state : AnnexBStreamState) :
    Option (List UInt8 × Except AnnexBStreamWriteError Unit × AnnexBStreamState) :=
  let emitParameterSets := chunk.isSync && !state.previousFrameWasIdr
  (writeAvcChunkToAnnexb avcc stream emitParameterSets chunk).map fun
    | (stream, .ok ()) => (stream, .ok (), { previousFrameWasIdr := emitParameterSets })
    | (stream, .error e) => (stream, .error e, state)

/-- Chunks written one after the other, up to the first error. -/
def writeChunks (avcc : AvcC) (stream : List UInt8) (state : AnnexBStreamState) : List Chunk → Written
  | [] => some (stream, .ok ())
  | chunk :: chunks =>
    match writeAvcChunkToNaluStream avcc stream chunk state with
    | none => none
    | some (stream, .error e, _) => some (stream, .error e)
    | some (stream, .ok (), state) => writeChunks avcc stream state chunks

/-! ## What is to be written -/

def beBytes (size n : Nat) : List UInt8 := (leBytes size n).reverse

/-- A unit with its length before it. -/
def lengthPrefixed (size : Nat) (unit : List UInt8) : List UInt8 := beBytes size unit.length ++ unit

/-- A sample: whether it is a sync sample, and its units. -/
structure Sample where
  isSync : Bool
  units : List (List UInt8)

def Sample.chunk (size : Nat) (sample : Sample) : Chunk := ⟨sample.isSync, sample.units.flatMap (lengthPrefixed size)⟩

def AvcC.parameterSets (avcc : AvcC) : List UInt8 :=
  annexB avcc.sequenceParameterSets ++ annexB avcc.pictureParameterSets

/-- The stream of some samples, with the parameter sets before the marked ones. -/
def assemble (parameterSets : List UInt8) : List Bool → List Sample → List UInt8
  | mark :: marks, sample :: samples =>
    (if mark then parameterSets else []) ++ annexB sample.units ++ assemble parameterSets marks samples
  | _, _ => []

/-- Mark the sync samples that do not come after a sync sample. -/
def wanted (previousIsSync : Bool) : List Sample → List Bool
  | [] => []
  | sample :: samples => (sample.isSync && !previousIsSync) :: wanted sample.isSync samples

/-- Mark the sync samples that do not come after a marked one. -/
def emitted (previousMarked : Bool) : List Sample → List Bool
  | [] => []
  | sample :: samples => (sample.isSync && !previousMarked) :: emitted (sample.isSync && !previousMarked) samples

/-- No three sync samples come in a row. -/
def NoThreeSync : List Bool → Prop
  | true :: true :: true :: _ => False
  | _ :: syncs => NoThreeSync syncs
  | [] => True

def FitsPrefix (size : Nat) (unit : List UInt8) : Prop := unit.length < 256 ^ size

/-! ## The loop over the units -/

section Units

variable {size : Nat}

theorem fromBeBytes_beBytes {n : Nat} (h : n < 256 ^ size) : fromBeBytes (beBytes size n) = n := by
  rw [fromBeBytes, beBytes, reverse_reverse, leValue_leBytes h]

@[simp] theorem length_beBytes (n : Nat) : (beBytes size n).length = size := by
  rw [beBytes, length_reverse, leBytes_length]

theorem slice_append (before bytes after : List UInt8) :
    slice (before ++ bytes ++ after) before.length (before.length + bytes.length) = some bytes := by
  rw [slice, if_pos (by simp), append_assoc, drop_left, Nat.add_sub_cancel_left, take_left]

theorem nalUnitSize_append (hsize : size = 1 ∨ size = 2 ∨ size = 4) (before after : List UInt8) {n : Nat}
    (hn : n < 256 ^ size) : nalUnitSize (before ++ beBytes size n ++ after) before.length size = some (.ok n) := by
  have hslice := slice_append before (beBytes size n) after
  rw [length_beBytes] at hslice
  rcases hsize with rfl | rfl | rfl
  · have hbyte : beBytes 1 n = [UInt8.ofNat n] := rfl
    have hvalue := fromBeBytes_beBytes hn
    rw [nalUnitSize, hbyte, append_assoc, List.getElem?_append_right (Nat.le_refl _), Nat.sub_self]
    exact congrArg (fun value => some (Except.ok value)) hvalue
  · rw [nalUnitSize, hslice, map_some, fromBeBytes_beBytes hn]
  · rw [nalUnitSize, hslice, map_some, fromBeBytes_beBytes hn]

theorem writeNalusFrom_append (hsize : size = 1 ∨ size = 2 ∨ size = 4) (before rest stream : List UInt8) {n : Nat}
    (hn : n < 256 ^ size) :
    writeNalusFrom (before ++ beBytes size n ++ rest) size before.length stream =
      if rest.length < n then
        some (stream, .error (.badVideoData "Video sample data ends with incomplete NAL unit."))
      else writeNalusFrom (before ++ beBytes size n ++ rest) size (before.length + n + size)
        (stream ++ ANNEXB_NAL_START_CODE ++ rest.take n) := by
  have hpos : 0 < size := by omega
  have hlength : (before ++ beBytes size n ++ rest).length = before.length + size + rest.length := by
    rw [length_append, length_append, length_beBytes]
  have hread := nalUnitSize_append hsize before rest hn
  rw [writeNalusFrom, if_pos (by omega), if_neg (by omega)]
  split
  · next h =>
    rw [hread] at h
    cases h
  · next h =>
    rw [hread] at h
    cases h
  · next m h =>
    obtain rfl : n = m := by
      rw [hread] at h
      cases h
      rfl
    by_cases hshort : rest.length < n
    · rw [if_pos (by omega), if_pos hshort]
    · rw [if_neg (by omega), if_neg hshort]
      have hslice : slice (before ++ beBytes size n ++ rest) (before.length + size) (before.length + n + size) =
          some (rest.take n) := by
        have h := slice_append (before ++ beBytes size n) (rest.take n) (rest.drop n)
        rw [append_assoc _ (rest.take n), take_append_drop, length_append, length_beBytes,
          length_take, Nat.min_eq_left (by omega)] at h
        rw [Nat.add_right_comm]
        exact h
      simp only [hslice]

variable {units : List (List UInt8)}

theorem writeNalusFrom_units (hsize : size = 1 ∨ size = 2 ∨ size = 4) (hunits : ∀ unit ∈ units, FitsPrefix size unit)
    (before rest stream : List UInt8) :
    writeNalusFrom (before ++ units.flatMap (lengthPrefixed size) ++ rest) size before.length stream =
      writeNalusFrom (before ++ units.flatMap (lengthPrefixed size) ++ rest) size
        (before ++ units.flatMap (lengthPrefixed size)).length (stream ++ annexB units) := by
  induction units generalizing before stream with
  | nil => simp [annexB]
  | cons unit units ih =>
    obtain ⟨hunit, hunits⟩ := forall_mem_cons.mp hunits
    have hsplit : before ++ (unit :: units).flatMap (lengthPrefixed size) ++ rest =
        before ++ beBytes size unit.length ++ (unit ++ units.flatMap (lengthPrefixed size) ++ rest) := by
      simp [lengthPrefixed]
    have hsplit' : before ++ (unit :: units).flatMap (lengthPrefixed size) ++ rest =
        before ++ lengthPrefixed size unit ++ units.flatMap (lengthPrefixed size) ++ rest := by simp
    have hoffset : before.length + unit.length + size = (before ++ lengthPrefixed size unit).length := by
      simp [lengthPrefixed]
      omega
    have htake : (unit ++ units.flatMap (lengthPrefixed size) ++ rest).take unit.length = unit := by simp
    rw [hsplit, writeNalusFrom_append hsize _ _ _ hunit, if_neg (by simp), htake, ← hsplit, hsplit', hoffset,
      ih hunits]
    simp [annexB]

theorem writeLengthPrefixedNalus_units (hsize : size = 1 ∨ size = 2 ∨ size = 4)
    (hunits : ∀ unit ∈ units, FitsPrefix size unit) (stream : List UInt8) :
    writeLengthPrefixedNalus stream (units.flatMap (lengthPrefixed size)) size = some (stream ++ annexB units, .ok ()) := by
  have h := writeNalusFrom_units hsize hunits [] [] stream
  rw [nil_append, append_nil, length_nil] at h
  rw [writeLengthPrefixedNalus, h, writeNalusFrom, if_neg (Nat.lt_irrefl _)]

theorem writeLengthPrefixedNalus_truncated (hsize : size = 1 ∨ size = 2 ∨ size = 4)
    (hunits : ∀ unit ∈ units, FitsPrefix size unit) {unit tail : List UInt8} (hunit : FitsPrefix size unit)
    (htail : tail <+: lengthPrefixed size unit) (hne : tail ≠ []) (hshort : tail ≠ lengthPrefixed size unit)
    (stream : List UInt8) : ∃ message,
      writeLengthPrefixedNalus stream (units.flatMap (lengthPrefixed size) ++ tail) size =
        some (stream ++ annexB units, .error (.badVideoData message)) := by
  have h := writeNalusFrom_units hsize hunits [] tail stream
  rw [nil_append, length_nil] at h
  have hpos : 0 < tail.length := length_pos_iff.mpr hne
  rw [writeLengthPrefixedNalus, h]
  by_cases hprefix : tail.length < size
  · rw [writeNalusFrom, if_pos (by simpa using hpos), if_pos (by simpa using hprefix)]
    exact ⟨_, rfl⟩
  · have hbytes : beBytes size unit.length <+: tail :=
      prefix_of_prefix_length_le (prefix_append ..) htail (by simpa using hprefix)
    obtain ⟨rest, rfl⟩ := hbytes
    have hrest : rest.length < unit.length := by
      have hle := htail.length_le
      have hneq : (beBytes size unit.length ++ rest).length ≠ (lengthPrefixed size unit).length :=
        fun heq => hshort (htail.eq_of_length heq)
      simp only [lengthPrefixed, length_append, length_beBytes] at hle hneq
      omega
    rw [← append_assoc, writeNalusFrom_append hsize _ _ _ hunit, if_pos hrest]
    exact ⟨_, rfl⟩

end Units

/-! ## The parameter sets -/

theorem assemble_length_le (parameterSets : List UInt8) {ws es : List Bool}
    (h : Forall₂ (fun w e => w = true → e = true) ws es) (samples : List Sample) :
    (assemble parameterSets ws samples).length ≤ (assemble parameterSets es samples).length := by
  induction h generalizing samples with
  | nil => exact Nat.le_refl _
  | @cons w e ws es hhead _ ih =>
    cases samples with
    | nil => exact Nat.le_refl _
    | cons sample samples =>
      have hrest := ih samples
      simp only [assemble, length_append]
      cases w with
      | true =>
        rw [hhead rfl]
        omega
      | false =>
        simp
        omega

/-- More marks write more, unless there is nothing to write. -/
theorem assemble_eq_iff (parameterSets : List UInt8) {ws es : List Bool}
    (h : Forall₂ (fun w e => w = true → e = true) ws es) {samples : List Sample}
    (hlength : es.length = samples.length) :
    assemble parameterSets es samples = assemble parameterSets ws samples ↔ parameterSets = [] ∨ es = ws := by
  induction h generalizing samples with
  | nil => exact ⟨fun _ => .inr rfl, fun _ => rfl⟩
  | @cons w e ws es hhead hrest ih =>
    cases samples with
    | nil => cases hlength
    | cons sample samples =>
      have ih := ih (Nat.succ.inj hlength)
      by_cases heq : e = w
      · rw [heq, assemble, assemble, append_cancel_left_eq, ih, List.cons.injEq, eq_self, true_and]
      · obtain ⟨rfl, rfl⟩ : w = false ∧ e = true := by
          cases w with
          | true => exact absurd (hhead rfl) heq
          | false => exact ⟨rfl, (Bool.eq_false_or_eq_true e).resolve_right heq⟩
        have hle := assemble_length_le parameterSets hrest samples
        constructor
        · intro h
          have hlen := congrArg List.length h
          simp only [assemble, if_true, Bool.false_eq_true, if_false, length_append, length_nil] at hlen
          exact .inl (eq_nil_of_length_eq_zero (by omega))
        · intro h
          obtain rfl : parameterSets = [] := h.resolve_right (by simp)
          rw [assemble, assemble, ih.mpr (.inl rfl), if_pos rfl, if_neg Bool.false_ne_true]

theorem wanted_emitted {wasSync wasMarked : Bool} (h : wasMarked = true → wasSync = true) (samples : List Sample) :
    Forall₂ (fun w e => w = true → e = true) (wanted wasSync samples) (emitted wasMarked samples) := by
  induction samples generalizing wasSync wasMarked with
  | nil => exact .nil
  | cons sample samples ih =>
    apply Forall₂.cons
    · cases wasMarked with
      | false =>
        intro hwanted
        rw [(Bool.and_eq_true_iff.mp hwanted).1]
        rfl
      | true => simp [h rfl]
    · apply ih
      intro hmarked
      exact (Bool.and_eq_true_iff.mp hmarked).1

@[simp] theorem length_emitted (wasMarked : Bool) (samples : List Sample) :
    (emitted wasMarked samples).length = samples.length := by
  induction samples generalizing wasMarked with
  | nil => rfl
  | cons sample samples ih => rw [emitted, length_cons, ih, length_cons]

/-- The marks differ at the third of three sync samples in a row. One or two of them may have
come before; the last of them has a mark if it is the only one. -/
theorem emitted_eq_wanted_iff (samples : List Sample) :
    (emitted false samples = wanted false samples ↔ NoThreeSync (samples.map Sample.isSync)) ∧
      (emitted true samples = wanted true samples ↔ NoThreeSync (true :: samples.map Sample.isSync)) ∧
      (emitted false samples = wanted true samples ↔ NoThreeSync (true :: true :: samples.map Sample.isSync)) := by
  induction samples with
  | nil => simp [emitted, wanted, NoThreeSync]
  | cons sample samples ih =>
    obtain ⟨units, isSync⟩ : ∃ units isSync, sample = ⟨isSync, units⟩ := ⟨_, _, rfl⟩
    obtain ⟨isSync, rfl⟩ := isSync
    cases isSync with
    | false => simp [emitted, wanted, NoThreeSync, ih.1]
    | true => simp [emitted, wanted, NoThreeSync, ih.2.1, ih.2.2]

section Chunks

variable {avcc : AvcC} {samples : List Sample}

theorem parameterSets_eq_nil_iff :
    avcc.parameterSets = [] ↔ avcc.sequenceParameterSets = [] ∧ avcc.pictureParameterSets = [] := by
  have hnil : ∀ units, annexB units = [] ↔ units = [] := by
    intro units
    cases units with
    | nil => exact ⟨fun _ => rfl, fun _ => rfl⟩
    | cons unit units => simp [annexB, ANNEXB_NAL_START_CODE]
  rw [AvcC.parameterSets, append_eq_nil_iff, hnil, hnil]

theorem writeAvcChunkToNaluStream_eq
    (hsize : avcc.lengthPrefixSize = 1 ∨ avcc.lengthPrefixSize = 2 ∨ avcc.lengthPrefixSize = 4) {sample : Sample}
    (hsample : ∀ unit ∈ sample.units, FitsPrefix avcc.lengthPrefixSize unit) (stream : List UInt8)
    (wasMarked : Bool) :
    writeAvcChunkToNaluStream avcc stream (sample.chunk avcc.lengthPrefixSize) ⟨wasMarked⟩ =
      some (stream ++ ((if sample.isSync && !wasMarked then avcc.parameterSets else []) ++ annexB sample.units),
        .ok (), ⟨sample.isSync && !wasMarked⟩) := by
  show (writeLengthPrefixedNalus (if sample.isSync && !wasMarked then _ else _)
    (sample.units.flatMap (lengthPrefixed avcc.lengthPrefixSize)) _).map _ = _
  rw [writeLengthPrefixedNalus_units hsize hsample]
  show some (_, _, (⟨sample.isSync && !wasMarked⟩ : AnnexBStreamState)) = _
  cases sample.isSync && !wasMarked with
  | true => simp [AvcC.parameterSets]
  | false => simp

theorem writeChunks_eq
    (hsize : avcc.lengthPrefixSize = 1 ∨ avcc.lengthPrefixSize = 2 ∨ avcc.lengthPrefixSize = 4)
    (hunits : ∀ sample ∈ samples, ∀ unit ∈ sample.units, FitsPrefix avcc.lengthPrefixSize unit)
    (stream : List UInt8) (wasMarked : Bool) :
    writeChunks avcc stream ⟨wasMarked⟩ (samples.map (Sample.chunk avcc.lengthPrefixSize)) =
      some (stream ++ assemble avcc.parameterSets (emitted wasMarked samples) samples, .ok ()) := by
  induction samples generalizing stream wasMarked with
  | nil => simp [writeChunks, emitted, assemble]
  | cons sample samples ih =>
    obtain ⟨hsample, hunits⟩ := forall_mem_cons.mp hunits
    rw [map_cons, writeChunks, writeAvcChunkToNaluStream_eq hsize hsample]
    dsimp only
    rw [ih hunits, emitted, assemble]
    simp

theorem writeAvcChunkToNaluStream_truncated
    (hsize : avcc.lengthPrefixSize = 1 ∨ avcc.lengthPrefixSize = 2 ∨ avcc.lengthPrefixSize = 4)
    {units : List (List UInt8)} (hunits : ∀ unit ∈ units, FitsPrefix avcc.lengthPrefixSize unit)
    {unit tail : List UInt8} (hunit : FitsPrefix avcc.lengthPrefixSize unit)
    (htail : tail <+: lengthPrefixed avcc.lengthPrefixSize unit) (hne : tail ≠ [])
    (hshort : tail ≠ lengthPrefixed avcc.lengthPrefixSize unit) (stream : List UInt8) (isSync : Bool)
    (state : AnnexBStreamState) : ∃ written message,
      writeAvcChunkToNaluStream avcc stream
          ⟨isSync, units.flatMap (lengthPrefixed avcc.lengthPrefixSize) ++ tail⟩ state =
        some (written, .error (.badVideoData message), state) := by
  rw [writeAvcChunkToNaluStream, writeAvcChunkToAnnexb]
  obtain ⟨message, hwritten⟩ := writeLengthPrefixedNalus_truncated hsize hunits hunit htail hne hshort
    (if isSync && !state.previousFrameWasIdr then
      stream ++ annexB avcc.sequenceParameterSets ++ annexB avcc.pictureParameterSets else stream)
  rw [hwritten]
  exact ⟨_, message, rfl⟩

/-- The stream is the samples' units with the parameter sets before every sync sample that
does not come after one, and truncated chunks are errors: if and only if there are no
parameter sets, or no three sync samples in a row. -/
theorem writeChunks_iff
    (hsize : avcc.lengthPrefixSize = 1 ∨ avcc.lengthPrefixSize = 2 ∨ avcc.lengthPrefixSize = 4)
    (hunits : ∀ sample ∈ samples, ∀ unit ∈ sample.units, FitsPrefix avcc.lengthPrefixSize unit) :
    (writeChunks avcc [] ⟨false⟩ (samples.map (Sample.chunk avcc.lengthPrefixSize)) =
        some (assemble avcc.parameterSets (wanted false samples) samples, .ok ()) ∧
      ∀ (units : List (List UInt8)) unit tail stream isSync state, (∀ u ∈ units, FitsPrefix avcc.lengthPrefixSize u) →
        FitsPrefix avcc.lengthPrefixSize unit →
        tail <+: lengthPrefixed avcc.lengthPrefixSize unit → tail ≠ [] →
        tail ≠ lengthPrefixed avcc.lengthPrefixSize unit →
        ∃ written message, writeAvcChunkToNaluStream avcc stream
            ⟨isSync, units.flatMap (lengthPrefixed avcc.lengthPrefixSize) ++ tail⟩ state =
          some (written, .error (.badVideoData message), state)) ↔
      (avcc.sequenceParameterSets = [] ∧ avcc.pictureParameterSets = []) ∨
        NoThreeSync (samples.map Sample.isSync) := by
  have hmarks : ∀ h : Bool, assemble avcc.parameterSets (emitted false samples) samples =
      assemble avcc.parameterSets (wanted false samples) samples ↔
        avcc.parameterSets = [] ∨ emitted false samples = wanted false samples := fun _ =>
    assemble_eq_iff avcc.parameterSets (wanted_emitted (fun h => h) samples) (length_emitted false samples)
  rw [writeChunks_eq hsize hunits, nil_append, some_inj, Prod.mk.injEq, eq_self, and_true, hmarks true,
    parameterSets_eq_nil_iff, (emitted_eq_wanted_iff samples).1, and_iff_left_iff_imp]
  intro _ units unit tail stream isSync state hunits hunit htail hne hshort
  exact writeAvcChunkToNaluStream_truncated hsize hunits hunit htail hne hshort stream isSync state

end Chunks

/-- Sync samples of one unit. -/
def syncSamples (n : Nat) : List Sample := List.replicate n ⟨true, [[0x65]]⟩

def smallAvcC : AvcC := ⟨0, [[0x67]], [[0x68]]⟩

theorem fitsPrefix_syncSamples (n : Nat) :
    ∀ sample ∈ syncSamples n, ∀ unit ∈ sample.units, FitsPrefix smallAvcC.lengthPrefixSize unit := by
  intro sample hsample unit hunit
  obtain rfl := eq_of_mem_replicate hsample
  obtain rfl := mem_singleton.mp hunit
  show 1 < 256 ^ 1
  decide

theorem writeChunks_iff_two :
    writeChunks smallAvcC [] ⟨false⟩ ((syncSamples 2).map (Sample.chunk smallAvcC.lengthPrefixSize)) =
      some (assemble smallAvcC.parameterSets (wanted false (syncSamples 2)) (syncSamples 2), .ok ()) :=
  ((writeChunks_iff (.inl rfl) (fitsPrefix_syncSamples 2)).mpr (.inr trivial)).1

/-- The third of three sync samples has the parameter sets again. -/
theorem writeChunks_three :
    writeChunks smallAvcC [] ⟨false⟩ ((syncSamples 3).map (Sample.chunk smallAvcC.lengthPrefixSize)) =
        some ([0, 0, 0, 1, 0x67, 0, 0, 0, 1, 0x68, 0, 0, 0, 1, 0x65, 0, 0, 0, 1, 0x65,
          0, 0, 0, 1, 0x67, 0, 0, 0, 1, 0x68, 0, 0, 0, 1, 0x65], .ok ()) ∧
      assemble smallAvcC.parameterSets (wanted false (syncSamples 3)) (syncSamples 3) =
        [0, 0, 0, 1, 0x67, 0, 0, 0, 1, 0x68, 0, 0, 0, 1, 0x65, 0, 0, 0, 1, 0x65, 0, 0, 0, 1, 0x65] :=
  ⟨writeChunks_eq (.inl rfl) (fitsPrefix_syncSamples 3) [] false, rfl⟩

end Dalaran.Video
