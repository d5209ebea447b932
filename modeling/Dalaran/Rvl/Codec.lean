import Dalaran.Base.LittleEndian

/-
  The RVL depth codec (`dl_rvl`), and the encoder that its tests have.

  A stream of numbers of variable length, in nibbles: the length of a run of
  zeros, the length of the run of other values behind it, and for each of these
  its difference from the value before it. The differences go over the zeros.

  An `i32` is its 32 bits here, as a `u32` is. The quantization parameters are the
  bits of the two `f32`; decoding without quantization does not read them.

  Correspondence (Rust ↔ Lean):
    `Encoder`, `push_nibble`, `encode_vle`, `finish` (tests) ↔ `Encoder` and its functions
    `encode_rvl`, `build_depth_message` (tests) ↔ `encodeRvl`, `buildDepthMessage`
-/

namespace Dalaran.Rvl

open LittleEndian

abbrev I32 := BitVec 32

inductive RvlDecodeError where
  | missingHeader
  | missingResolution
  | zeroResolution
  | resolutionOverflow
  | resolutionTooLarge (width height : UInt32)
  | payloadLengthMismatch (width height : UInt32)
  | tooManyZeros
  | tooManyNonZeros
  | noProgress
  | valueOutOfRange (value : I32)
  | unexpectedEof
  | valueOverflow
  deriving DecidableEq

/-! ## The header -/

def CONFIG_HEADER_SIZE : Nat := 12

def RESOLUTION_HEADER_SIZE : Nat := 8

def MAX_DECODED_PIXELS : Nat := 2 ^ 26

structure RosRvlMetadata where
  width : UInt32
  height : UInt32
  depthQuantA : UInt32
  depthQuantB : UInt32
  payloadOffset : Nat
  numPixels : Nat
  deriving DecidableEq

namespace RosRvlMetadata

def payload (metadata : RosRvlMetadata) (bytes : List UInt8) : Except RvlDecodeError (List UInt8) :=
  if metadata.payloadOffset ≤ bytes.length then .ok (bytes.drop metadata.payloadOffset)
  else .error .unexpectedEof

def readU32 (data : List UInt8) (offset : Nat) : UInt32 := u32FromLe ((data.drop offset).take 4)

def parse (data : List UInt8) : Except RvlDecodeError RosRvlMetadata :=
  if data.length ≤ CONFIG_HEADER_SIZE then .error .missingHeader
  else if data.length < CONFIG_HEADER_SIZE + RESOLUTION_HEADER_SIZE then .error .missingResolution
  else
    let width := readU32 data CONFIG_HEADER_SIZE
    let height := readU32 data (CONFIG_HEADER_SIZE + 4)
    let payloadOffset := CONFIG_HEADER_SIZE + RESOLUTION_HEADER_SIZE
    let numPixels := width.toNat * height.toNat
    if width = 0 ∨ height = 0 then .error .zeroResolution
    else if 2 ^ 64 ≤ numPixels then .error .resolutionOverflow
    else if MAX_DECODED_PIXELS < numPixels then .error (.resolutionTooLarge width height)
    else if data.length < payloadOffset then .error (.payloadLengthMismatch width height)
    else .ok { width, height, depthQuantA := readU32 data 4, depthQuantB := readU32 data 8, payloadOffset, numPixels }

end RosRvlMetadata

/-! ## The decoder -/

structure RvlDecoder where
  input : List UInt8
  offset : Nat
  word : UInt32
  nibblesRemaining : Nat

namespace RvlDecoder

def new (input : List UInt8) : RvlDecoder := ⟨input, 0, 0, 0⟩

/-- The next word, when the nibbles of the last one are used up. -/
def refill (decoder : RvlDecoder) : Except RvlDecodeError RvlDecoder :=
  if decoder.nibblesRemaining = 0 then
    if decoder.input.length < decoder.offset + 4 then .error .unexpectedEof
    else .ok { decoder with
      word := u32FromLe ((decoder.input.drop decoder.offset).take 4)
      offset := decoder.offset + 4
      nibblesRemaining := 8 }
  else .ok decoder

def nextNibble (decoder : RvlDecoder) : Except RvlDecodeError (UInt8 × RvlDecoder) := do
  let decoder ← decoder.refill
  let nibble := ((decoder.word &&& 0xF0000000) >>> 28).toUInt8
  return (nibble, { decoder with word := decoder.word <<< 4, nibblesRemaining := decoder.nibblesRemaining - 1 })

def vleLoop (value : UInt32) (shift : Nat) (decoder : RvlDecoder) : Except RvlDecodeError (UInt32 × RvlDecoder) :=
  decoder.nextNibble >>= fun (nibble, decoder) =>
    let value := value ||| ((nibble &&& 0x7).toUInt32 <<< UInt32.ofNat shift)
    if nibble &&& 0x8 = 0 then .ok (value, decoder)
    else if h : 32 ≤ shift + 3 then .error .valueOverflow
    else vleLoop value (shift + 3) decoder
termination_by 32 - shift

def decodeVle (decoder : RvlDecoder) : Except RvlDecodeError (UInt32 × RvlDecoder) := vleLoop 0 0 decoder

/-- A run of values that are not zero: the values, the last one and the decoder behind them. -/
def decodeValues : Nat → I32 → RvlDecoder → Except RvlDecodeError (List UInt16 × I32 × RvlDecoder)
  | 0, previous, decoder => .ok ([], previous, decoder)
  | count + 1, previous, decoder =>
    decoder.decodeVle >>= fun (positive, decoder) =>
      let positive : I32 := positive.toBitVec
      let delta := positive.sshiftRight 1 ^^^ -(positive &&& 1)
      let previous := previous + delta
      if previous.toInt < 0 ∨ 65535 < previous.toInt then .error (.valueOutOfRange previous)
      else
        decodeValues count previous decoder >>= fun (values, last, decoder) =>
          .ok (UInt16.ofNat previous.toNat :: values, last, decoder)

/-- The loop of `decode_into`. Every turn writes a pixel, so the fuel is the number of these. -/
def decodeLoop : Nat → Nat → I32 → RvlDecoder → Except RvlDecodeError (List UInt16)
  | 0, _, _, _ => .ok []
  | fuel + 1, remaining, previous, decoder =>
    if remaining = 0 then .ok []
    else
      decoder.decodeVle >>= fun (zeros, decoder) =>
        if remaining < zeros.toNat then .error .tooManyZeros
        else
          decoder.decodeVle >>= fun (nonzeros, decoder) =>
            if remaining - zeros.toNat < nonzeros.toNat then .error .tooManyNonZeros
            else if zeros = 0 ∧ nonzeros = 0 then .error .noProgress
            else
              decodeValues nonzeros.toNat previous decoder >>= fun (values, previous, decoder) =>
                decodeLoop fuel (remaining - zeros.toNat - nonzeros.toNat) previous decoder >>= fun output =>
                  .ok (List.replicate zeros.toNat 0 ++ values ++ output)

def decodeInto (decoder : RvlDecoder) (numPixels : Nat) : Except RvlDecodeError (List UInt16) :=
  decodeLoop numPixels numPixels 0 decoder

end RvlDecoder

def decodeRvlWithoutQuantization (data : List UInt8) (metadata : RosRvlMetadata) :
    Except RvlDecodeError (List UInt16) := do
  let payload ← metadata.payload data
  (RvlDecoder.new payload).decodeInto metadata.numPixels

/-! ## The encoder of the tests -/

structure Encoder where
  buffer : List UInt8
  word : UInt32
  nibblesWritten : Nat

namespace Encoder

def new : Encoder := ⟨[], 0, 0⟩

def pushNibble (encoder : Encoder) (nibble : UInt8) : Encoder :=
  let word := (encoder.word <<< 4) ||| nibble.toUInt32
  if encoder.nibblesWritten + 1 = 8 then ⟨encoder.buffer ++ u32ToLe word, 0, 0⟩
  else ⟨encoder.buffer, word, encoder.nibblesWritten + 1⟩

def encodeVle (encoder : Encoder) (value : UInt32) : Encoder :=
  let nibble := (value &&& 0x7).toUInt8
  if value >>> 3 = 0 then encoder.pushNibble nibble
  else (encoder.pushNibble (nibble ||| 0x8)).encodeVle (value >>> 3)
termination_by value.toNat
decreasing_by
  rename_i h
  have hshift : (value >>> 3).toNat = value.toNat / 8 := by
    rw [UInt32.toNat_shiftRight]
    exact Nat.shiftRight_eq_div_pow _ _
  have hne : (value >>> 3).toNat ≠ 0 := fun hzero => h (UInt32.toNat_inj.mp hzero)
  omega

def finish (encoder : Encoder) : List UInt8 :=
  if 0 < encoder.nibblesWritten then
    encoder.buffer ++ u32ToLe (encoder.word <<< UInt32.ofNat (4 * (8 - encoder.nibblesWritten)))
  else encoder.buffer

def pixel (value : UInt16) : I32 := value.toBitVec.setWidth 32

def encodeValues (encoder : Encoder) (previous : I32) : List UInt16 → Encoder × I32
  | [] => (encoder, previous)
  | value :: values =>
    let delta := pixel value - previous
    let positive := delta <<< 1 ^^^ delta.sshiftRight 31
    (encoder.encodeVle ⟨positive⟩).encodeValues (pixel value) values

/-- A run of zeros and a run of other values, until there are no values. Every turn takes one, so
the fuel is the number of these. -/
def encodeRuns : Nat → Encoder → I32 → List UInt16 → Encoder
  | 0, encoder, _, _ => encoder
  | fuel + 1, encoder, previous, values =>
    if values = [] then encoder
    else
      let zeros := values.takeWhile (· == 0)
      let rest := values.dropWhile (· == 0)
      let nonzeros := rest.takeWhile (· != 0)
      let encoder := encoder.encodeVle (UInt32.ofNat zeros.length)
      let encoder := encoder.encodeVle (UInt32.ofNat nonzeros.length)
      let (encoder, previous) := encoder.encodeValues previous nonzeros
      encodeRuns fuel encoder previous (rest.dropWhile (· != 0))

end Encoder

def encodeRvl (values : List UInt16) : List UInt8 :=
  (Encoder.encodeRuns values.length Encoder.new 0 values).finish

/-- Format, quantization and resolution, and the compressed pixels. -/
def buildDepthMessage (width height : UInt32) (disparity : List UInt16) (quantA quantB : UInt32) : List UInt8 :=
  u32ToLe 0 ++ u32ToLe quantA ++ u32ToLe quantB ++ u32ToLe width ++ u32ToLe height ++ encodeRvl disparity

end Dalaran.Rvl
