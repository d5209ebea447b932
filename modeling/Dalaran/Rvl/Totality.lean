import Mathlib.Data.List.Nodup
import Dalaran.Base.Collect
import Dalaran.Base.Loop
import Dalaran.Rvl.Vle

/-
  Every RVL stream decodes to an image or an error.

  Here the decoder is taken with the checks that the program makes when it runs: a
  slice that is out of bounds, a counter that goes below zero and a shift past the
  word are panics. The loop of `decode_into` has no bound on its rounds; the state
  keeps a log of the pixels that were written, which the program does not have.

  A run of the checked decoder is a run of the decoder (`decodeVleChecked_eq`), and
  a round of the loop is a `turn` of its two runs. Every turn writes a pixel
  (`turn_ok`), so the loop ends, with every pixel written once or with the error of
  the round that was refused (`decodeInto_total`).

  Correspondence (Rust ↔ Lean):
    `RvlDecoder::{next_nibble, decode_vle}` ↔ `RvlDecoder.nextNibbleChecked`, `.decodeVleChecked`
    the `while` loop of `decode_into` ↔ `DecodeState.body`
    `output.iter_mut().skip(write_index).take(n)` ↔ `DecodeState.visited`
-/

namespace Dalaran.Rvl

open LittleEndian Nibbles List RvlDecoder
open Collect (bind_eq_ok)

/-! ## The checks of the program -/

/-- How a checked function fails. -/
inductive Fault where
  | error (e : RvlDecodeError)
  | panic
  deriving DecidableEq

/-- The outcome of a function that does not panic. -/
def checked {α : Type} : Except RvlDecodeError α → Except Fault α
  | .ok a => .ok a
  | .error e => .error (.error e)

def slice (data : List UInt8) (start stop : Nat) : Except Fault (List UInt8) :=
  if start ≤ stop ∧ stop ≤ data.length then .ok ((data.drop start).take (stop - start)) else .error .panic

namespace RvlDecoder

def refillChecked (decoder : RvlDecoder) : Except Fault RvlDecoder :=
  if decoder.nibblesRemaining = 0 then
    if decoder.input.length < decoder.offset + 4 then .error (.error .unexpectedEof)
    else
      slice decoder.input decoder.offset (decoder.offset + 4) >>= fun bytes =>
        .ok { decoder with word := u32FromLe bytes, offset := decoder.offset + 4, nibblesRemaining := 8 }
  else .ok decoder

def nextNibbleChecked (decoder : RvlDecoder) : Except Fault (UInt8 × RvlDecoder) :=
  decoder.refillChecked >>= fun decoder =>
    let nibble := ((decoder.word &&& 0xF0000000) >>> 28).toUInt8
    if decoder.nibblesRemaining = 0 then .error .panic
    else .ok (nibble, { decoder with word := decoder.word <<< 4, nibblesRemaining := decoder.nibblesRemaining - 1 })

def vleLoopChecked (value : UInt32) (shift : Nat) (decoder : RvlDecoder) : Except Fault (UInt32 × RvlDecoder) :=
  decoder.nextNibbleChecked >>= fun (nibble, decoder) =>
    if h : 32 ≤ shift then .error .panic
    else
      let value := value ||| ((nibble &&& 0x7).toUInt32 <<< UInt32.ofNat shift)
      if nibble &&& 0x8 = 0 then .ok (value, decoder)
      else if 32 ≤ shift + 3 then .error (.error .valueOverflow)
      else vleLoopChecked value (shift + 3) decoder
termination_by 32 - shift

def decodeVleChecked (decoder : RvlDecoder) : Except Fault (UInt32 × RvlDecoder) := vleLoopChecked 0 0 decoder

theorem refillChecked_eq (decoder : RvlDecoder) : decoder.refillChecked = checked decoder.refill := by
  unfold refillChecked refill
  split
  · split
    · rfl
    · next hlong =>
      rw [slice, if_pos ⟨Nat.le_add_right _ _, by omega⟩, Nat.add_sub_cancel_left]
      rfl
  · rfl

variable {decoder next : RvlDecoder}

theorem refill_spec (h : decoder.refill = .ok next) :
    next.input = decoder.input ∧ 0 < next.nibblesRemaining ∧
      (decoder.offset ≤ decoder.input.length → next.offset ≤ decoder.input.length) := by
  unfold refill at h
  split at h
  · split at h
    · cases h
    · cases h
      refine ⟨rfl, by simp, fun _ => ?_⟩
      show decoder.offset + 4 ≤ decoder.input.length
      omega
  · cases h
    exact ⟨rfl, by omega, id⟩

theorem nextNibbleChecked_eq (decoder : RvlDecoder) : decoder.nextNibbleChecked = checked decoder.nextNibble := by
  unfold nextNibbleChecked nextNibble
  rw [refillChecked_eq]
  cases hrefill : decoder.refill with
  | error e => rfl
  | ok next =>
    have hpos := (refill_spec hrefill).2.1
    simp only [checked, bind, Except.bind]
    rw [if_neg (by omega)]
    rfl

/-- The decoder goes on in its input, and stays within it. -/
def Continues (decoder next : RvlDecoder) : Prop :=
  next.input = decoder.input ∧ (decoder.offset ≤ decoder.input.length → next.offset ≤ decoder.input.length)

theorem Continues.refl (decoder : RvlDecoder) : decoder.Continues decoder := ⟨rfl, id⟩

theorem Continues.trans {a b c : RvlDecoder} (hab : a.Continues b) (hbc : b.Continues c) : a.Continues c := by
  obtain ⟨hinput, hoffset⟩ := hab
  obtain ⟨hinput', hoffset'⟩ := hbc
  rw [hinput] at hinput' hoffset'
  exact ⟨hinput', fun h => hoffset' (hoffset h)⟩

theorem nextNibble_continues {nibble : UInt8}
    (h : decoder.nextNibble = .ok (nibble, next)) : decoder.Continues next := by
  obtain ⟨filled, hrefill, h⟩ := bind_eq_ok.mp h
  obtain ⟨hinput, -, hoffset⟩ := refill_spec hrefill
  obtain ⟨-, rfl⟩ := Prod.mk.inj (Except.ok.inj h)
  exact ⟨hinput, hoffset⟩

theorem vleLoopChecked_eq (value : UInt32) (shift : Nat) (decoder : RvlDecoder) (hshift : shift < 32) :
    vleLoopChecked value shift decoder = checked (vleLoop value shift decoder) := by
  induction value, shift, decoder using vleLoop.induct with
  | case1 value shift decoder ih =>
    rw [vleLoopChecked, vleLoop, nextNibbleChecked_eq]
    cases hnibble : decoder.nextNibble with
    | error e => rfl
    | ok read =>
      obtain ⟨nibble, next⟩ := read
      simp only [checked, bind, Except.bind]
      rw [dif_neg (by omega)]
      split
      · rfl
      · split
        · rfl
        · next hroom => exact ih nibble next hroom (by omega)

theorem decodeVleChecked_eq (decoder : RvlDecoder) : decoder.decodeVleChecked = checked decoder.decodeVle :=
  vleLoopChecked_eq 0 0 decoder (by decide)

theorem vleLoop_continues (value : UInt32) (shift : Nat) (decoder : RvlDecoder) {v : UInt32}
    (h : vleLoop value shift decoder = .ok (v, next)) : decoder.Continues next := by
  induction value, shift, decoder using vleLoop.induct with
  | case1 value shift decoder ih =>
    rw [vleLoop] at h
    obtain ⟨⟨nibble, behind⟩, hnibble, h⟩ := bind_eq_ok.mp h
    have hread := nextNibble_continues hnibble
    dsimp only at h
    split at h
    · obtain ⟨-, rfl⟩ := Prod.mk.inj (Except.ok.inj h)
      exact hread
    · split at h
      · cases h
      · next hroom => exact hread.trans (ih nibble behind hroom h)

theorem decodeVle_continues {v : UInt32} (h : decoder.decodeVle = .ok (v, next)) : decoder.Continues next :=
  vleLoop_continues 0 0 decoder h

theorem decodeValues_continues {count : Nat} {previous last : I32} {values : List UInt16}
    (h : decodeValues count previous decoder = .ok (values, last, next)) :
    decoder.Continues next ∧ values.length = count := by
  induction count generalizing previous decoder values with
  | zero =>
    obtain ⟨rfl, hpair⟩ := Prod.mk.inj (Except.ok.inj h)
    obtain ⟨-, rfl⟩ := Prod.mk.inj hpair
    exact ⟨.refl _, rfl⟩
  | succ count ih =>
    obtain ⟨⟨positive, behind⟩, hread, h⟩ := bind_eq_ok.mp h
    dsimp only at h
    split at h
    · cases h
    · obtain ⟨⟨values', last', behind'⟩, hrest, h⟩ := bind_eq_ok.mp h
      obtain ⟨rfl, rfl, rfl⟩ := h
      obtain ⟨hcontinues, hlength⟩ := ih hrest
      exact ⟨(decodeVle_continues hread).trans hcontinues, by rw [length_cons, hlength]⟩

end RvlDecoder

/-! ## The loop -/

/-- The variables of `decode_into`, and which pixels have been written. -/
structure DecodeState where
  decoder : RvlDecoder
  output : List UInt16
  remaining : Nat
  writeIndex : Nat
  previous : I32
  written : List Nat

namespace DecodeState

def new (decoder : RvlDecoder) (output : List UInt16) : DecodeState := ⟨decoder, output, output.length, 0, 0, []⟩

def write (s : DecodeState) (index : Nat) (value : UInt16) : DecodeState :=
  { s with output := s.output.set index value, written := s.written ++ [index] }

/-- The pixels that a run goes over. -/
def visited (s : DecodeState) (count : Nat) : List Nat := ((range s.output.length).drop s.writeIndex).take count

def writeZeros (s : DecodeState) (indices : List Nat) : DecodeState := indices.foldl (fun s i => s.write i 0) s

def writeValues (s : DecodeState) : List Nat → Except Fault DecodeState
  | [] => .ok s
  | index :: indices =>
    s.decoder.decodeVleChecked >>= fun (positive, decoder) =>
      let positive : I32 := positive.toBitVec
      let delta := positive.sshiftRight 1 ^^^ -(positive &&& 1)
      let previous := s.previous + delta
      if previous.toInt < 0 ∨ 65535 < previous.toInt then .error (.error (.valueOutOfRange previous))
      else ({ s with decoder, previous }.write index (UInt16.ofNat previous.toNat)).writeValues indices

def advance (s : DecodeState) (count : Nat) : Except Fault DecodeState :=
  if s.remaining < count then .error .panic
  else .ok { s with writeIndex := s.writeIndex + count, remaining := s.remaining - count }

/-- The second half of a round: the run of other values. -/
def runOfValues (zeros : UInt32) (s : DecodeState) : Except Fault DecodeState :=
  s.decoder.decodeVleChecked >>= fun (nonzeros, decoder) =>
    let s := { s with decoder }
    if s.remaining < nonzeros.toNat then .error (.error .tooManyNonZeros)
    else if zeros = 0 ∧ nonzeros = 0 then .error (.error .noProgress)
    else s.writeValues (s.visited nonzeros.toNat) >>= fun s => s.advance nonzeros.toNat

/-- One round: a run of zeros and a run of other values. -/
def round (s : DecodeState) : Except Fault DecodeState :=
  s.decoder.decodeVleChecked >>= fun (zeros, decoder) =>
    let s := { s with decoder }
    if s.remaining < zeros.toNat then .error (.error .tooManyZeros)
    else (s.writeZeros (s.visited zeros.toNat)).advance zeros.toNat >>= runOfValues zeros

/-- The `while` loop: it goes on, or returns with what it has or with a fault. -/
def body (s : DecodeState) : DecodeState ⊕ Except Fault DecodeState :=
  if s.remaining = 0 then .inr (.ok s)
  else
    match s.round with
    | .ok next => .inl next
    | .error fault => .inr (.error fault)

/-! ## What is written -/

def filled (s : DecodeState) (index : Nat) (values : List UInt16) : DecodeState :=
  { s with
    output := s.output.take index ++ values ++ s.output.drop (index + values.length)
    written := s.written ++ range' index values.length }

theorem filled_nil (s : DecodeState) (index : Nat) : s.filled index [] = s := by
  simp [filled]

variable {s : DecodeState}

theorem filled_write {index : Nat} (h : index < s.output.length) (value : UInt16)
    (values : List UInt16) : (s.write index value).filled (index + 1) values = s.filled index (value :: values) := by
  have htake : (s.output.set index value).take (index + 1) = s.output.take index ++ [value] := by
    rw [set_eq_take_append_cons_drop, if_pos h, take_append, length_take_of_le h.le,
      take_take, Nat.min_eq_right (Nat.le_succ index)]
    simp
  have hdrop : (s.output.set index value).drop (index + 1 + values.length) =
      s.output.drop (index + (values.length + 1)) := by
    rw [drop_set_of_lt (by omega), Nat.add_assoc, Nat.add_comm 1]
  simp only [filled, write, htake, hdrop, length_cons, range'_succ, append_assoc, cons_append, nil_append]

theorem visited_eq {count : Nat} (h : s.writeIndex + count ≤ s.output.length) :
    s.visited count = range' s.writeIndex count := by
  rw [visited, range_eq_range', drop_range', take_range'_of_length_ge (by omega)]
  simp

theorem writeZeros_eq : ∀ {count : Nat} {s : DecodeState} {index : Nat}, index + count ≤ s.output.length →
    s.writeZeros (range' index count) = s.filled index (replicate count 0)
  | 0, s, index, _ => by rw [replicate_zero, filled_nil]; rfl
  | count + 1, s, index, h => by
    have hlength : (s.write index 0).output.length = s.output.length := length_set
    have hrest := @writeZeros_eq count (s.write index 0) (index + 1) (by omega)
    rw [replicate_succ, ← filled_write (by omega), ← hrest]
    rfl

theorem writeValues_eq : ∀ {count : Nat} {s : DecodeState} {index : Nat}, index + count ≤ s.output.length →
    s.writeValues (range' index count) = checked ((s.decoder.decodeValues count s.previous).map fun t =>
      { s.filled index t.1 with previous := t.2.1, decoder := t.2.2 })
  | 0, s, index, _ => by
    show Except.ok s = Except.ok { s.filled index [] with previous := s.previous, decoder := s.decoder }
    rw [filled_nil]
  | count + 1, s, index, h => by
    rw [range'_succ, writeValues, decodeVleChecked_eq, RvlDecoder.decodeValues]
    cases hread : s.decoder.decodeVle with
    | error e => rfl
    | ok read =>
      obtain ⟨positive, behind⟩ := read
      simp only [checked, bind, Except.bind]
      split
      · rfl
      · generalize hprevious : s.previous +
          (positive.toBitVec.sshiftRight 1 ^^^ -(positive.toBitVec &&& 1)) = previous
        generalize hnext : ({ s with decoder := behind, previous } : DecodeState).write index
          (UInt16.ofNat previous.toNat) = next
        have hlength : next.output.length = s.output.length := by
          rw [← hnext]
          exact length_set
        have hdecoder : next.decoder = behind := by rw [← hnext]; rfl
        have hlast : next.previous = previous := by rw [← hnext]; rfl
        rw [writeValues_eq (by omega), hdecoder, hlast]
        cases hrest : RvlDecoder.decodeValues count previous behind with
        | error e => rfl
        | ok rest =>
          obtain ⟨values, last, decoder⟩ := rest
          have hfilled : next.filled (index + 1) values = { s.filled index (UInt16.ofNat previous.toNat :: values) with
              decoder := behind, previous } := by
            rw [← hnext, filled_write (by show index < s.output.length; omega)]
            rfl
          simp only [Except.map, hfilled, checked]

/-! ## A round -/

theorem advance_eq {count : Nat} (h : count ≤ s.remaining) :
    s.advance count = .ok { s with writeIndex := s.writeIndex + count, remaining := s.remaining - count } :=
  if_neg (by omega)

def behindValues (s : DecodeState) (run : List UInt16 × I32 × RvlDecoder) : DecodeState :=
  { s.filled s.writeIndex run.1 with
    decoder := run.2.2
    remaining := s.remaining - run.1.length
    writeIndex := s.writeIndex + run.1.length
    previous := run.2.1 }

def behindZeros (s : DecodeState) (zeros : UInt32 × RvlDecoder) : DecodeState :=
  s.behindValues (replicate zeros.1.toNat 0, s.previous, zeros.2)

/-- The second half of a round, without the checks. -/
def valuesTurn (zeros : UInt32) (s : DecodeState) : Except RvlDecodeError DecodeState :=
  s.decoder.decodeVle >>= fun nonzeros =>
    if s.remaining < nonzeros.1.toNat then .error .tooManyNonZeros
    else if zeros = 0 ∧ nonzeros.1 = 0 then .error .noProgress
    else (nonzeros.2.decodeValues nonzeros.1.toNat s.previous).map s.behindValues

/-- A round, without the checks. -/
def turn (s : DecodeState) : Except RvlDecodeError DecodeState :=
  s.decoder.decodeVle >>= fun zeros =>
    if s.remaining < zeros.1.toNat then .error .tooManyZeros
    else (s.behindZeros zeros).valuesTurn zeros.1

theorem writeZeros_advance {count : Nat} (hfits : s.writeIndex + count ≤ s.output.length)
    (hcount : count ≤ s.remaining) : (s.writeZeros (s.visited count)).advance count =
      .ok (s.behindValues (replicate count 0, s.previous, s.decoder)) := by
  rw [visited_eq hfits, writeZeros_eq hfits]
  refine (advance_eq (s := s.filled s.writeIndex _) hcount).trans ?_
  rw [behindValues]
  simp only [length_replicate]
  rfl

theorem writeValues_advance {count : Nat} (hfits : s.writeIndex + count ≤ s.output.length)
    (hcount : count ≤ s.remaining) : (s.writeValues (s.visited count) >>= fun t => t.advance count) =
      checked ((s.decoder.decodeValues count s.previous).map s.behindValues) := by
  rw [visited_eq hfits, writeValues_eq hfits]
  cases hvalues : s.decoder.decodeValues count s.previous with
  | error e => rfl
  | ok run =>
    obtain ⟨values, last, next⟩ := run
    have hlength : values.length = count := (decodeValues_continues hvalues).2
    simp only [checked, Except.map, bind, Except.bind]
    refine (advance_eq (s := { s.filled s.writeIndex values with previous := last, decoder := next })
      hcount).trans ?_
    rw [behindValues]
    simp only [hlength]
    rfl

theorem runOfValues_eq (h : s.writeIndex + s.remaining = s.output.length) (zeros : UInt32) :
    s.runOfValues zeros = checked (s.valuesTurn zeros) := by
  unfold runOfValues valuesTurn
  rw [decodeVleChecked_eq]
  cases hread : s.decoder.decodeVle with
  | error e => rfl
  | ok read =>
    obtain ⟨nonzeros, decoder⟩ := read
    simp only [checked, bind, Except.bind]
    split
    · rfl
    · next hfew =>
      split
      · rfl
      · apply @writeValues_advance { s with decoder } nonzeros.toNat
        · show s.writeIndex + nonzeros.toNat ≤ s.output.length
          omega
        · exact Nat.le_of_not_lt hfew

theorem behindValues_length {run : List UInt16 × I32 × RvlDecoder} (h : s.writeIndex + s.remaining = s.output.length)
    (hrun : run.1.length ≤ s.remaining) :
    (s.behindValues run).output.length = s.output.length ∧
      (s.behindValues run).writeIndex + (s.behindValues run).remaining = s.output.length := by
  simp only [behindValues, filled, length_append, length_take, length_drop]
  omega

theorem round_eq (h : s.writeIndex + s.remaining = s.output.length) : s.round = checked s.turn := by
  unfold round turn
  rw [decodeVleChecked_eq]
  cases hread : s.decoder.decodeVle with
  | error e => rfl
  | ok read =>
    obtain ⟨zeros, decoder⟩ := read
    simp only [checked, bind, Except.bind]
    split
    · rfl
    · next hfew =>
      have hzeros := @writeZeros_advance { s with decoder } zeros.toNat
        (by show s.writeIndex + zeros.toNat ≤ s.output.length; omega) (Nat.le_of_not_lt hfew)
      rw [hzeros]
      obtain ⟨hlength, hindex⟩ := @behindValues_length s (replicate zeros.toNat 0, s.previous, decoder) h
        (by rw [length_replicate]; omega)
      apply runOfValues_eq
      exact hindex.trans hlength.symm

/-! ## What a round keeps -/

/-- The pixels in front of the write index have been written once, in order, and the decoder is in the input. -/
structure InBounds (input : List UInt8) (numPixels : Nat) (s : DecodeState) : Prop where
  length : s.output.length = numPixels
  index : s.writeIndex + s.remaining = numPixels
  written : s.written = range s.writeIndex
  input_eq : s.decoder.input = input
  offset_le : s.decoder.offset ≤ input.length

variable {input : List UInt8} {numPixels : Nat} {s t : DecodeState}

theorem behindValues_inBounds (h : s.InBounds input numPixels) {run : List UInt16 × I32 × RvlDecoder}
    (hrun : run.1.length ≤ s.remaining) (hdecoder : s.decoder.Continues run.2.2) :
    (s.behindValues run).InBounds input numPixels := by
  obtain ⟨hlength, hindex⟩ := behindValues_length (h.index.trans h.length.symm) hrun
  obtain ⟨hinput, hoffset⟩ := hdecoder
  rw [h.input_eq] at hinput hoffset
  refine ⟨hlength.trans h.length, hindex.trans h.length, ?_, hinput, hoffset h.offset_le⟩
  show s.written ++ range' s.writeIndex run.1.length = range (s.writeIndex + run.1.length)
  rw [h.written, range_eq_range', range_eq_range', ← range'_append_1, Nat.zero_add]

theorem behindValues_take (h : s.InBounds input numPixels) (run : List UInt16 × I32 × RvlDecoder) :
    (s.behindValues run).output.take (s.behindValues run).writeIndex = s.output.take s.writeIndex ++ run.1 := by
  have hlength := h.length
  have hindex := h.index
  apply take_left'
  rw [length_append, length_take_of_le (by omega)]
  rfl

theorem behindZeros_remaining (s : DecodeState) (zeros : UInt32 × RvlDecoder) :
    (s.behindZeros zeros).remaining = s.remaining - zeros.1.toNat := by
  show s.remaining - (replicate zeros.1.toNat (0 : UInt16)).length = _
  rw [length_replicate]

@[simp] theorem behindZeros_decoder (s : DecodeState) (zeros : UInt32 × RvlDecoder) :
    (s.behindZeros zeros).decoder = zeros.2 := rfl

@[simp] theorem behindZeros_previous (s : DecodeState) (zeros : UInt32 × RvlDecoder) :
    (s.behindZeros zeros).previous = s.previous := rfl

theorem behindZeros_inBounds (h : s.InBounds input numPixels) {zeros : UInt32 × RvlDecoder}
    (hread : s.decoder.decodeVle = .ok zeros) (hfew : zeros.1.toNat ≤ s.remaining) :
    (s.behindZeros zeros).InBounds input numPixels := by
  apply behindValues_inBounds h
  · show (replicate zeros.1.toNat (0 : UInt16)).length ≤ s.remaining
    rwa [length_replicate]
  · exact decodeVle_continues hread

theorem valuesTurn_ok (h : s.InBounds input numPixels) {zeros : UInt32} (ht : s.valuesTurn zeros = .ok t) :
    t.InBounds input numPixels ∧ (zeros = 0 → t.remaining < s.remaining) ∧ t.remaining ≤ s.remaining ∧
      ∃ values, t.output.take t.writeIndex = s.output.take s.writeIndex ++ values := by
  obtain ⟨nonzeros, hread, ht⟩ := bind_eq_ok.mp ht
  split at ht
  · cases ht
  · next hfew =>
    split at ht
    · cases ht
    · next hprogress =>
      obtain ⟨run, hvalues, ht⟩ := bind_eq_ok.mp ht
      cases ht
      obtain ⟨hcontinues, hlength⟩ := decodeValues_continues hvalues
      have hrun : run.1.length ≤ s.remaining := by omega
      refine ⟨behindValues_inBounds h hrun ((decodeVle_continues hread).trans hcontinues),
        fun hzero => ?_, Nat.sub_le _ _, run.1, behindValues_take h run⟩
      have hne : nonzeros.1.toNat ≠ 0 := fun hnone => hprogress ⟨hzero, UInt32.toNat_inj.mp hnone⟩
      show s.remaining - run.1.length < s.remaining
      omega

theorem turn_ok (h : s.InBounds input numPixels) (ht : s.turn = .ok t) :
    t.InBounds input numPixels ∧ (s.remaining ≠ 0 → t.remaining < s.remaining) ∧
      ∃ values, t.output.take t.writeIndex = s.output.take s.writeIndex ++ values := by
  obtain ⟨zeros, hread, ht⟩ := bind_eq_ok.mp ht
  split at ht
  · cases ht
  · next hfew =>
    have hleft := behindZeros_remaining s zeros
    obtain ⟨hbounds, hless, hle, values, hvalues⟩ :=
      valuesTurn_ok (behindZeros_inBounds h hread (Nat.le_of_not_lt hfew)) ht
    refine ⟨hbounds, fun hremaining => ?_, replicate zeros.1.toNat 0 ++ values, ?_⟩
    · by_cases hzero : zeros.1 = 0
      · exact (hless hzero).trans_le (hleft ▸ Nat.sub_le _ _)
      · have hne : zeros.1.toNat ≠ 0 := fun hnone => hzero (UInt32.toNat_inj.mp hnone)
        omega
    · rw [hvalues, behindZeros, behindValues_take h, append_assoc]

theorem decodeLoop_succ (h : s.InBounds input numPixels) (hremaining : s.remaining ≠ 0) (fuel : Nat) :
    RvlDecoder.decodeLoop (fuel + 1) s.remaining s.previous s.decoder = s.turn >>= fun t =>
      (RvlDecoder.decodeLoop fuel t.remaining t.previous t.decoder).map
        ((t.output.take t.writeIndex).drop s.writeIndex ++ ·) := by
  rw [RvlDecoder.decodeLoop, turn, if_neg hremaining]
  cases hread : s.decoder.decodeVle with
  | error e => rfl
  | ok zeros =>
    simp only [bind, Except.bind]
    by_cases hmany : s.remaining < zeros.1.toNat
    · rw [if_pos hmany, if_pos hmany]
    · rw [if_neg hmany, if_neg hmany, valuesTurn, behindZeros_remaining, behindZeros_decoder]
      cases hread' : zeros.2.decodeVle with
      | error e => rfl
      | ok nonzeros =>
        simp only [bind, Except.bind]
        by_cases hmany' : s.remaining - zeros.1.toNat < nonzeros.1.toNat
        · rw [if_pos hmany', if_pos hmany']
        · rw [if_neg hmany', if_neg hmany']
          by_cases hnone : zeros.1 = 0 ∧ nonzeros.1 = 0
          · rw [if_pos hnone, if_pos hnone]
          · rw [if_neg hnone, if_neg hnone, behindZeros_previous]
            cases hvalues : nonzeros.2.decodeValues nonzeros.1.toNat s.previous with
            | error e => rfl
            | ok run =>
              have hlength : run.1.length = nonzeros.1.toNat := (decodeValues_continues hvalues).2
              have hmiddle := behindZeros_inBounds h hread (Nat.le_of_not_lt hmany)
              have hindex : (s.output.take s.writeIndex).length = s.writeIndex := by
                have := h.length
                have := h.index
                exact length_take_of_le (by omega)
              have htake : ((((s.behindZeros zeros).behindValues run).output.take
                  ((s.behindZeros zeros).behindValues run).writeIndex)).drop s.writeIndex =
                    replicate zeros.1.toNat 0 ++ run.1 := by
                rw [behindValues_take hmiddle, behindZeros, behindValues_take h, append_assoc, drop_left' hindex]
              have hnext : ((s.behindZeros zeros).behindValues run).remaining =
                  s.remaining - zeros.1.toNat - nonzeros.1.toNat := by
                rw [← hlength, ← behindZeros_remaining]
                rfl
              simp only [Except.map]
              rw [htake, hnext, show ((s.behindZeros zeros).behindValues run).previous = run.2.1 from rfl,
                show ((s.behindZeros zeros).behindValues run).decoder = run.2.2 from rfl]

theorem body_eq (h : s.InBounds input numPixels) (hremaining : s.remaining ≠ 0) :
    (∀ next, s.turn = .ok next → s.body = .inl next) ∧
      ∀ e, s.turn = .error e → s.body = .inr (.error (.error e)) := by
  rw [body, if_neg hremaining, round_eq (h.index.trans h.length.symm)]
  constructor
  · intro next hnext
    rw [hnext]
    rfl
  · intro e he
    rw [he]
    rfl

/-- From any state within the bounds the loop ends, without a panic: with an error, or with all pixels written.
It does what the loop of the decoder does. -/
theorem body_ends : ∀ {fuel : Nat} {s : DecodeState}, s.InBounds input numPixels → s.remaining ≤ fuel →
    ∃ r, Loop.Ends body s (checked r) ∧
      RvlDecoder.decodeLoop fuel s.remaining s.previous s.decoder = r.map (fun t => t.output.drop s.writeIndex) ∧
      ∀ t, r = .ok t → t.InBounds input numPixels ∧ t.remaining = 0 ∧
        t.output.take s.writeIndex = s.output.take s.writeIndex
  | fuel, s, h, hfuel => by
    by_cases hremaining : s.remaining = 0
    · -- nothing is left to write
      have hindex := h.index
      have hlength := h.length
      refine ⟨.ok s, .stop (by rw [body, if_pos hremaining]; rfl), ?_, ?_⟩
      · have hnil : s.output.drop s.writeIndex = [] := drop_of_length_le (by omega)
        rw [hremaining, Except.map, hnil]
        cases fuel <;> rfl
      · intro t ht
        cases ht
        exact ⟨h, hremaining, rfl⟩
    · obtain ⟨fuel, rfl⟩ : ∃ k, fuel = k + 1 := ⟨fuel - 1, by omega⟩
      obtain ⟨hgoes, hfails⟩ := body_eq h hremaining
      rw [decodeLoop_succ h hremaining]
      cases hturn : s.turn with
      | error e =>
        refine ⟨.error e, .stop (hfails e hturn), rfl, ?_⟩
        intro t ht
        cases ht
      | ok next =>
        obtain ⟨hbounds, hless, values, hvalues⟩ := turn_ok h hturn
        obtain ⟨r, hends, hloop, hresult⟩ := @body_ends fuel next hbounds (by have := hless hremaining; omega)
        have hs := h.index
        have hs' := h.length
        have hnext := hbounds.index
        have hnext' := hbounds.length
        have hfront : (s.output.take s.writeIndex).length = s.writeIndex := length_take_of_le (by omega)
        have hindex : s.writeIndex ≤ next.writeIndex := by
          have hlength := congrArg length hvalues
          rw [length_take_of_le (by omega), length_append, hfront] at hlength
          omega
        refine ⟨r, .next (hgoes next hturn) hends, ?_, fun t ht => ?_⟩
        · show (RvlDecoder.decodeLoop fuel next.remaining next.previous next.decoder).map _ = _
          rw [hloop]
          cases r with
          | error e => rfl
          | ok t =>
            obtain ⟨-, -, htake⟩ := hresult t rfl
            have hsplit : t.output.drop s.writeIndex =
                (next.output.take next.writeIndex).drop s.writeIndex ++ t.output.drop next.writeIndex := by
              conv_lhs => rw [← take_append_drop next.writeIndex t.output, htake]
              apply drop_append_of_le_length
              rw [length_take_of_le (by omega)]
              exact hindex
            simp only [Except.map, hsplit]
        · obtain ⟨htbounds, hdone, htake⟩ := hresult t ht
          refine ⟨htbounds, hdone, ?_⟩
          calc t.output.take s.writeIndex = (t.output.take next.writeIndex).take s.writeIndex := by
                rw [take_take, Nat.min_eq_left hindex]
            _ = (s.output.take s.writeIndex ++ values).take s.writeIndex := by rw [htake, hvalues]
            _ = s.output.take s.writeIndex := take_left' hfront

/-! ## Refused streams -/

/-- The ways in which a round ends with an error. -/
inductive Refused (s : DecodeState) : RvlDecodeError → Prop
  | zerosUnread {e : RvlDecodeError} (h : s.decoder.decodeVle = .error e) : Refused s e
  | tooManyZeros {zeros : UInt32 × RvlDecoder} (h : s.decoder.decodeVle = .ok zeros)
      (hmany : s.remaining < zeros.1.toNat) : Refused s .tooManyZeros
  | nonzerosUnread {zeros : UInt32 × RvlDecoder} {e : RvlDecodeError} (h : s.decoder.decodeVle = .ok zeros)
      (hfew : zeros.1.toNat ≤ s.remaining) (h' : zeros.2.decodeVle = .error e) : Refused s e
  | tooManyNonZeros {zeros nonzeros : UInt32 × RvlDecoder} (h : s.decoder.decodeVle = .ok zeros)
      (h' : zeros.2.decodeVle = .ok nonzeros) (hfew : zeros.1.toNat ≤ s.remaining)
      (hmany : s.remaining < zeros.1.toNat + nonzeros.1.toNat) : Refused s .tooManyNonZeros
  | noProgress {zeros nonzeros : UInt32 × RvlDecoder} (h : s.decoder.decodeVle = .ok zeros)
      (h' : zeros.2.decodeVle = .ok nonzeros) (hzeros : zeros.1 = 0) (hnonzeros : nonzeros.1 = 0) :
      Refused s .noProgress
  | valuesUnread {zeros nonzeros : UInt32 × RvlDecoder} {e : RvlDecodeError} (h : s.decoder.decodeVle = .ok zeros)
      (h' : zeros.2.decodeVle = .ok nonzeros) (hfew : zeros.1.toNat + nonzeros.1.toNat ≤ s.remaining)
      (hvalues : nonzeros.2.decodeValues nonzeros.1.toNat s.previous = .error e) : Refused s e

theorem turn_of_zeros {zeros : UInt32 × RvlDecoder} (h : s.decoder.decodeVle = .ok zeros)
    (hfew : zeros.1.toNat ≤ s.remaining) : s.turn = (s.behindZeros zeros).valuesTurn zeros.1 := by
  rw [turn, h]
  exact if_neg (by omega)

theorem Refused.turn_eq {e : RvlDecodeError} (h : s.Refused e) : s.turn = .error e := by
  have hzero : (0 : UInt32).toNat = 0 := rfl
  cases h with
  | zerosUnread h => rw [turn, h]; rfl
  | tooManyZeros h hmany =>
    rw [turn, h]
    exact if_pos hmany
  | nonzerosUnread h hfew h' =>
    rw [turn_of_zeros h hfew, valuesTurn, behindZeros_decoder, h']
    rfl
  | tooManyNonZeros h h' hfew hmany =>
    rw [turn_of_zeros h hfew, valuesTurn, behindZeros_decoder, h', behindZeros_remaining]
    exact if_pos (by omega)
  | noProgress h h' hzeros hnonzeros =>
    rw [turn_of_zeros h (by rw [hzeros]; omega), valuesTurn, behindZeros_decoder, h']
    simp only [bind, Except.bind]
    rw [if_neg (by rw [hnonzeros]; omega), if_pos ⟨hzeros, hnonzeros⟩]
  | valuesUnread h h' hfew hvalues =>
    rw [turn_of_zeros h (by omega), valuesTurn, behindZeros_decoder, h', behindZeros_remaining, behindZeros_previous]
    simp only [bind, Except.bind]
    rw [if_neg (by omega), hvalues, if_neg]
    · rfl
    · -- an empty run does not fail
      intro hnone
      rw [hnone.2, hzero] at hvalues
      cases hvalues

def start (input : List UInt8) (output : List UInt16) : DecodeState := new (.new input) output

theorem start_inBounds (input : List UInt8) (output : List UInt16) :
    (start input output).InBounds input output.length :=
  ⟨rfl, Nat.zero_add _, rfl, rfl, Nat.zero_le _⟩

theorem reaches_inBounds {output : List UInt16} (h : Loop.Reaches body (start input output) s) :
    s.InBounds input output.length := by
  apply h.invariant
  · intro s t hs hbody
    by_cases hremaining : s.remaining = 0
    · rw [body, if_pos hremaining] at hbody
      cases hbody
    · obtain ⟨hgoes, hfails⟩ := body_eq hs hremaining
      cases hturn : s.turn with
      | error e =>
        rw [hfails e hturn] at hbody
        cases hbody
      | ok next =>
        rw [hgoes next hturn] at hbody
        obtain rfl := Sum.inl.inj hbody
        exact (turn_ok hs hturn).1
  · exact start_inBounds input output

end DecodeState

/-! ## Totality -/

open DecodeState in
/-- Decoding some bytes into an output of some pixels ends, stays within both, and writes every pixel once or
fails; a round that cannot go on fails with the error for it. -/
structure DecodesTotally (input : List UInt8) (output : List UInt16) : Prop where
  ends : ∃ r, Loop.Ends body (start input output) (checked r) ∧
    (RvlDecoder.new input).decodeInto output.length = r.map (·.output) ∧
    ∀ t, r = .ok t → t.written = range output.length ∧ t.output.length = output.length
  inBounds : ∀ s, Loop.Reaches body (start input output) s →
    s.decoder.input = input ∧ s.decoder.offset ≤ input.length ∧ ∀ index ∈ s.written, index < output.length
  refuses : ∀ s e, Loop.Reaches body (start input output) s → s.remaining ≠ 0 → s.Refused e →
    Loop.Ends body (start input output) (.error (.error e))
  endsEarly : ∀ s, Loop.Reaches body (start input output) s → s.remaining ≠ 0 → (∀ n ∈ s.decoder.pending, 8 ≤ n) →
    Loop.Ends body (start input output)
      (.error (.error (if s.decoder.pending.length ≤ 10 then .unexpectedEof else .valueOverflow)))

open DecodeState in
/-- Every text decodes into every output. -/
theorem decodeInto_total (input : List UInt8) (output : List UInt16) : DecodesTotally input output := by
  have hrefuses : ∀ s e, Loop.Reaches body (start input output) s → s.remaining ≠ 0 → s.Refused e →
      Loop.Ends body (start input output) (.error (.error e)) := by
    intro s e hs hremaining hrefused
    apply hs.ends
    exact .stop ((body_eq (reaches_inBounds hs) hremaining).2 e hrefused.turn_eq)
  refine ⟨?_, fun s hs => ?_, hrefuses, fun s hs hremaining hpending => ?_⟩
  · obtain ⟨r, hends, hloop, hresult⟩ := body_ends (start_inBounds input output) (Nat.le_refl output.length)
    refine ⟨r, hends, hloop, fun t ht => ?_⟩
    obtain ⟨hbounds, hdone, -⟩ := hresult t ht
    have hindex := hbounds.index
    rw [hdone, Nat.add_zero] at hindex
    exact ⟨hindex ▸ hbounds.written, hbounds.length⟩
  · have hbounds := reaches_inBounds hs
    refine ⟨hbounds.input_eq, hbounds.offset_le, fun index hindex => ?_⟩
    rw [hbounds.written, mem_range] at hindex
    have := hbounds.index
    omega
  · exact hrefuses s _ hs hremaining (.zerosUnread (decodeVle_incomplete hpending))

end Dalaran.Rvl
