import Mathlib.Data.List.TakeWhile
import Dalaran.Base.Nibbles
import Dalaran.Rvl.Codec

/-
  What the decoder reads of what the encoder of the tests wrote.

  Both sides are proved against the stream of nibbles: `Encoder.Holds` says which
  nibbles have been pushed, `RvlDecoder.pending` which ones are still to come. A
  number is its groups of three bits there (`encodeVle_holds`, `decodeVle_pending`),
  and an image the numbers of its runs (`runNibbles`).
-/

namespace Dalaran.Rvl

open LittleEndian Nibbles List RvlDecoder Rvl.Encoder RosRvlMetadata

/-! ## Nibbles read -/

namespace RvlDecoder

def pending (decoder : RvlDecoder) : List Nat :=
  digits decoder.nibblesRemaining decoder.word.toNat ++ stream (decoder.input.drop decoder.offset)

variable {decoder : RvlDecoder}

theorem refill_pending (h : decoder.pending ≠ []) :
    ∃ next, decoder.refill = .ok next ∧ next.pending = decoder.pending ∧ 0 < next.nibblesRemaining := by
  unfold refill
  split
  · next hzero =>
    rw [pending, hzero] at h ⊢
    simp only [digits, nil_append] at h ⊢
    generalize hbytes : decoder.input.drop decoder.offset = bytes at h ⊢
    rcases bytes with _ | ⟨a, _ | ⟨b, _ | ⟨c, _ | ⟨d, bytes⟩⟩⟩⟩
    -- fewer bytes than a word hold nothing
    · exact absurd rfl h
    · exact absurd rfl h
    · exact absurd rfl h
    · exact absurd rfl h
    · have hlength : (decoder.input.drop decoder.offset).length = bytes.length + 4 := by
        rw [hbytes]
        rfl
      rw [length_drop] at hlength
      rw [if_neg (by omega)]
      refine ⟨_, rfl, ?_, by simp⟩
      have hbehind : decoder.input.drop (decoder.offset + 4) = bytes := by
        rw [← drop_drop, hbytes]
        rfl
      have hvalue : (u32FromLe [a, b, c, d]).toNat = leValue [a, b, c, d] := by
        have hlt : leValue [a, b, c, d] < 256 ^ 4 := leValue_lt [a, b, c, d]
        rw [u32FromLe, UInt32.toNat_ofNat', Nat.mod_eq_of_lt (by omega)]
      simp only [pending, hbehind, stream]
      change digits 8 (u32FromLe [a, b, c, d]).toNat ++ _ = _
      rw [hvalue]
  · next hne => exact ⟨decoder, rfl, rfl, Nat.pos_of_ne_zero hne⟩

theorem top_nibble (word : UInt32) : ((word &&& 0xF0000000) >>> 28).toUInt8 = UInt8.ofNat (word.toNat / 2 ^ 28) := by
  apply UInt8.toNat_inj.mp
  have htop : (word.toNat &&& 0xF0000000) / 2 ^ 28 = word.toNat / 2 ^ 28 := by
    have hlt : word.toNat / 2 ^ 28 < 2 ^ 4 := by
      have := word.toNat_lt
      omega
    rw [← Nat.shiftRight_eq_div_pow, Nat.shiftRight_and_distrib, Nat.shiftRight_eq_div_pow]
    exact (Nat.and_two_pow_sub_one_eq_mod _ 4).trans (Nat.mod_eq_of_lt hlt)
  have hmask : (0xF0000000 : UInt32).toNat = 0xF0000000 := rfl
  have hamount : (28 : UInt32).toNat % 32 = 28 := rfl
  rw [UInt32.toNat_toUInt8, UInt32.toNat_shiftRight, UInt32.toNat_and, UInt8.toNat_ofNat', ← htop, hmask,
    hamount, Nat.shiftRight_eq_div_pow]

theorem shifted_word (word : UInt32) : (word <<< 4).toNat = word.toNat * 16 % 2 ^ 32 := by
  exact congrArg (· % 2 ^ 32) (Nat.shiftLeft_eq word.toNat 4)

theorem nextNibble_pending {n : Nat} {ns : List Nat} (h : decoder.pending = n :: ns) :
    ∃ next, decoder.nextNibble = .ok (UInt8.ofNat n, next) ∧ next.pending = ns := by
  obtain ⟨filled, hfilled, hpending, hpos⟩ := refill_pending (by rw [h]; exact cons_ne_nil n ns)
  obtain ⟨k, hk⟩ : ∃ k, filled.nibblesRemaining = k + 1 := ⟨filled.nibblesRemaining - 1, by omega⟩
  rw [h, pending, hk, digits, cons_append] at hpending
  obtain ⟨hn, hns⟩ := cons.inj hpending
  refine ⟨{ filled with word := filled.word <<< 4, nibblesRemaining := filled.nibblesRemaining - 1 }, ?_, ?_⟩
  · rw [nextNibble, hfilled, ← hn, ← top_nibble]
    rfl
  · rw [pending, hk, ← hns, shifted_word]
    rfl

/-! ## Numbers read -/

theorem nibble_facts : ∀ n < 16, (UInt8.ofNat n &&& 0x7).toUInt32.toNat = n % 8 ∧
    (UInt8.ofNat n &&& 0x8 = 0 ↔ n < 8) := by decide

theorem toNat_or_shift {value : UInt32} {n shift : Nat} (hn : n < 16) (hshift : shift < 32)
    (hvalue : value.toNat < 2 ^ shift) (hfits : n % 8 * 2 ^ shift < 2 ^ 32) :
    (value ||| ((UInt8.ofNat n &&& 0x7).toUInt32 <<< UInt32.ofNat shift)).toNat = value.toNat + n % 8 * 2 ^ shift := by
  have hamount : (UInt32.ofNat shift).toNat % 32 = shift := by
    rw [UInt32.toNat_ofNat', Nat.mod_eq_of_lt (show shift < 2 ^ 32 by omega), Nat.mod_eq_of_lt hshift]
  rw [UInt32.toNat_or, UInt32.toNat_shiftLeft, (nibble_facts n hn).1, hamount, Nat.shiftLeft_eq,
    Nat.mod_eq_of_lt hfits, Nat.or_comm, Nat.mul_comm, ← Nat.two_pow_add_eq_or_of_lt hvalue, Nat.add_comm]

theorem vleLoop_pending {v shift : Nat} {value : UInt32} {rest : List Nat} (hshift : shift < 32)
    (hvalue : value.toNat < 2 ^ shift) (hv : v * 2 ^ shift < 2 ^ 32) (h : decoder.pending = groups v ++ rest) :
    ∃ next, vleLoop value shift decoder = .ok (UInt32.ofNat (value.toNat + v * 2 ^ shift), next) ∧
      next.pending = rest := by
  induction v using groups.induct generalizing shift value decoder with
  | case1 v hlt =>
    rw [groups_of_lt hlt] at h
    obtain ⟨next, hnext, hpending⟩ := nextNibble_pending h
    refine ⟨next, ?_, hpending⟩
    have hmod : v % 8 = v := Nat.mod_eq_of_lt hlt
    have hsum := toNat_or_shift (n := v) (by omega) hshift hvalue (by rw [hmod]; exact hv)
    rw [vleLoop, hnext]
    simp only [bind, Except.bind]
    rw [if_pos ((nibble_facts v (by omega)).2.mpr hlt)]
    rw [hmod] at hsum
    rw [← hsum, UInt32.ofNat_toNat]
  | case2 v hge ih =>
    rw [groups_of_le (by omega)] at h
    obtain ⟨next, hnext, hpending⟩ := nextNibble_pending h
    have hmod : (v % 8 + 8) % 8 = v % 8 := by omega
    -- the number has a bit above these three, so the next shift is within the word
    have hdiv : v / 8 * 2 ^ (shift + 3) ≤ v * 2 ^ shift := by
      rw [Nat.pow_add, Nat.mul_comm (2 ^ shift), ← Nat.mul_assoc]
      exact Nat.mul_le_mul_right _ (by omega)
    have hbound : shift + 3 < 32 := by
      by_contra hnot
      have hpow : 2 ^ 32 ≤ 2 ^ (shift + 3) := Nat.pow_le_pow_right (by decide) (by omega)
      have hone : 1 * 2 ^ (shift + 3) ≤ v / 8 * 2 ^ (shift + 3) := Nat.mul_le_mul_right _ (by omega)
      omega
    have hsplit : v % 8 * 2 ^ shift + v / 8 * 2 ^ (shift + 3) = v * 2 ^ shift := by
      rw [Nat.pow_add, Nat.mul_comm (2 ^ shift), ← Nat.mul_assoc, ← Nat.add_mul]
      congr 1
      omega
    have hsum := toNat_or_shift (n := v % 8 + 8) (by omega) hshift hvalue (by rw [hmod]; omega)
    rw [hmod] at hsum
    have hvalue' : (value ||| ((UInt8.ofNat (v % 8 + 8) &&& 0x7).toUInt32 <<< UInt32.ofNat shift)).toNat <
        2 ^ (shift + 3) := by
      rw [hsum]
      calc value.toNat + v % 8 * 2 ^ shift < 2 ^ shift + v % 8 * 2 ^ shift := Nat.add_lt_add_right hvalue _
        _ = (1 + v % 8) * 2 ^ shift := by rw [Nat.add_mul, Nat.one_mul]
        _ ≤ 8 * 2 ^ shift := Nat.mul_le_mul_right _ (by omega)
        _ = 2 ^ (shift + 3) := by rw [Nat.pow_add, Nat.mul_comm]
    obtain ⟨last, hlast, hrest⟩ := ih hbound hvalue' (by omega) hpending
    refine ⟨last, ?_, hrest⟩
    have hmore : ¬(UInt8.ofNat (v % 8 + 8) &&& 0x8 = 0) := fun hzero => by
      have := (nibble_facts (v % 8 + 8) (by omega)).2.mp hzero
      omega
    rw [vleLoop, hnext]
    simp only [bind, Except.bind]
    rw [if_neg hmore, dif_neg (by omega), hlast, hsum, Nat.add_assoc, hsplit]

theorem decodeVle_pending {v : Nat} {rest : List Nat} (hv : v < 2 ^ 32) (h : decoder.pending = groups v ++ rest) :
    ∃ next, decoder.decodeVle = .ok (UInt32.ofNat v, next) ∧ next.pending = rest := by
  have hzero : (0 : UInt32).toNat < 2 ^ 0 := by decide
  obtain ⟨next, hnext, hpending⟩ := vleLoop_pending (by decide) hzero (by omega) h
  refine ⟨next, ?_, hpending⟩
  rw [decodeVle, hnext]
  simp

end RvlDecoder

/-! ## Nibbles written -/

namespace Encoder

/-- The encoder has been given the nibbles: whole words are in the buffer, the others in the word. -/
def Holds (encoder : Encoder) (ns : List Nat) : Prop :=
  ∃ words last, ns = stream encoder.buffer ++ last ∧ encoder.buffer.length = 4 * words ∧
    last.length = encoder.nibblesWritten ∧ encoder.nibblesWritten < 8 ∧
    encoder.word.toNat = value last ∧ ∀ n ∈ last, n < 16

theorem new_holds : new.Holds [] := ⟨0, [], rfl, rfl, rfl, by decide, rfl, by simp⟩

theorem pushed_word {word : UInt32} {last : List Nat} {n : Nat} (hword : word.toNat = value last)
    (hlast : ∀ m ∈ last, m < 16) (hlength : last.length < 8) (hn : n < 16) :
    ((word <<< 4) ||| (UInt8.ofNat n).toUInt32).toNat = value (last ++ [n]) := by
  have hlt : value last * 16 < 2 ^ 32 := by
    have hpow : 16 ^ last.length ≤ 16 ^ 7 := Nat.pow_le_pow_right (by decide) (by omega)
    have hvalue : value last < 16 ^ last.length := value_lt hlast
    omega
  have hnibble : (UInt8.ofNat n).toUInt32.toNat = n := by
    rw [UInt8.toNat_toUInt32, UInt8.toNat_ofNat']
    omega
  have hor : 16 * value last + n = 16 * value last ||| n := Nat.two_pow_add_eq_or_of_lt (i := 4) hn _
  rw [UInt32.toNat_or, shifted_word, hword, hnibble, Nat.mod_eq_of_lt hlt, value_concat, Nat.mul_comm, hor]

variable {encoder : Encoder}

theorem pushNibble_holds {ns : List Nat} (h : encoder.Holds ns) {n : Nat} (hn : n < 16) :
    (encoder.pushNibble (UInt8.ofNat n)).Holds (ns ++ [n]) := by
  obtain ⟨words, last, rfl, hbuffer, hlength, hcount, hword, hlast⟩ := h
  have hpushed := pushed_word hword hlast (by omega) hn
  have hall : ∀ m ∈ last ++ [n], m < 16 := by
    intro m hm
    rcases mem_append.mp hm with hm | hm
    · exact hlast m hm
    · rw [mem_singleton.mp hm]
      exact hn
  unfold pushNibble
  simp only
  split
  · next hfull =>
    have hlong : (last ++ [n]).length = 8 := by simp [hlength, hfull]
    have hdigits : digits 8 (value (last ++ [n])) = last ++ [n] := by
      have := digits_value hall (k := 0) (by omega)
      rwa [hlong, Nat.pow_zero, Nat.mul_one] at this
    refine ⟨words + 1, [], ?_, ?_, rfl, Nat.zero_lt_succ 7, rfl, by simp⟩
    · rw [u32ToLe, stream_append hbuffer (UInt32.toNat_lt _), hpushed, hdigits, append_nil, append_assoc]
    · rw [length_append, hbuffer, u32ToLe_length]
      omega
  · next hroom =>
    exact ⟨words, last ++ [n], by rw [append_assoc], hbuffer, by simp [hlength], by simp only; omega, hpushed, hall⟩

theorem encodeVle_holds {ns : List Nat} (h : encoder.Holds ns) (v : UInt32) :
    (encoder.encodeVle v).Holds (ns ++ groups v.toNat) := by
  have hshift : ∀ w : UInt32, (w >>> 3).toNat = w.toNat / 8 := by
    intro w
    exact Nat.shiftRight_eq_div_pow _ 3
  have hlow : ∀ w : UInt32, (w &&& 0x7).toUInt8 = UInt8.ofNat (w.toNat % 8) := by
    intro w
    apply UInt8.toNat_inj.mp
    have hmask : (0x7 : UInt32).toNat = 2 ^ 3 - 1 := rfl
    rw [UInt32.toNat_toUInt8, UInt32.toNat_and, UInt8.toNat_ofNat', hmask, Nat.and_two_pow_sub_one_eq_mod]
  have hmore : ∀ k < 8, UInt8.ofNat k ||| 0x8 = UInt8.ofNat (k + 8) := by decide
  induction encoder, v using encodeVle.induct generalizing ns with
  | case1 encoder v hzero =>
    have hlt : v.toNat < 8 := by
      have := hshift v
      rw [hzero] at this
      have hz : (0 : UInt32).toNat = 0 := rfl
      omega
    rw [encodeVle, if_pos hzero, hlow, groups_of_lt hlt, Nat.mod_eq_of_lt hlt]
    exact pushNibble_holds h (by omega)
  | case2 encoder v nibble hne =>
    rename_i ih
    have hge : 8 ≤ v.toNat := by
      by_contra hnot
      apply hne
      apply UInt32.toNat_inj.mp
      rw [hshift]
      have hz : (0 : UInt32).toNat = 0 := rfl
      omega
    have hpush : (encoder.pushNibble (nibble ||| 0x8)).Holds (ns ++ [v.toNat % 8 + 8]) := by
      have hnibble : nibble ||| 0x8 = UInt8.ofNat (v.toNat % 8 + 8) := by
        rw [← hmore _ (by omega), ← hlow]
      rw [hnibble]
      exact pushNibble_holds h (by omega)
    have hrest := ih hpush
    rw [hshift, append_assoc] at hrest
    rw [encodeVle, if_neg hne, groups_of_le hge]
    exact hrest

theorem finish_stream {ns : List Nat} (h : encoder.Holds ns) :
    ∃ k, stream encoder.finish = ns ++ replicate k 0 := by
  obtain ⟨words, last, rfl, hbuffer, hlength, hcount, hword, hlast⟩ := h
  unfold finish
  split
  · next hpos =>
    refine ⟨8 - last.length, ?_⟩
    have hall : ∀ m ∈ last ++ replicate (8 - last.length) 0, m < 16 := by
      intro m hm
      rcases mem_append.mp hm with hm | hm
      · exact hlast m hm
      · rw [eq_of_mem_replicate hm]
        decide
    have hlong : (last ++ replicate (8 - last.length) 0).length = 8 := by simp; omega
    have hpadded : value (last ++ replicate (8 - last.length) 0) = value last * 16 ^ (8 - last.length) := by
      rw [value_append, value_zeros, length_replicate, Nat.add_zero]
    have hlt : value (last ++ replicate (8 - last.length) 0) < 2 ^ 32 := by
      have := value_lt hall
      rw [hlong] at this
      exact this
    have hamount : (UInt32.ofNat (4 * (8 - encoder.nibblesWritten))).toNat % 32 = 4 * (8 - last.length) := by
      rw [UInt32.toNat_ofNat', hlength]
      omega
    have hshifted : (encoder.word <<< UInt32.ofNat (4 * (8 - encoder.nibblesWritten))).toNat =
        value (last ++ replicate (8 - last.length) 0) := by
      rw [hpadded] at hlt ⊢
      rw [UInt32.toNat_shiftLeft, hamount, hword, Nat.shiftLeft_eq, Nat.pow_mul]
      exact Nat.mod_eq_of_lt hlt
    have hdigits : digits 8 (value (last ++ replicate (8 - last.length) 0)) =
        last ++ replicate (8 - last.length) 0 := by
      have := digits_value hall (k := 0) (by omega)
      rwa [hlong, Nat.pow_zero, Nat.mul_one] at this
    rw [u32ToLe, stream_append hbuffer (UInt32.toNat_lt _), hshifted, hdigits, append_assoc]
  · next hzero =>
    obtain rfl : last = [] := length_eq_zero_iff.mp (by omega)
    exact ⟨0, by simp⟩

end Encoder

/-! ## Differences -/

/-- The difference of two pixels as the number that is written. -/
def zigzag (delta : I32) : I32 := delta <<< 1 ^^^ delta.sshiftRight 31

/-- The difference that a number stands for. -/
def unzigzag (positive : I32) : I32 := positive.sshiftRight 1 ^^^ -(positive &&& 1)

theorem sshiftRight_toNat {x : I32} (h : x.toNat < 2 ^ 31) (k : Nat) : (x.sshiftRight k).toNat = x.toNat / 2 ^ k := by
  have hmsb : x.msb = false := by
    rw [BitVec.msb_eq_decide]
    simp only [decide_eq_false_iff_not]
    omega
  rw [BitVec.sshiftRight_eq_of_msb_false hmsb, BitVec.toNat_ushiftRight, Nat.shiftRight_eq_div_pow]

theorem unzigzag_even {n : Nat} (h : n < 2 ^ 30) {x : I32} (hx : x.toNat = 2 * n) : (unzigzag x).toNat = n := by
  have hone : x &&& 1 = 0 := by
    apply BitVec.eq_of_toNat_eq
    rw [BitVec.toNat_and, hx]
    have hmod : 2 * n % 2 = 0 := by omega
    exact (Nat.and_one_is_mod (2 * n)).trans hmod
  have hhalf : (x.sshiftRight 1).toNat = n := by
    rw [sshiftRight_toNat (by omega), hx]
    omega
  rw [unzigzag, hone]
  simpa using hhalf

theorem unzigzag_odd {n : Nat} (h : n < 2 ^ 30) {x : I32} (hx : x.toNat = 2 * n + 1) :
    (unzigzag x).toNat = 2 ^ 32 - 1 - n := by
  have hone : x &&& 1 = 1 := by
    apply BitVec.eq_of_toNat_eq
    rw [BitVec.toNat_and, hx]
    have hmod : (2 * n + 1) % 2 = 1 := by omega
    exact (Nat.and_one_is_mod (2 * n + 1)).trans hmod
  have hhalf : (x.sshiftRight 1).toNat = n := by
    rw [sshiftRight_toNat (by omega), hx]
    omega
  have hones : -(1 : I32) = BitVec.allOnes 32 := by decide
  rw [unzigzag, hone, hones, BitVec.xor_allOnes, BitVec.toNat_not, hhalf]

theorem unzigzag_zigzag {delta : I32} (h : delta.toNat < 2 ^ 30 ∨ 2 ^ 32 - 2 ^ 30 ≤ delta.toNat) :
    unzigzag (zigzag delta) = delta := by
  have hdouble : (delta <<< 1).toNat = delta.toNat * 2 % 2 ^ 32 := by
    rw [BitVec.toNat_shiftLeft, Nat.shiftLeft_eq]
  apply BitVec.eq_of_toNat_eq
  rcases h with h | h
  · have hsign : delta.sshiftRight 31 = 0 := by
      apply BitVec.eq_of_toNat_eq
      rw [sshiftRight_toNat (by omega)]
      exact Nat.div_eq_of_lt (by omega)
    have hzigzag : (zigzag delta).toNat = 2 * delta.toNat := by
      rw [zigzag, hsign]
      simp only [BitVec.ofNat_eq_ofNat, BitVec.xor_zero]
      omega
    exact unzigzag_even h hzigzag
  · have hmsb : delta.msb = true := by
      rw [BitVec.msb_eq_decide]
      simp only [decide_eq_true_eq]
      omega
    have hnot : (~~~delta).toNat = 2 ^ 32 - 1 - delta.toNat := BitVec.toNat_not
    have hsign : delta.sshiftRight 31 = BitVec.allOnes 32 := by
      have hzero : (~~~delta) >>> 31 = 0 := by
        apply BitVec.eq_of_toNat_eq
        rw [BitVec.toNat_ushiftRight, Nat.shiftRight_eq_div_pow, hnot]
        exact Nat.div_eq_of_lt (by omega)
      rw [BitVec.sshiftRight_eq_of_msb_true hmsb, hzero]
      decide
    have hzigzag : (zigzag delta).toNat = 2 * (2 ^ 32 - 1 - delta.toNat) + 1 := by
      rw [zigzag, hsign, BitVec.xor_allOnes, BitVec.toNat_not, hdouble]
      have hlt : delta.toNat < 2 ^ 32 := delta.isLt
      omega
    rw [unzigzag_odd (by omega) hzigzag]
    have hlt : delta.toNat < 2 ^ 32 := delta.isLt
    omega

theorem pixel_toNat (v : UInt16) : (Encoder.pixel v).toNat = v.toNat := by
  have hlt : v.toNat < 2 ^ 16 := v.toNat_lt
  rw [pixel, BitVec.toNat_setWidth, UInt16.toNat_toBitVec]
  exact Nat.mod_eq_of_lt (by omega)

theorem pixel_sub (v u : UInt16) : (Encoder.pixel v - Encoder.pixel u).toNat < 2 ^ 30 ∨
    2 ^ 32 - 2 ^ 30 ≤ (Encoder.pixel v - Encoder.pixel u).toNat := by
  have hv : v.toNat < 2 ^ 16 := v.toNat_lt
  have hu : u.toNat < 2 ^ 16 := u.toNat_lt
  rw [BitVec.toNat_sub, pixel_toNat, pixel_toNat]
  omega

/-! ## Runs -/

def valueNibbles (previous : UInt16) : List UInt16 → List Nat
  | [] => []
  | value :: values =>
    groups (zigzag (Encoder.pixel value - Encoder.pixel previous)).toNat ++ valueNibbles value values

/-- The last pixel of a run, or the one before it. -/
def lastOf (previous : UInt16) : List UInt16 → UInt16
  | [] => previous
  | value :: values => lastOf value values

theorem encodeValues_holds {encoder : Encoder} {ns : List Nat} (h : encoder.Holds ns) (previous : UInt16)
    (values : List UInt16) :
    (encoder.encodeValues (Encoder.pixel previous) values).1.Holds (ns ++ valueNibbles previous values) ∧
      (encoder.encodeValues (Encoder.pixel previous) values).2 = Encoder.pixel (lastOf previous values) := by
  induction values generalizing encoder ns previous with
  | nil => exact ⟨by rwa [valueNibbles, append_nil], rfl⟩
  | cons value values ih =>
    have hvle := encodeVle_holds h ⟨zigzag (pixel value - pixel previous)⟩
    obtain ⟨hrest, hlast⟩ := ih hvle value
    rw [append_assoc] at hrest
    exact ⟨hrest, hlast⟩

theorem decodeValues_pending {decoder : RvlDecoder} {previous : UInt16} {values : List UInt16} {rest : List Nat}
    (h : decoder.pending = valueNibbles previous values ++ rest) :
    ∃ next, RvlDecoder.decodeValues values.length (Encoder.pixel previous) decoder =
        .ok (values, Encoder.pixel (lastOf previous values), next) ∧ next.pending = rest := by
  induction values generalizing decoder previous with
  | nil => exact ⟨decoder, rfl, h⟩
  | cons value values ih =>
    rw [valueNibbles, append_assoc] at h
    obtain ⟨behind, hvle, hpending⟩ := decodeVle_pending (BitVec.isLt _) h
    obtain ⟨next, hvalues, hrest⟩ := ih hpending
    refine ⟨next, ?_, hrest⟩
    have hpositive : (UInt32.ofNat (zigzag (pixel value - pixel previous)).toNat).toBitVec =
        zigzag (pixel value - pixel previous) := by
      apply BitVec.eq_of_toNat_eq
      rw [UInt32.toNat_toBitVec, UInt32.toNat_ofNat']
      exact Nat.mod_eq_of_lt (BitVec.isLt _)
    have hdelta : pixel previous +
        ((zigzag (pixel value - pixel previous)).sshiftRight 1 ^^^
          -(zigzag (pixel value - pixel previous) &&& 1)) = pixel value := by
      have hback : unzigzag (zigzag (pixel value - pixel previous)) =
          pixel value - pixel previous := unzigzag_zigzag (pixel_sub value previous)
      rw [unzigzag] at hback
      rw [hback, BitVec.add_comm, BitVec.sub_add_cancel]
    have hvalue : value.toNat < 2 ^ 16 := value.toNat_lt
    have hint : (pixel value).toInt = value.toNat := by
      rw [BitVec.toInt_eq_toNat_of_lt (by rw [pixel_toNat]; omega), pixel_toNat]
    have hrange : ¬((pixel value).toInt < 0 ∨ 65535 < (pixel value).toInt) := by
      rw [hint]
      omega
    have hlast : lastOf value values = lastOf previous (value :: values) := rfl
    rw [length_cons, RvlDecoder.decodeValues, hvle]
    simp only [bind, Except.bind, hpositive, hdelta, if_neg hrange, hvalues, pixel_toNat, hlast]
    rw [UInt16.ofNat_toNat]

/-- The nibbles of an image behind a pixel. -/
def runNibbles : Nat → UInt16 → List UInt16 → List Nat
  | 0, _, _ => []
  | fuel + 1, previous, values =>
    if values = [] then []
    else
      let zeros := values.takeWhile (· == 0)
      let rest := values.dropWhile (· == 0)
      let nonzeros := rest.takeWhile (· != 0)
      groups zeros.length ++ groups nonzeros.length ++ valueNibbles previous nonzeros ++
        runNibbles fuel (lastOf previous nonzeros) (rest.dropWhile (· != 0))

theorem runs_eq (values : List UInt16) :
    values.takeWhile (· == 0) ++ ((values.dropWhile (· == 0)).takeWhile (· != 0) ++
      (values.dropWhile (· == 0)).dropWhile (· != 0)) = values := by
  rw [takeWhile_append_dropWhile, takeWhile_append_dropWhile]

theorem runs_length (values : List UInt16) :
    (values.takeWhile (· == 0)).length + ((values.dropWhile (· == 0)).takeWhile (· != 0)).length +
      ((values.dropWhile (· == 0)).dropWhile (· != 0)).length = values.length := by
  have h := congrArg length (runs_eq values)
  rw [length_append, length_append] at h
  omega

theorem runs_progress {values : List UInt16} (h : values ≠ []) :
    0 < (values.takeWhile (· == 0)).length + ((values.dropWhile (· == 0)).takeWhile (· != 0)).length := by
  cases values with
  | nil => exact absurd rfl h
  | cons value values =>
    by_cases hzero : value = 0
    · have htake : ((value :: values).takeWhile (· == 0)).length = (values.takeWhile (· == 0)).length + 1 := by
        simp [hzero]
      omega
    · simp [hzero]

theorem takeWhile_zeros (values : List UInt16) :
    values.takeWhile (· == 0) = replicate (values.takeWhile (· == 0)).length 0 := by
  rw [eq_replicate_iff]
  refine ⟨rfl, fun value hvalue => ?_⟩
  simpa using mem_takeWhile_imp hvalue

theorem encodeRuns_holds (fuel : Nat) {encoder : Encoder} {ns : List Nat} (h : encoder.Holds ns)
    (previous : UInt16) (values : List UInt16) (hlength : values.length < 2 ^ 32) :
    (Encoder.encodeRuns fuel encoder (Encoder.pixel previous) values).Holds (ns ++ runNibbles fuel previous values) := by
  induction fuel generalizing encoder ns previous values with
  | zero => rwa [runNibbles, append_nil]
  | succ fuel ih =>
    unfold encodeRuns runNibbles
    split
    · rwa [append_nil]
    · have hsum := runs_length values
      have hzeros := encodeVle_holds h (UInt32.ofNat (values.takeWhile (· == 0)).length)
      rw [UInt32.toNat_ofNat', Nat.mod_eq_of_lt (by omega)] at hzeros
      have hnonzeros := encodeVle_holds hzeros
        (UInt32.ofNat ((values.dropWhile (· == 0)).takeWhile (· != 0)).length)
      rw [UInt32.toNat_ofNat', Nat.mod_eq_of_lt (by omega)] at hnonzeros
      obtain ⟨hvalues, hlast⟩ :=
        encodeValues_holds hnonzeros previous ((values.dropWhile (· == 0)).takeWhile (· != 0))
      have hrest := ih hvalues (lastOf previous ((values.dropWhile (· == 0)).takeWhile (· != 0)))
        ((values.dropWhile (· == 0)).dropWhile (· != 0)) (by omega)
      rw [← hlast] at hrest
      simpa only [append_assoc] using hrest

theorem decodeLoop_pending (fuel : Nat) {decoder : RvlDecoder} (previous : UInt16) (values : List UInt16)
    {rest : List Nat} (hfuel : values.length ≤ fuel) (hlength : values.length < 2 ^ 32)
    (h : decoder.pending = runNibbles fuel previous values ++ rest) :
    RvlDecoder.decodeLoop fuel values.length (Encoder.pixel previous) decoder = .ok values := by
  induction fuel generalizing decoder previous values with
  | zero =>
    obtain rfl : values = [] := length_eq_zero_iff.mp (Nat.le_zero.mp hfuel)
    rfl
  | succ fuel ih =>
    unfold RvlDecoder.decodeLoop
    by_cases hnil : values = []
    · rw [hnil]
      rfl
    · have hsum := runs_length values
      have hprogress := runs_progress hnil
      have hruns := runs_eq values
      rw [runNibbles, if_neg hnil] at h
      simp only [append_assoc] at h
      generalize hzeros : values.takeWhile (· == 0) = zeros at *
      generalize hnonzeros : (values.dropWhile (· == 0)).takeWhile (· != 0) = nonzeros at *
      generalize htail : (values.dropWhile (· == 0)).dropWhile (· != 0) = tail at *
      obtain ⟨second, hfirst, hpending⟩ := decodeVle_pending (by omega) h
      obtain ⟨third, hsecond, hpending⟩ := decodeVle_pending (by omega) hpending
      obtain ⟨last, hthird, hpending⟩ := decodeValues_pending hpending
      have hz : (UInt32.ofNat zeros.length).toNat = zeros.length := by
        rw [UInt32.toNat_ofNat']
        exact Nat.mod_eq_of_lt (by omega)
      have hn : (UInt32.ofNat nonzeros.length).toNat = nonzeros.length := by
        rw [UInt32.toNat_ofNat']
        exact Nat.mod_eq_of_lt (by omega)
      have hsome : ¬(UInt32.ofNat zeros.length = 0 ∧ UInt32.ofNat nonzeros.length = 0) := by
        rintro ⟨hz', hn'⟩
        rw [hz'] at hz
        rw [hn'] at hn
        have hzero : (0 : UInt32).toNat = 0 := rfl
        omega
      have hremaining : values.length - zeros.length - nonzeros.length = tail.length := by omega
      have htail := ih (lastOf previous nonzeros) tail (by omega) (by omega) hpending
      have hreplicate : replicate zeros.length 0 = zeros := by
        rw [← hzeros]
        exact (takeWhile_zeros values).symm
      rw [if_neg (by omega), hfirst]
      simp only [bind, Except.bind, hz, hn, if_neg (show ¬values.length < zeros.length by omega), hsecond,
        if_neg (show ¬values.length - zeros.length < nonzeros.length by omega), if_neg hsome, hthird,
        hremaining, htail, hreplicate]
      rw [append_assoc, hruns]

/-! ## The round trip -/

theorem decodeInto_encodeRvl {image : List UInt16} (h : image.length < 2 ^ 32) :
    (RvlDecoder.new (encodeRvl image)).decodeInto image.length = .ok image := by
  have hholds := encodeRuns_holds image.length new_holds 0 image h
  obtain ⟨k, hstream⟩ := finish_stream hholds
  have hpending : (RvlDecoder.new (encodeRvl image)).pending =
      runNibbles image.length 0 image ++ replicate k 0 := hstream
  exact decodeLoop_pending image.length 0 image (le_rfl) h hpending

variable {width height quantA quantB : UInt32} {disparity : List UInt16}

theorem readU32_message (width height quantA quantB : UInt32) (disparity : List UInt16) :
    RosRvlMetadata.readU32 (buildDepthMessage width height disparity quantA quantB) 4 = quantA ∧
    RosRvlMetadata.readU32 (buildDepthMessage width height disparity quantA quantB) 8 = quantB ∧
    RosRvlMetadata.readU32 (buildDepthMessage width height disparity quantA quantB) 12 = width ∧
    RosRvlMetadata.readU32 (buildDepthMessage width height disparity quantA quantB) 16 = height := by
  have hread : ∀ (front behind : List UInt8) (n : UInt32),
      readU32 (front ++ (u32ToLe n ++ behind)) front.length = n := by
    intro front behind n
    rw [readU32, drop_left, take_left' (u32ToLe_length n), u32FromLe_toLe]
  unfold buildDepthMessage
  refine ⟨?_, ?_, ?_, ?_⟩
  · simpa using hread (u32ToLe 0) _ quantA
  · simpa using hread (u32ToLe 0 ++ u32ToLe quantA) _ quantB
  · simpa using hread (u32ToLe 0 ++ u32ToLe quantA ++ u32ToLe quantB) _ width
  · simpa using hread (u32ToLe 0 ++ u32ToLe quantA ++ u32ToLe quantB ++ u32ToLe width) _ height

theorem length_message : (buildDepthMessage width height disparity quantA quantB).length =
    20 + (encodeRvl disparity).length := by
  simp only [buildDepthMessage, length_append, u32ToLe_length]

theorem payload_message :
    (buildDepthMessage width height disparity quantA quantB).drop 20 = encodeRvl disparity := by
  exact drop_left' (by simp)

theorem parse_message (hwidth : 1 ≤ width.toNat) (hheight : 1 ≤ height.toNat)
    (hsize : width.toNat * height.toNat ≤ MAX_DECODED_PIXELS) :
    RosRvlMetadata.parse (buildDepthMessage width height disparity quantA quantB) =
      .ok ⟨width, height, quantA, quantB, 20, width.toNat * height.toNat⟩ := by
  obtain ⟨hquantA, hquantB, hreadWidth, hreadHeight⟩ := readU32_message width height quantA quantB disparity
  have hzero : ∀ n : UInt32, 1 ≤ n.toNat → n ≠ 0 := by
    rintro n hn rfl
    exact absurd hn (by decide)
  have hpositive : ¬(width = 0 ∨ height = 0) := by
    rintro (h | h)
    · exact hzero width hwidth h
    · exact hzero height hheight h
  have hfits : ¬2 ^ 64 ≤ width.toNat * height.toNat := by
    rw [MAX_DECODED_PIXELS] at hsize
    omega
  unfold parse
  simp only [CONFIG_HEADER_SIZE, RESOLUTION_HEADER_SIZE, length_message, hquantA, hquantB, hreadWidth, hreadHeight]
  rw [if_neg (by omega), if_neg (by omega), if_neg hpositive, if_neg hfits, if_neg (by omega), if_neg (by omega)]

/-- Decoding the message of an image within the size limit gives the image. -/
theorem decode_buildDepthMessage (width height quantA quantB : UInt32) (image : List UInt16)
    (hwidth : 1 ≤ width.toNat) (hheight : 1 ≤ height.toNat)
    (hsize : width.toNat * height.toNat ≤ MAX_DECODED_PIXELS)
    (himage : image.length = width.toNat * height.toNat) :
    ∃ metadata, RosRvlMetadata.parse (buildDepthMessage width height image quantA quantB) = .ok metadata ∧
      metadata.width = width ∧ metadata.height = height ∧
      decodeRvlWithoutQuantization (buildDepthMessage width height image quantA quantB) metadata = .ok image := by
  refine ⟨_, parse_message hwidth hheight hsize, rfl, rfl, ?_⟩
  have hpayload : payload ⟨width, height, quantA, quantB, 20, width.toNat * height.toNat⟩
      (buildDepthMessage width height image quantA quantB) = .ok (encodeRvl image) := by
    have hlong : 20 ≤ (buildDepthMessage width height image quantA quantB).length := by
      rw [length_message]
      omega
    rw [payload, if_pos hlong]
    exact congrArg Except.ok payload_message
  have hlength : image.length < 2 ^ 32 := by
    rw [MAX_DECODED_PIXELS] at hsize
    omega
  rw [decodeRvlWithoutQuantization, hpayload]
  simp only [bind, Except.bind, ← himage]
  exact decodeInto_encodeRvl hlength

/-- A run of values, a zero and a value behind it, in two rows. -/
theorem decode_buildDepthMessage_two_rows : ∃ metadata,
    RosRvlMetadata.parse (buildDepthMessage 2 2 [7, 65535, 0, 1] 0 0) = .ok metadata ∧
      metadata.width = 2 ∧ metadata.height = 2 ∧
      decodeRvlWithoutQuantization (buildDepthMessage 2 2 [7, 65535, 0, 1] 0 0) metadata = .ok [7, 65535, 0, 1] :=
  decode_buildDepthMessage 2 2 0 0 [7, 65535, 0, 1] (by decide) (by decide) (by decide) (by decide)

end Dalaran.Rvl
