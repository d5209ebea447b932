import Mathlib.Data.List.GetD
import Mathlib.Tactic.Ring
import Dalaran.Rvl.RoundTrip

/-
  Which numbers of variable length are read for what they are.

  A number is a sequence of nibbles of which all but the last have the fourth bit
  set; the other three bits are digits to the base 8, the lowest first. A `u32`
  has room for ten digits and two bits of an eleventh.

  The decoder counts digits. It refuses a twelfth, and takes an eleventh whole: of
  its three bits the third is shifted out of the word. So a number of eleven digits
  loses that bit, and a number that fits is refused when zeros follow its digits
  (`decodeVle_exact_iff`).
-/

namespace Dalaran.Rvl

open List

/-! ## Sequences of nibbles -/

/-- Nibbles that are one number: a nibble follows exactly those with the fourth bit set. -/
def IsVle : List Nat → Prop
  | [] => False
  | [n] => n < 8
  | n :: m :: ns => 8 ≤ n ∧ n < 16 ∧ IsVle (m :: ns)

def vleValue : List Nat → Nat
  | [] => 0
  | n :: ns => n % 8 + 8 * vleValue ns

/-- A bit is set that a `u32` has no room for. -/
def HasHighBits (ns : List Nat) : Prop := 4 ≤ ns.getD 10 0 % 8 ∨ ∃ n ∈ ns.drop 11, n % 8 ≠ 0

instance : DecidablePred HasHighBits := fun _ => inferInstanceAs (Decidable (_ ∨ _))

theorem vleValue_eq_zero_iff {ns : List Nat} : vleValue ns = 0 ↔ ∀ n ∈ ns, n % 8 = 0 := by
  induction ns with
  | nil => simp [vleValue]
  | cons n ns ih =>
    rw [vleValue, forall_mem_cons, ← ih]
    omega

theorem vleValue_split (ns : List Nat) (k : Nat) :
    ∃ low, low < 8 ^ k ∧ vleValue ns = low + 8 ^ k * vleValue (ns.drop k) := by
  induction k generalizing ns with
  | zero => exact ⟨0, by simp, by simp⟩
  | succ k ih =>
    cases ns with
    | nil => exact ⟨0, Nat.pow_pos (by decide), by simp [vleValue]⟩
    | cons n ns =>
      obtain ⟨low, hlow, hvalue⟩ := ih ns
      refine ⟨n % 8 + 8 * low, ?_, ?_⟩
      · rw [Nat.pow_succ]
        omega
      · calc vleValue (n :: ns) = n % 8 + 8 * (low + 8 ^ k * vleValue (ns.drop k)) := by rw [vleValue, hvalue]
          _ = n % 8 + 8 * low + 8 ^ (k + 1) * vleValue ((n :: ns).drop (k + 1)) := by
            rw [drop_succ_cons, Nat.pow_succ]
            ring

theorem hasHighBits_iff {ns : List Nat} : HasHighBits ns ↔ 2 ^ 32 ≤ vleValue ns := by
  obtain ⟨low, hlow, hvalue⟩ := vleValue_split ns 10
  have hdrop : vleValue (ns.drop 10) = ns.getD 10 0 % 8 + 8 * vleValue (ns.drop 11) := by
    rcases Nat.lt_or_ge 10 ns.length with hlt | hge
    · rw [drop_eq_getElem_cons hlt, vleValue, getD_eq_getElem _ _ hlt]
    · rw [drop_of_length_le hge, drop_of_length_le (by omega), getD_eq_default _ _ hge]
      rfl
  have hrest : (∃ n ∈ ns.drop 11, n % 8 ≠ 0) ↔ vleValue (ns.drop 11) ≠ 0 := by
    rw [Ne, vleValue_eq_zero_iff]
    simp
  have hpow : (8 : Nat) ^ 10 = 2 ^ 30 := by decide
  rw [HasHighBits, hrest, hvalue, hdrop, hpow]
  omega

/-! ## Reading them -/

namespace RvlDecoder

variable {decoder : RvlDecoder} {ns rest : List Nat}

theorem or_shift {value : UInt32} {n shift : Nat} (hn : n < 16) (hshift : shift < 32)
    (hvalue : value.toNat < 2 ^ shift) :
    value ||| ((UInt8.ofNat n &&& 0x7).toUInt32 <<< UInt32.ofNat shift) =
      UInt32.ofNat (value.toNat + n % 8 * 2 ^ shift) := by
  have hamount : (UInt32.ofNat shift).toNat % 32 = shift := by
    rw [UInt32.toNat_ofNat', Nat.mod_eq_of_lt (show shift < 2 ^ 32 by omega), Nat.mod_eq_of_lt hshift]
  have hpow : 2 ^ 32 = 2 ^ (32 - shift) * 2 ^ shift := by rw [← Nat.pow_add, Nat.sub_add_cancel hshift.le]
  have hroom : n % 8 * 2 ^ shift % 2 ^ 32 = n % 8 % 2 ^ (32 - shift) * 2 ^ shift := by
    rw [hpow, Nat.mul_mod_mul_right]
  have hlt : value.toNat + n % 8 % 2 ^ (32 - shift) * 2 ^ shift < 2 ^ 32 := by
    calc value.toNat + n % 8 % 2 ^ (32 - shift) * 2 ^ shift
        < (n % 8 % 2 ^ (32 - shift) + 1) * 2 ^ shift := by
          rw [Nat.add_mul, Nat.one_mul, Nat.add_comm]
          exact Nat.add_lt_add_left hvalue _
      _ ≤ 2 ^ (32 - shift) * 2 ^ shift := Nat.mul_le_mul_right _ (Nat.mod_lt _ (Nat.two_pow_pos _))
      _ = 2 ^ 32 := hpow.symm
  apply UInt32.toNat_inj.mp
  rw [UInt32.toNat_or, UInt32.toNat_shiftLeft, (nibble_facts n hn).1, hamount, Nat.shiftLeft_eq, hroom,
    Nat.or_comm, Nat.mul_comm, ← Nat.two_pow_add_eq_or_of_lt hvalue, UInt32.toNat_ofNat', Nat.add_mod, hroom,
    Nat.add_comm, Nat.mul_comm]
  rw [Nat.mod_eq_of_lt (hvalue.trans (Nat.pow_lt_pow_right (by decide) hshift)), Nat.mod_eq_of_lt hlt]

theorem vleLoop_vle : ∀ {ns : List Nat} {k : Nat} {value : UInt32} {decoder : RvlDecoder}, IsVle ns → k ≤ 10 →
    value.toNat < 2 ^ (3 * k) → decoder.pending = ns ++ rest →
      (k + ns.length ≤ 11 → ∃ next,
        vleLoop value (3 * k) decoder = .ok (UInt32.ofNat (value.toNat + vleValue ns * 2 ^ (3 * k)), next) ∧
          next.pending = rest) ∧
      (11 < k + ns.length → vleLoop value (3 * k) decoder = .error .valueOverflow)
  | [n], k, value, decoder, hn, hk, hvalue, h => by
    have hn' : n < 8 := hn
    obtain ⟨next, hnext, hpending⟩ := nextNibble_pending h
    have hword := or_shift (n := n) (by omega) (show 3 * k < 32 by omega) hvalue
    rw [vleLoop, hnext]
    simp only [bind, Except.bind]
    rw [if_pos ((nibble_facts n (by omega)).2.mpr hn'), hword]
    refine ⟨fun _ => ⟨next, by simp [vleValue], hpending⟩, fun hlong => ?_⟩
    rw [length_singleton] at hlong
    omega
  | n :: m :: ns, k, value, decoder, hns, hk, hvalue, h => by
    obtain ⟨hge, hlt, hrest⟩ := hns
    obtain ⟨next, hnext, hpending⟩ := nextNibble_pending h
    have hmore : ¬(UInt8.ofNat n &&& 0x8 = 0) := fun hzero => by
      have := (nibble_facts n hlt).2.mp hzero
      omega
    rw [vleLoop, hnext]
    simp only [bind, Except.bind]
    rw [if_neg hmore]
    by_cases hlast : k = 10
    · -- the shift of another digit is past the word
      rw [dif_pos (by omega)]
      refine ⟨fun hshort => ?_, fun _ => rfl⟩
      simp only [length_cons] at hshort
      omega
    · rw [dif_neg (by omega)]
      have hpow : 2 ^ (3 * k + 3) = 8 * 2 ^ (3 * k) := by rw [Nat.pow_add, Nat.mul_comm]
      have hfits : n % 8 * 2 ^ (3 * k) < 2 ^ 32 := by
        have hle : 2 ^ (3 * k + 3) ≤ 2 ^ 30 := Nat.pow_le_pow_right (by decide) (by omega)
        have hdigit : n % 8 * 2 ^ (3 * k) ≤ 8 * 2 ^ (3 * k) := Nat.mul_le_mul_right _ (by omega)
        omega
      have hsum := toNat_or_shift hlt (show 3 * k < 32 by omega) hvalue hfits
      generalize value ||| ((UInt8.ofNat n &&& 0x7).toUInt32 <<< UInt32.ofNat (3 * k)) = value' at hsum ⊢
      have hvalue' : value'.toNat < 2 ^ (3 * (k + 1)) := by
        have hdigit : n % 8 * 2 ^ (3 * k) ≤ 7 * 2 ^ (3 * k) := Nat.mul_le_mul_right _ (by omega)
        rw [Nat.mul_succ, hsum, hpow]
        omega
      obtain ⟨hshort, hlong⟩ := vleLoop_vle hrest (by omega) hvalue' hpending
      have hsplit : value'.toNat + vleValue (m :: ns) * 2 ^ (3 * (k + 1)) =
          value.toNat + vleValue (n :: m :: ns) * 2 ^ (3 * k) := by
        rw [hsum, Nat.mul_succ, hpow, vleValue.eq_2 n]
        ring
      rw [hsplit] at hshort
      simp only [length_cons] at hshort hlong ⊢
      exact ⟨fun hle => hshort (by omega), fun hgt => hlong (by omega)⟩

theorem decodeVle_vle (hns : IsVle ns) (h : decoder.pending = ns ++ rest) :
    (ns.length ≤ 11 → ∃ next, decoder.decodeVle = .ok (UInt32.ofNat (vleValue ns), next) ∧ next.pending = rest) ∧
      (11 < ns.length → decoder.decodeVle = .error .valueOverflow) := by
  have hzero : (0 : UInt32).toNat < 2 ^ (3 * 0) := by decide
  obtain ⟨hshort, hlong⟩ := vleLoop_vle hns (Nat.zero_le 10) hzero h
  simpa [decodeVle] using And.intro hshort hlong

/-! ## Streams that stop -/

theorem digits_lt {k w n : Nat} (hw : w < 2 ^ 32) (hn : n ∈ Nibbles.digits k w) : n < 16 := by
  induction k generalizing w with
  | zero => cases hn
  | succ k ih =>
    rcases mem_cons.mp hn with rfl | hn
    · omega
    · exact ih (Nat.mod_lt _ (by decide)) hn

theorem stream_lt {bytes : List UInt8} {n : Nat} (hn : n ∈ Nibbles.stream bytes) : n < 16 := by
  induction bytes using Nibbles.stream.induct with
  | case1 a b c d bytes ih =>
    rcases mem_append.mp hn with hn | hn
    · have hlt : LittleEndian.leValue [a, b, c, d] < 256 ^ 4 := LittleEndian.leValue_lt [a, b, c, d]
      exact digits_lt (by omega) hn
    · exact ih hn
  | case2 bytes hshort =>
    rw [Nibbles.stream] at hn
    · cases hn
    · exact hshort

theorem pending_lt {n : Nat} (hn : n ∈ decoder.pending) : n < 16 := by
  rcases mem_append.mp hn with hn | hn
  · exact digits_lt decoder.word.toNat_lt hn
  · exact stream_lt hn

theorem nextNibble_eof (h : decoder.pending = []) : decoder.nextNibble = .error .unexpectedEof := by
  obtain ⟨hdigits, hstream⟩ := append_eq_nil_iff.mp h
  have hremaining : decoder.nibblesRemaining = 0 := by
    cases hcount : decoder.nibblesRemaining with
    | zero => rfl
    | succ k =>
      rw [hcount] at hdigits
      cases hdigits
  have hshort : decoder.input.length < decoder.offset + 4 := by
    by_contra hlong
    have hlength : 4 ≤ (decoder.input.drop decoder.offset).length := by
      rw [length_drop]
      omega
    match hbytes : decoder.input.drop decoder.offset, hlength with
    | a :: b :: c :: d :: bytes, _ =>
      rw [hbytes, Nibbles.stream] at hstream
      cases hstream
  rw [nextNibble, refill, if_pos hremaining, if_pos hshort]
  rfl

theorem vleLoop_incomplete {k : Nat} {value : UInt32} (hk : k ≤ 10) (h : ∀ n ∈ decoder.pending, 8 ≤ n) :
    vleLoop value (3 * k) decoder =
      .error (if k + decoder.pending.length ≤ 10 then .unexpectedEof else .valueOverflow) := by
  generalize hpending : decoder.pending = ns at h
  induction ns generalizing k value decoder with
  | nil =>
    rw [vleLoop, nextNibble_eof hpending, length_nil, if_pos (show k + 0 ≤ 10 from hk)]
    rfl
  | cons n ns ih =>
    obtain ⟨next, hnext, hbehind⟩ := nextNibble_pending hpending
    have hlt : n < 16 := pending_lt (by rw [hpending]; simp)
    have hge : 8 ≤ n := h n (by simp)
    have hmore : ¬(UInt8.ofNat n &&& 0x8 = 0) := fun hzero => by
      have := (nibble_facts n hlt).2.mp hzero
      omega
    rw [vleLoop, hnext]
    simp only [bind, Except.bind]
    rw [if_neg hmore, length_cons]
    by_cases hlast : k = 10
    · rw [dif_pos (by omega), if_neg (by omega)]
    · rw [dif_neg (by omega), show 3 * k + 3 = 3 * (k + 1) from rfl,
        ih (by omega) hbehind fun m hm => h m (mem_cons_of_mem n hm), Nat.add_right_comm k 1, Nat.add_assoc]

theorem decodeVle_incomplete (h : ∀ n ∈ decoder.pending, 8 ≤ n) : decoder.decodeVle =
    .error (if decoder.pending.length ≤ 10 then .unexpectedEof else .valueOverflow) := by
  have hloop := @vleLoop_incomplete decoder 0 0 (Nat.zero_le 10) h
  rw [Nat.zero_add] at hloop
  exact hloop

/-! ## Exactness -/

/-- The number behind the decoder is read for what it is, or refused for its size. -/
structure ReadsExactly (decoder : RvlDecoder) (ns rest : List Nat) : Prop where
  fits : vleValue ns < 2 ^ 32 →
    ∃ value next, decoder.decodeVle = .ok (value, next) ∧ value.toNat = vleValue ns ∧ next.pending = rest
  overflows : 2 ^ 32 ≤ vleValue ns → decoder.decodeVle = .error .valueOverflow

/-- That is so exactly if the numbers of more than eleven digits are the ones with a bit that does not fit. -/
theorem decodeVle_exact_iff (hns : IsVle ns) (h : decoder.pending = ns ++ rest) :
    decoder.ReadsExactly ns rest ↔ (HasHighBits ns ↔ 11 < ns.length) := by
  obtain ⟨hshort, hlong⟩ := decodeVle_vle hns h
  rw [hasHighBits_iff]
  constructor
  · intro hexact
    constructor
    · intro hlarge
      by_contra hle
      obtain ⟨next, hnext, -⟩ := hshort (by omega)
      rw [hexact.overflows hlarge] at hnext
      cases hnext
    · intro hgt
      by_contra hsmall
      obtain ⟨value, next, hnext, -⟩ := hexact.fits (by omega)
      rw [hlong hgt] at hnext
      cases hnext
  · intro hiff
    refine ⟨fun hsmall => ?_, fun hlarge => hlong (hiff.mp hlarge)⟩
    obtain ⟨next, hnext, hpending⟩ := hshort (by omega)
    refine ⟨_, next, hnext, ?_, hpending⟩
    rw [UInt32.toNat_ofNat', Nat.mod_eq_of_lt hsmall]

def overflowingBytes : List UInt8 := [0x88, 0x88, 0x88, 0x88, 0x00, 0x00, 0x40, 0x88]

/-- It is read as zero. -/
theorem overflowingBytes_not_exact :
    ¬(RvlDecoder.new overflowingBytes).ReadsExactly (List.replicate 10 8 ++ [4]) [0, 0, 0, 0, 0] := by
  intro hexact
  have hvle : IsVle (List.replicate 10 8 ++ [4]) := by simp [IsVle, List.replicate]
  have hpending : (RvlDecoder.new overflowingBytes).pending = (List.replicate 10 8 ++ [4]) ++ [0, 0, 0, 0, 0] := by
    decide
  obtain ⟨next, hnext, -⟩ := (decodeVle_vle hvle hpending).1 (by decide)
  rw [hexact.overflows (by decide)] at hnext
  cases hnext

/-- With a three instead of the four, it is the number `3 * 2 ^ 30`. -/
theorem decodeVle_exact_iff_eleven :
    (RvlDecoder.new [0x88, 0x88, 0x88, 0x88, 0x00, 0x00, 0x30, 0x88]).ReadsExactly
      (List.replicate 10 8 ++ [3]) [0, 0, 0, 0, 0] ↔
        (HasHighBits (List.replicate 10 8 ++ [3]) ↔ 11 < (List.replicate 10 8 ++ [3]).length) :=
  decodeVle_exact_iff (by simp [IsVle, List.replicate]) (by decide)

end RvlDecoder

end Dalaran.Rvl
