import Mathlib.Data.Nat.Digits.Lemmas
import Dalaran.Path.EntityPathPart

/-
  What an escaped part reads back as.

  `{:04X}` gives at least four digits, and as many as the number needs. The
  reader of a unicode escape takes an opening brace, four digits and a closing
  brace. So a character beyond the first plane that is written as an escape is
  not read back: the reader stops before the closing brace (`parseUnicodeEscape_wide`).
  Every other character is (`unescape_escapeChar`).
-/

namespace Dalaran

open List Option

/-! ## Digits -/

theorem upperHexDigit_facts : ∀ digit < 16, toDigit 16 (upperHexDigit digit) = some digit ∧
    upperHexDigit digit ≠ '}' ∧ upperHexDigit digit ≠ '+' ∧ (upperHexDigit digit).utf8Size = 1 := by
  decide

theorem readDigits_append (radix acc : Nat) (s t : Text) :
    readDigits radix acc (s ++ t) = (readDigits radix acc s).bind fun acc => readDigits radix acc t := by
  induction s generalizing acc with
  | nil => rfl
  | cons c s ih =>
    rw [cons_append, readDigits, readDigits]
    cases toDigit radix c with
    | none => rfl
    | some digit => exact ih _

theorem readDigits_upperHexDigits (ds : List Nat) (h : ∀ d ∈ ds, d < 16) :
    readDigits 16 0 (ds.reverse.map upperHexDigit) = some (Nat.ofDigits 16 ds) := by
  induction ds with
  | nil => rfl
  | cons d ds ih =>
    have hd : toDigit 16 (upperHexDigit d) = some d := (upperHexDigit_facts d (h d (by simp))).1
    rw [reverse_cons, map_append, readDigits_append, ih fun d hd => h d (by simp [hd])]
    simp only [bind_some, map_cons, map_nil, readDigits, hd, Nat.ofDigits_cons]
    rw [Nat.add_comm, Nat.mul_comm]

theorem readDigits_zeros (k : Nat) (t : Text) :
    readDigits 16 0 (List.replicate k '0' ++ t) = readDigits 16 0 t := by
  induction k with
  | zero => rfl
  | succ k ih =>
    have hzero : toDigit 16 '0' = some 0 := by decide
    exact ih

theorem readDigits_hex04 (n : Nat) : readDigits 16 0 (hex04 n) = some n := by
  rw [hex04, List.leftpad, readDigits_zeros,
    readDigits_upperHexDigits _ fun d hd => Nat.digits_lt_base (by decide) hd, Nat.ofDigits_digits]

variable {c : Char} {n : Nat}

theorem exists_of_mem_hex04 (h : c ∈ hex04 n) : ∃ digit < 16, c = upperHexDigit digit := by
  rw [hex04, List.leftpad, mem_append, List.mem_map] at h
  rcases h with h | ⟨d, hd, rfl⟩
  · exact ⟨0, by decide, eq_of_mem_replicate h⟩
  · exact ⟨d, Nat.digits_lt_base (by decide) (mem_reverse.mp hd), rfl⟩

theorem hex04_digit (h : c ∈ hex04 n) : c ≠ '}' ∧ c ≠ '+' ∧ c.utf8Size = 1 := by
  obtain ⟨d, hd, rfl⟩ := exists_of_mem_hex04 h
  exact (upperHexDigit_facts d hd).2

theorem length_hex04 (n : Nat) : (hex04 n).length = max 4 (Nat.digits 16 n).length := by
  rw [hex04, List.leftpad, length_append, length_replicate, length_map, length_reverse]
  omega

theorem length_hex04_of_lt (h : n < 0x10000) : (hex04 n).length = 4 := by
  have hdigits : (Nat.digits 16 n).length ≤ 4 := (Nat.digits_length_le_iff (by decide) n).mpr h
  rw [length_hex04]
  omega

theorem lt_length_hex04 (h : 0x10000 ≤ n) : 4 < (hex04 n).length := by
  have hdigits : 4 < (Nat.digits 16 n).length := (Nat.lt_digits_length_iff (by decide) n).mpr h
  rw [length_hex04]
  omega

theorem utf8Len_of_single {t : Text} (h : ∀ c ∈ t, c.utf8Size = 1) : utf8Len t = t.length := by
  induction t with
  | nil => rfl
  | cons c t ih =>
    have hc : c.utf8Size = 1 := h c (by simp)
    have ht : utf8Len t = t.length := ih fun c hc => h c (by simp [hc])
    rw [utf8Len] at ht ⊢
    rw [map_cons, sum_cons, ht, hc, length_cons, Nat.add_comm]

/-! ## Unicode escapes -/

theorem takeEscape_append (ds t : Text) (h : ∀ c ∈ ds, c ≠ '}' ∧ c.utf8Size = 1) (size : Nat)
    (hsize : size + ds.length < 6) :
    takeEscape size (ds ++ t) =
      (ds ++ (takeEscape (size + ds.length) t).1, (takeEscape (size + ds.length) t).2) := by
  induction ds generalizing size with
  | nil => rfl
  | cons c ds ih =>
    obtain ⟨hbrace, hone⟩ := h c (by simp)
    rw [length_cons] at hsize
    have hgo : ¬(c = '}' ∨ size + c.utf8Size = 6) := by
      exact fun hstop => hstop.elim hbrace fun hsix => by omega
    rw [cons_append, takeEscape, if_neg hgo, ih (fun c hc => h c (by simp [hc])) _ (by omega), hone,
      length_cons, Nat.add_assoc, Nat.add_comm 1]
    rfl

theorem fromStrRadix_hex04 (h : n < 2 ^ 32) : fromStrRadix 32 16 (hex04 n) = some n := by
  have hlength : 0 < (hex04 n).length := by
    rw [length_hex04]
    omega
  have hsign : (hex04 n).head? ≠ some '+' := fun hplus => (hex04_digit (mem_of_head? hplus)).2.1 rfl
  rw [fromStrRadix, if_neg hsign, if_neg (ne_nil_of_length_pos hlength), readDigits_hex04]
  exact filter_some_pos (decide_eq_true h)

theorem charFromU32_toNat (c : Char) : charFromU32 c.toNat = some c := by
  have hvalid : c.toNat.isValidChar := c.valid
  rw [charFromU32, if_pos hvalid, Char.ofNat_toNat]

theorem char_toNat_lt (c : Char) : c.toNat < 2 ^ 32 := c.val.toNat_lt

theorem parseUnicodeEscape_braces {digits : Text} (hdigits : ∀ d ∈ digits, d ≠ '}' ∧ d.utf8Size = 1)
    (hlength : digits.length = 4) {n : Nat} (hn : fromStrRadix 32 16 digits = some n) {c : Char}
    (hc : charFromU32 n = some c) (t : Text) :
    parseUnicodeEscape ('{' :: (digits ++ '}' :: t)) = (.ok c, t) := by
  have hbrace : ∀ d ∈ '{' :: digits, d ≠ '}' ∧ d.utf8Size = 1 := by
    intro d hd
    rcases mem_cons.mp hd with rfl | hd
    · decide
    · exact hdigits d hd
  have htake : takeEscape 0 ('{' :: (digits ++ '}' :: t)) = ('{' :: (digits ++ ['}']), t) := by
    have happend := takeEscape_append _ ('}' :: t) hbrace 0 (by rw [length_cons]; omega)
    rw [← cons_append, happend, takeEscape, if_pos (.inl rfl)]
    rfl
  have hlen : utf8Len digits = 4 := by
    rw [utf8Len_of_single fun d hd => (hdigits d hd).2, hlength]
  have hread : readUnicodeEscape ('{' :: (digits ++ ['}'])) = some c := by
    rw [readUnicodeEscape, if_pos (by simp), dropLast_concat, if_pos hlen, hn, bind_some, hc]
  simp [parseUnicodeEscape, htake, hread]

theorem parseUnicodeEscape_hex04 (h : c.toNat < 0x10000) (t : Text) :
    parseUnicodeEscape ('{' :: (hex04 c.toNat ++ '}' :: t)) = (.ok c, t) :=
  parseUnicodeEscape_braces (fun _ hd => ⟨(hex04_digit hd).1, (hex04_digit hd).2.2⟩) (length_hex04_of_lt h)
    (fromStrRadix_hex04 (char_toNat_lt c)) (charFromU32_toNat c) t

theorem parseUnicodeEscape_wide (h : 0x10000 ≤ n) (t : Text) :
    ∃ s, (parseUnicodeEscape ('{' :: (hex04 n ++ t))).1 = .error s := by
  have hlength : 4 < (hex04 n).length := lt_length_hex04 h
  obtain ⟨front, d, back, hsplit, hfront⟩ : ∃ front d back, hex04 n = front ++ d :: back ∧ front.length = 4 := by
    refine ⟨(hex04 n).take 4, (hex04 n)[4], (hex04 n).drop 5, ?_, ?_⟩
    · rw [← drop_eq_getElem_cons hlength, take_append_drop]
    · rw [length_take]
      omega
  have hd : d ≠ '}' ∧ d ≠ '+' ∧ d.utf8Size = 1 := hex04_digit (hsplit ▸ mem_append_right _ (by simp))
  have hdigit : ∀ c ∈ '{' :: front, c ≠ '}' ∧ c.utf8Size = 1 := by
    intro c hc
    rcases mem_cons.mp hc with rfl | hc
    · decide
    · have hmem : c ∈ hex04 n := hsplit ▸ mem_append_left _ hc
      exact ⟨(hex04_digit hmem).1, (hex04_digit hmem).2.2⟩
  have htake : (takeEscape 0 ('{' :: (hex04 n ++ t))).1 = '{' :: (front ++ [d]) := by
    have happend := takeEscape_append _ (d :: (back ++ t)) hdigit 0 (by rw [length_cons]; omega)
    rw [hsplit, append_assoc, cons_append, ← cons_append, happend, takeEscape,
      if_pos (.inr (by rw [length_cons, hd.2.2]; omega))]
    rfl
  refine ⟨'{' :: (front ++ [d]), ?_⟩
  have hread : readUnicodeEscape ('{' :: (front ++ [d])) = none := by
    rw [readUnicodeEscape, if_neg]
    rw [List.getLast?_concat]
    exact fun heq => hd.1 (some.inj heq)
  simp [parseUnicodeEscape, htake, hread]

/-! ## Escaped characters -/

theorem CharClass.printsAsIs_ne_backslash (cls : CharClass) (h : cls.printsAsIs c = true) : c ≠ '\\' := by
  rintro rfl
  have hascii : cls.isAlphanumeric '\\' = false := cls.ascii '\\' (by decide)
  simp [CharClass.printsAsIs, hascii] at h

theorem CharClass.printsAsIs_wide (cls : CharClass) (h : 0x10000 ≤ c.toNat) :
    cls.printsAsIs c = cls.isAlphanumeric c := by
  have hascii : ∀ d ∈ ['_', '-', '.'], d.toNat < 0x10000 := by simp
  have hne : ∀ d ∈ ['_', '-', '.'], c ≠ d := by
    intro d hd heq
    exact absurd (heq ▸ hascii d hd) (Nat.not_lt_of_le h)
  simpa [CharClass.printsAsIs] using fun heq => absurd heq (by simpa using hne)

/-- Whether the character can be written: as it is, or with four digits. -/
def CharClass.Writable (cls : CharClass) (c : Char) : Prop :=
  c.toNat < 0x10000 ∨ cls.isAlphanumeric c = true

namespace EntityPathPart

variable (cls : CharClass)

theorem unescapeStrict_asIs (h : cls.printsAsIs c = true) (t : Text) :
    unescapeStrict cls (c :: t) = push [c] (unescapeStrict cls t) := by
  rw [unescapeStrict.eq_def]
  simp only [if_neg (cls.printsAsIs_ne_backslash h), if_pos h]

theorem unescapeForgiving_asIs (h : c ≠ '\\') (t : Text) :
    (unescapeForgiving (c :: t)).1 = c :: (unescapeForgiving t).1 := by
  rw [unescapeForgiving.eq_def]
  simp only [if_neg h]
  rfl

theorem unescape_punctuation {e : Char} (h : (isAsciiPunctuation e || e == ' ') = true) (t : Text) :
    unescapeStrict cls ('\\' :: e :: t) = push [e] (unescapeStrict cls t) ∧
      (unescapeForgiving ('\\' :: e :: t)).1 = e :: (unescapeForgiving t).1 := by
  have hletters : ∀ d ∈ ['n', 'r', 't', 'u'], (isAsciiPunctuation d || d == ' ') = false := by
    simp [isAsciiPunctuation]
  have hne : ∀ d ∈ ['n', 'r', 't', 'u'], e ≠ d := by
    intro d hd heq
    rw [heq, hletters d hd] at h
    cases h
  have hn : e ≠ 'n' := hne 'n' (by simp)
  have hr : e ≠ 'r' := hne 'r' (by simp)
  have ht : e ≠ 't' := hne 't' (by simp)
  have hu : e ≠ 'u' := hne 'u' (by simp)
  constructor
  · rw [unescapeStrict]
    simp [if_neg hn, if_neg hr, if_neg ht, if_neg hu, h]
  · rw [unescapeForgiving]
    simp only [if_true, if_neg hn, if_neg hr, if_neg ht, if_neg hu, h]
    rfl

theorem unescape_escapeChar (h : cls.Writable c) (t : Text) :
    unescapeStrict cls (escapeChar cls c ++ t) = push [c] (unescapeStrict cls t) ∧
      (unescapeForgiving (escapeChar cls c ++ t)).1 = c :: (unescapeForgiving t).1 := by
  rw [escapeChar]
  split_ifs with hasIs hn hr ht hp
  · exact ⟨unescapeStrict_asIs cls hasIs t, unescapeForgiving_asIs (cls.printsAsIs_ne_backslash hasIs) t⟩
  · subst hn
    exact ⟨by simp [unescapeStrict], by simp [unescapeForgiving, pushWith]⟩
  · subst hr
    exact ⟨by simp [unescapeStrict], by simp [unescapeForgiving, pushWith]⟩
  · subst ht
    exact ⟨by simp [unescapeStrict], by simp [unescapeForgiving, pushWith]⟩
  · exact unescape_punctuation cls hp t
  · have hlt : c.toNat < 0x10000 := by
      refine h.resolve_right fun halnum => hasIs ?_
      simp [CharClass.printsAsIs, halnum]
    have hparse : parseUnicodeEscape ('{' :: (hex04 c.toNat ++ '}' :: t)) = (.ok c, t) :=
      parseUnicodeEscape_hex04 hlt t
    exact ⟨by simp [unescapeStrict, hparse], by simp [unescapeForgiving, hparse, pushWith]⟩

theorem escapeChar_of_not_writable (h : ¬ cls.Writable c) :
    0x10000 ≤ c.toNat ∧ escapeChar cls c = '\\' :: 'u' :: '{' :: (hex04 c.toNat ++ ['}']) := by
  have hwide : 0x10000 ≤ c.toNat := Nat.le_of_not_lt fun hlt => h (.inl hlt)
  have hasIs : cls.printsAsIs c = false := by
    rw [cls.printsAsIs_wide hwide]
    exact Bool.eq_false_iff.mpr fun halnum => h (.inr halnum)
  have hne : ∀ d : Char, d.toNat < 128 → c ≠ d := by
    rintro d hd rfl
    omega
  have hpunctuation : isAsciiPunctuation c = false := by
    simp only [isAsciiPunctuation, Bool.or_eq_false_iff, Bool.and_eq_false_iff, decide_eq_false_iff_not]
    omega
  refine ⟨hwide, ?_⟩
  rw [escapeChar, hasIs, if_neg Bool.false_ne_true, if_neg (hne '\n' (by decide)), if_neg (hne '\r' (by decide)),
    if_neg (hne '\t' (by decide)), hpunctuation, Bool.false_or, if_neg (by simpa using hne ' ' (by decide))]

theorem unescape_of_not_writable (h : ¬ cls.Writable c) (t : Text) :
    (∃ e, unescapeStrict cls (escapeChar cls c ++ t) = .error e) ∧
      ∃ rest, (unescapeForgiving (escapeChar cls c ++ t)).1 = '\\' :: rest := by
  obtain ⟨hwide, hescape⟩ := escapeChar_of_not_writable cls h
  obtain ⟨s, hs⟩ := parseUnicodeEscape_wide hwide ('}' :: t)
  rw [hescape]
  exact ⟨⟨.invalidUnicodeEscape s, by simp [unescapeStrict, hs]⟩, by simp [unescapeForgiving, hs, pushWith]⟩

/-! ## Escaped parts -/

theorem unescape_escapedChars {chars : Text} (h : ∀ c ∈ chars, cls.Writable c) (t : Text) :
    unescapeStrict cls (escapedChars cls chars ++ t) = push chars (unescapeStrict cls t) ∧
      (unescapeForgiving (escapedChars cls chars ++ t)).1 = chars ++ (unescapeForgiving t).1 := by
  induction chars with
  | nil =>
    constructor
    · cases hread : unescapeStrict cls t <;> simp [escapedChars, push, Except.map, hread]
    · rfl
  | cons c chars ih =>
    obtain ⟨hstrict, hforgiving⟩ := ih fun c hc => h c (mem_cons_of_mem _ hc)
    obtain ⟨hstrictC, hforgivingC⟩ :=
      unescape_escapeChar cls (h c mem_cons_self) (escapedChars cls chars ++ t)
    rw [escapedChars, flatMap_cons, append_assoc, ← escapedChars, hstrictC, hforgivingC, hstrict, hforgiving]
    constructor
    · cases hread : unescapeStrict cls t <;> simp [push, Except.map]
    · rfl

theorem unescapeStrict_escapedChars_of_not_writable {chars : Text} (h : ∃ c ∈ chars, ¬ cls.Writable c)
    (t : Text) : ∃ e, unescapeStrict cls (escapedChars cls chars ++ t) = .error e := by
  induction chars with
  | nil =>
    obtain ⟨c, hc, -⟩ := h
    cases hc
  | cons c chars ih =>
    rw [escapedChars, flatMap_cons, append_assoc, ← escapedChars]
    by_cases hc : cls.Writable c
    · obtain ⟨d, hd, hnot⟩ := h
      have hmem : d ∈ chars := (mem_cons.mp hd).resolve_left fun heq => hnot (heq ▸ hc)
      obtain ⟨e, he⟩ := ih ⟨d, hmem, hnot⟩
      exact ⟨e, by rw [(unescape_escapeChar cls hc _).1, he]; rfl⟩
    · exact (unescape_of_not_writable cls hc _).1

theorem parse_escapedString {part : String} (h : ∀ c ∈ part.toList, cls.Writable c) :
    parseStrict cls (escapedString cls part) = .ok part ∧
      (parseForgivingWithWarning (escapedString cls part)).1 = part := by
  obtain ⟨hstrict, hforgiving⟩ := unescape_escapedChars cls h []
  rw [append_nil] at hstrict hforgiving
  have hnil : unescapeStrict cls [] = .ok [] := by rw [unescapeStrict]
  have hnil' : unescapeForgiving [] = ([], []) := by rw [unescapeForgiving]
  constructor
  · rw [parseStrict, escapedString, hstrict, hnil]
    simp [push, Except.map]
  · rw [parseForgivingWithWarning, escapedString, hforgiving, hnil']
    simp

end EntityPathPart

end Dalaran
