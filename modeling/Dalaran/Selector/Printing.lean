import Dalaran.Path.Unescape
import Dalaran.Selector.Scanning

/-
  What the lexer makes of the texts that selectors are written with.

  A single character is scanned as its token in front of anything. A name, a
  number and a `.` are only when nothing follows that continues a name. A string
  literal is scanned as its value when all its characters survive, and is an
  error otherwise: the lexer knows fewer escapes than `Debug` writes.
-/

namespace Dalaran.Selector

open List

variable {tables : UnicodeTables}

/-! ## Single characters -/

theorem scans_space : Scans tables Anything [' '] [] :=
  scans_of_lexeme none (by simp) (fun _ _ => rfl) (by simp)

def symbols : List (Char × TokenType) :=
  [('|', .pipe), ('?', .questionMark), ('!', .exclamationMark), ('[', .lBracket), (']', .rBracket),
    ('(', .lParen), (')', .rParen), (';', .semicolon), (',', .comma)]

variable {c : Char}

theorem scans_symbol {u : TokenType} (h : (c, u) ∈ symbols) : Scans tables Anything [c] [u] := by
  refine scans_of_lexeme (some u) (by simp) (fun rest _ => ?_) fun _ hsome => ?_
  on_goal 2 => cases hsome
  all_goals
    simp only [symbols, mem_cons, Prod.mk.injEq, not_mem_nil, or_false] at h
    rcases h with ⟨rfl, rfl⟩ | ⟨rfl, rfl⟩ | ⟨rfl, rfl⟩ | ⟨rfl, rfl⟩ | ⟨rfl, rfl⟩ | ⟨rfl, rfl⟩ | ⟨rfl, rfl⟩ |
      ⟨rfl, rfl⟩ | ⟨rfl, rfl⟩ <;> rfl

/-! ## Names -/

theorem breaks_cons (h : tables.continuesName c = false) (t : Text) : Breaks tables (c :: t) := by
  rintro _ ⟨⟩
  exact h

theorem breaks_nil : Breaks tables [] := by
  rintro c ⟨⟩

theorem takeWhile_name {p : Char → Bool} {name rest : Text} (h : ∀ c ∈ name, p c = true)
    (hrest : ∀ c ∈ rest.head?, p c = false) :
    (name ++ rest).takeWhile p = name ∧ (name ++ rest).dropWhile p = rest := by
  rw [takeWhile_append_of_pos h, dropWhile_append_of_pos h]
  cases rest with
  | nil => exact ⟨append_nil name, rfl⟩
  | cons c rest =>
    have hc : p c = false := hrest c rfl
    rw [takeWhile_cons_of_neg (by simp [hc]), dropWhile_cons_of_neg (by simp [hc])]
    exact ⟨append_nil name, rfl⟩

theorem not_alphabetic_of_breaks {rest : Text} (h : Breaks tables rest) :
    rest.head?.any tables.isAlphabetic = false := by
  cases rest with
  | nil => rfl
  | cons c rest =>
    have hc : tables.continuesName c = false := h c rfl
    cases halpha : tables.isAlphabetic c with
    | false => simpa using halpha
    | true =>
      rw [continuesName_of_alphabetic (by simp [halpha])] at hc
      cases hc

theorem scans_dot : Scans tables (Breaks tables) ['.'] [.dot] := by
  refine scans_of_lexeme (some .dot) (by simp) ?_ (by simp [readsBack])
  intro rest hrest
  have hstart : ¬rest.head?.any tables.isAlphabetic = true := by simp [not_alphabetic_of_breaks hrest]
  exact if_neg hstart

theorem scans_field {name : Text} (h : Spelled tables (.field name)) :
    Scans tables (Breaks tables) ('.' :: name) [.field name] := by
  obtain ⟨⟨c, hhead, halpha⟩, hcontinues⟩ := h
  refine scans_of_lexeme (some (.field name)) (by simp) ?_ (by simp [readsBack])
  intro rest hrest
  have hstart : (name ++ rest).head?.any tables.isAlphabetic = true := by
    rw [List.head?_append, hhead]
    exact halpha
  obtain ⟨htake, hdrop⟩ := takeWhile_name hcontinues hrest
  have hlexeme : lexeme tables ('.' :: (name ++ rest)) = some (some (.field ((name ++ rest).takeWhile tables.continuesName)),
      (name ++ rest).dropWhile tables.continuesName) := if_pos hstart
  rw [cons_append, hlexeme, htake, hdrop]

theorem lexeme_number (h : isAsciiDigit c = true) (chars : Text) :
    lexeme tables (c :: chars) = (fromStrRadix 64 10 (c :: chars.takeWhile isAsciiDigit)).map fun n =>
      (some (.integer (UInt64.ofNat n)), chars.dropWhile isAsciiDigit) := by
  simp only [lexeme]
  split <;> first | (exact absurd h (by decide)) | rw [if_pos h]

theorem isAsciiDigit_lt (h : isAsciiDigit c = true) : 48 ≤ c.toNat ∧ c.toNat ≤ 57 := by
  simp only [isAsciiDigit, Bool.and_eq_true, decide_eq_true_eq] at h
  exact h

theorem not_digit_of_start (h : (tables.isAlphabetic c || c == '_') = true) : isAsciiDigit c = false := by
  cases hdigit : isAsciiDigit c with
  | false => rfl
  | true =>
    obtain ⟨hlow, hhigh⟩ := isAsciiDigit_lt hdigit
    have hdigits : ∀ n < 58, 48 ≤ n → (Char.ofNat n).isAlpha = false := by decide
    have halpha : c.isAlpha = false := by
      rw [← Char.ofNat_toNat c]
      exact hdigits c.toNat (by omega) hlow
    rw [tables.asciiAlphabetic c (by omega), halpha, Bool.false_or, beq_iff_eq] at h
    rw [h] at hdigit
    exact absurd hdigit (by decide)

theorem lexeme_ident (h : (tables.isAlphabetic c || c == '_') = true) (chars : Text) :
    lexeme tables (c :: chars) =
      some (some (.ident (c :: chars.takeWhile tables.continuesName)), chars.dropWhile tables.continuesName) := by
  have hstart : ∀ d : Char, d.toNat < 128 → (d.isAlpha || d == '_') = false → c ≠ d := by
    rintro d hascii hd rfl
    rw [tables.asciiAlphabetic _ hascii, hd] at h
    cases h
  simp only [lexeme]
  split <;> first
    | exact absurd rfl (hstart _ (by decide) (by decide))
    | rw [if_neg (by simp [not_digit_of_start h]), if_pos h]

theorem scans_ident {name : Text} (h : Spelled tables (.ident name)) :
    Scans tables (Breaks tables) name [.ident name] := by
  obtain ⟨⟨c, hhead, hstart⟩, hcontinues⟩ := h
  obtain ⟨name, rfl⟩ := List.head?_eq_some_iff.mp hhead
  refine scans_of_lexeme (some (.ident (c :: name))) (by simp) ?_ (by simp [readsBack])
  intro rest hrest
  obtain ⟨htake, hdrop⟩ := takeWhile_name (fun d hd => hcontinues d (mem_cons_of_mem c hd)) hrest
  rw [cons_append, lexeme_ident hstart, htake, hdrop]

theorem symbol_breaks {u : TokenType} (h : (c, u) ∈ symbols) (t : Text) : Breaks tables (c :: t) := by
  refine breaks_cons (not_continuesName ?_ ?_) t
  all_goals
    simp only [symbols, mem_cons, Prod.mk.injEq, not_mem_nil, or_false] at h
    rcases h with ⟨rfl, _⟩ | ⟨rfl, _⟩ | ⟨rfl, _⟩ | ⟨rfl, _⟩ | ⟨rfl, _⟩ | ⟨rfl, _⟩ | ⟨rfl, _⟩ | ⟨rfl, _⟩ | ⟨rfl, _⟩ <;>
      decide

theorem scans_close {u : TokenType} (h : (c, u) ∈ symbols) {t : Text} {us : List TokenType}
    (ht : Scans tables (Breaks tables) t us) : Scans tables Anything (t ++ [c]) (us ++ [u]) :=
  ht.append (scans_symbol h) fun rest _ => symbol_breaks h rest

theorem Scans.of_anything {follow : Text → Prop} {t : Text} {us : List TokenType} (h : Scans tables Anything t us) :
    Scans tables follow t us := h.mono fun _ _ => trivial

/-! ## Numbers -/

theorem digitChar_facts : ∀ digit < 10, toDigit 10 (digitChar digit) = some digit ∧
    isAsciiDigit (digitChar digit) = true ∧ digitChar digit ≠ '+' := by decide

theorem readDigits_digitChars (ds : List Nat) (h : ∀ d ∈ ds, d < 10) :
    readDigits 10 0 (ds.reverse.map digitChar) = some (Nat.ofDigits 10 ds) := by
  induction ds with
  | nil => rfl
  | cons d ds ih =>
    have hd : toDigit 10 (digitChar d) = some d := (digitChar_facts d (h d (by simp))).1
    rw [reverse_cons, map_append, readDigits_append, ih fun d hd => h d (by simp [hd])]
    simp only [Option.bind_some, map_cons, map_nil, readDigits, hd, Nat.ofDigits_cons]
    rw [Nat.add_comm, Nat.mul_comm]

theorem readDigits_decimal (n : Nat) : readDigits 10 0 (decimal n) = some n := by
  rw [decimal]
  split
  · next hzero =>
    rw [hzero]
    rfl
  · rw [readDigits_digitChars _ fun d hd => Nat.digits_lt_base (by decide) hd, Nat.ofDigits_digits]

theorem decimal_digit {n : Nat} (h : c ∈ decimal n) : isAsciiDigit c = true ∧ c ≠ '+' := by
  rw [decimal] at h
  split at h
  · obtain rfl := mem_singleton.mp h
    decide
  · obtain ⟨d, hd, rfl⟩ := mem_map.mp h
    exact (digitChar_facts d (Nat.digits_lt_base (by decide) (mem_reverse.mp hd))).2

theorem decimal_ne_nil (n : Nat) : decimal n ≠ [] := by
  rw [decimal]
  split
  · simp
  · next hzero => simpa using Nat.digits_ne_nil_iff_ne_zero.mpr hzero

theorem fromStrRadix_decimal (n : UInt64) : fromStrRadix 64 10 (decimal n.toNat) = some n.toNat := by
  have hsign : (decimal n.toNat).head? ≠ some '+' := fun hplus => (decimal_digit (mem_of_head? hplus)).2 rfl
  rw [fromStrRadix, if_neg hsign, if_neg (decimal_ne_nil _), readDigits_decimal]
  exact Option.filter_some_pos (decide_eq_true n.toNat_lt)

theorem not_digit_of_breaks {rest : Text} (h : Breaks tables rest) : ∀ c ∈ rest.head?, isAsciiDigit c = false := by
  intro c hc
  cases hdigit : isAsciiDigit c with
  | false => rfl
  | true =>
    have hdigits : ∀ n < 58, 48 ≤ n → (Char.ofNat n).isAlphanum = true := by decide
    obtain ⟨hlow, hhigh⟩ := isAsciiDigit_lt hdigit
    have halphanum : c.isAlphanum = true := by
      rw [← Char.ofNat_toNat c]
      exact hdigits c.toNat (by omega) hlow
    have hbreaks : tables.continuesName c = false := h c hc
    rw [UnicodeTables.continuesName, tables.ascii c (by omega), halphanum] at hbreaks
    cases hbreaks

theorem scans_decimal (n : UInt64) : Scans tables (Breaks tables) (decimal n.toNat) [.integer n] := by
  refine scans_of_lexeme (some (.integer n)) (decimal_ne_nil _) ?_ (by simp [readsBack])
  intro rest hrest
  have hdigits : ∀ c ∈ decimal n.toNat, isAsciiDigit c = true := fun c hc => (decimal_digit hc).1
  have hread : fromStrRadix 64 10 (decimal n.toNat) = some n.toNat := fromStrRadix_decimal n
  obtain ⟨c, ds, hds⟩ := exists_cons_of_ne_nil (decimal_ne_nil n.toNat)
  rw [hds] at hdigits hread
  obtain ⟨htake, hdrop⟩ := takeWhile_name (fun d hd => hdigits d (mem_cons_of_mem c hd)) (not_digit_of_breaks hrest)
  rw [hds, cons_append, lexeme_number (hdigits c (by simp)), htake, hdrop, hread]
  simp

/-! ## String literals -/

theorem not_survives (hascii : c.toNat < 128) (h : c.toNat < 32) (htab : c ≠ '\t') (hnewline : c ≠ '\n') :
    survives tables c = false := by
  have hprintable : tables.isPrintable c = false := by
    rw [tables.asciiPrintable c hascii]
    simp only [Bool.and_eq_false_iff, decide_eq_false_iff_not]
    omega
  simp [survives, hprintable, htab, hnewline]

theorem readString_escapeDebug (c : Char) (t : Text) :
    readString (escapeDebug tables c ++ t) =
      if survives tables c then (readString t).map fun r => (c :: r.1, r.2) else none := by
  unfold escapeDebug
  split
  · rw [not_survives (by decide) (by decide) (by decide) (by decide)]
    rfl
  · rfl
  · rw [not_survives (by decide) (by decide) (by decide) (by decide)]
    rfl
  · rfl
  · rw [survives_printable (by decide) (by decide) (by decide)]
    rfl
  · rw [survives_printable (by decide) (by decide) (by decide)]
    rfl
  · next htab _ hnewline hescape hquote =>
    have hsurvives : survives tables c = (tables.isPrintable c && !tables.isGraphemeExtended c) := by
      rw [survives, beq_eq_false_iff_ne.mpr htab, beq_eq_false_iff_ne.mpr hnewline]
      rfl
    rw [hsurvives]
    cases hextended : tables.isGraphemeExtended c with
    | true => simp [unicodeEscape, readString, unescape]
    | false =>
      cases hprintable : tables.isPrintable c with
      | false => simp [unicodeEscape, readString, unescape]
      | true =>
        have hread : readString (c :: t) = (readString t).map fun r => (c :: r.1, r.2) := by
          rw [readString]
          all_goals grind
        simpa using hread

theorem readString_flatMap (value rest : Text) :
    readString (value.flatMap (escapeDebug tables) ++ '"' :: rest) =
      if value.all (survives tables) then some (value, rest) else none := by
  induction value with
  | nil => rfl
  | cons c value ih =>
    rw [List.flatMap_cons, List.append_assoc, readString_escapeDebug, ih, List.all_cons]
    cases survives tables c with
    | false => rfl
    | true =>
      cases value.all (survives tables) <;> rfl

theorem scans_literal (value : Text) :
    Scans tables Anything ((Literal.string value).display tables) [.stringLiteral value] := by
  intro rest _
  have htext : (Literal.string value).display tables ++ rest =
      '"' :: (value.flatMap (escapeDebug tables) ++ '"' :: rest) := by
    simp [Literal.display]
  have hlexeme : lexeme tables ('"' :: (value.flatMap (escapeDebug tables) ++ '"' :: rest)) =
      (readString (value.flatMap (escapeDebug tables) ++ '"' :: rest)).map fun r =>
        (some (.stringLiteral r.1), r.2) := rfl
  rw [htext, kinds_cons, hlexeme, readString_flatMap]
  simp only [readBack, all_cons, all_nil, Bool.and_true, readsBack]
  cases value.all (survives tables) <;> rfl

end Dalaran.Selector
