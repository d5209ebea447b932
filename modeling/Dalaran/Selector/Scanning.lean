import Mathlib.Data.List.TakeWhile
import Dalaran.Selector.Display

/-
  What the lexer makes of a text, without the positions.

  The parser looks at token types only, and no token type depends on where the
  token stands. `lexeme` is one turn of the lexer and `kinds` a whole run, both
  of them with the positions forgotten.
-/

namespace Dalaran.Selector

open List Option Lexer

variable {tables : UnicodeTables}

/-! ## Forgetting the positions -/

/-- The type of the token that was read and the characters that are left. -/
def erased : Except LexError (Option Token × Lexer) → Option (Option TokenType × Text)
  | .ok (token, lexer) => some (token.map Token.typ, lexer.chars)
  | .error _ => none

def types (result : Except LexError (List Token)) : Option (List TokenType) :=
  result.toOption.map fun tokens => tokens.map Token.typ

def kinds (tables : UnicodeTables) (chars : Text) : Option (List TokenType) := types (scanTokens tables chars)

/-- The value of a string literal and what is left behind its closing quote. -/
def readString : Text → Option (Text × Text)
  | [] => none
  | '"' :: chars => some ([], chars)
  | ['\\'] => none
  | '\\' :: ch :: chars => (unescape ch).bind fun c => (readString chars).map fun r => (c :: r.1, r.2)
  | ch :: chars => (readString chars).map fun r => (ch :: r.1, r.2)

theorem stringLoop_erased (line column startLine startColumn : Nat) (value chars : Text) :
    (Lexer.stringLoop line column startLine startColumn value chars).toOption.map (fun r => (r.1, r.2.2)) =
      (readString chars).map fun r => (value ++ r.1, r.2) := by
  fun_induction Lexer.stringLoop line column startLine startColumn value chars with
  | case1 => rfl
  | case2 column value chars => simp [readString, Except.toOption]
  | case3 => rfl
  | case4 column value ch chars c hescape ih =>
    rw [ih, readString, hescape]
    cases readString chars <;> simp
  | case5 column value ch chars hescape =>
    rw [readString, hescape]
    rfl
  | case6 column value ch chars hquote hlast hescape ih =>
    rw [ih, readString]
    · cases readString chars <;> simp
    all_goals grind

theorem makeString_erased (lexer : Lexer) :
    erased (lexer.makeString.map fun (token, lexer) => (some token, lexer)) =
      (readString lexer.chars).map fun r => (some (.stringLiteral r.1), r.2) := by
  have h := stringLoop_erased lexer.line lexer.column lexer.line lexer.column [] lexer.chars
  rw [Lexer.makeString]
  cases hloop : Lexer.stringLoop lexer.line lexer.column lexer.line lexer.column [] lexer.chars with
  | error e =>
    rw [hloop] at h
    cases hread : readString lexer.chars with
    | none => rfl
    | some r =>
      rw [hread] at h
      cases h
  | ok r =>
    rw [hloop] at h
    cases hread : readString lexer.chars with
    | none =>
      rw [hread] at h
      cases h
    | some r' =>
      rw [hread] at h
      obtain ⟨hvalue, hrest⟩ := Prod.mk.inj (Option.some.inj h)
      simp only [List.nil_append] at hvalue hrest
      rw [Option.map_some, ← hvalue, ← hrest]
      rfl

theorem makeNumber_erased (lexer : Lexer) :
    erased (lexer.makeNumber.map fun (token, lexer) => (some token, lexer)) =
      (fromStrRadix 64 10 (lexer.lexemeBuffer ++ lexer.chars.takeWhile isAsciiDigit)).map fun n =>
        (some (.integer (UInt64.ofNat n)), lexer.chars.dropWhile isAsciiDigit) := by
  rw [Lexer.makeNumber]
  simp only [Lexer.takeLexeme, Lexer.advanceWhile]
  cases fromStrRadix 64 10 (lexer.lexemeBuffer ++ lexer.chars.takeWhile isAsciiDigit) <;> rfl

/-- One turn of the lexer. -/
def lexeme (tables : UnicodeTables) : Text → Option (Option TokenType × Text)
  | [] => none
  | c :: chars =>
    match c with
    | ' ' | '\r' | '\t' | '\n' => some (none, chars)
    | '|' => some (some .pipe, chars)
    | '?' => some (some .questionMark, chars)
    | '!' => some (some .exclamationMark, chars)
    | '[' => some (some .lBracket, chars)
    | ']' => some (some .rBracket, chars)
    | '(' => some (some .lParen, chars)
    | ')' => some (some .rParen, chars)
    | ';' => some (some .semicolon, chars)
    | ',' => some (some .comma, chars)
    | '"' => (readString chars).map fun r => (some (.stringLiteral r.1), r.2)
    | '.' =>
      if chars.head?.any tables.isAlphabetic then
        some (some (.field (chars.takeWhile tables.continuesName)), chars.dropWhile tables.continuesName)
      else some (some .dot, chars)
    | c =>
      if isAsciiDigit c then
        (fromStrRadix 64 10 (c :: chars.takeWhile isAsciiDigit)).map fun n =>
          (some (.integer (UInt64.ofNat n)), chars.dropWhile isAsciiDigit)
      else if tables.isAlphabetic c || c == '_' then
        some (some (.ident (c :: chars.takeWhile tables.continuesName)), chars.dropWhile tables.continuesName)
      else none

theorem scanToken_erased (chars : Text) (line column : Nat) :
    erased (Lexer.scanToken tables ⟨chars, line, column, []⟩) = lexeme tables chars := by
  cases chars with
  | nil => rfl
  | cons c chars =>
    unfold scanToken
    simp only [Lexer.advance, nil_append]
    split <;> try rfl
    · exact makeString_erased _
    · simp only [lexeme]
      split <;> rfl
    · simp only [lexeme]
      split <;> try contradiction
      · exact makeNumber_erased _
      · split <;> rfl

theorem length_dropWhile_le (p : Char → Bool) (chars : Text) : (chars.dropWhile p).length ≤ chars.length :=
  (dropWhile_suffix p).length_le

variable {chars : Text}

theorem readString_length {r : Text × Text} (h : readString chars = some r) : r.2.length < chars.length := by
  fun_induction readString chars generalizing r with
  | case1 => cases h
  | case2 chars =>
    cases h
    simp
  | case3 => cases h
  | case4 ch chars ih =>
    obtain ⟨c, hc, h⟩ := bind_eq_some_iff.mp h
    obtain ⟨r', hr', rfl⟩ := map_eq_some_iff.mp h
    have hlt : r'.2.length < chars.length := ih hr'
    simp only [length_cons]
    omega
  | case5 ch chars hquote hlast hescape ih =>
    obtain ⟨r', hr', rfl⟩ := map_eq_some_iff.mp h
    have hlt : r'.2.length < chars.length := ih hr'
    simp only [length_cons]
    omega

variable {rest : Text}

theorem lexeme_length {token : Option TokenType}
    (h : lexeme tables chars = some (token, rest)) : rest.length < chars.length := by
  cases chars with
  | nil => cases h
  | cons c chars =>
    rw [length_cons, Nat.lt_succ_iff]
    simp only [lexeme] at h
    split at h <;> try (cases h; exact le_rfl)
    · obtain ⟨r, hr, hpair⟩ := map_eq_some_iff.mp h
      cases hpair
      exact Nat.le_of_lt (readString_length hr)
    · split at h
      · cases h
        exact length_dropWhile_le _ chars
      · cases h
        exact le_rfl
    · split at h
      · obtain ⟨n, hn, hpair⟩ := map_eq_some_iff.mp h
        cases hpair
        exact length_dropWhile_le _ chars
      · split at h
        · cases h
          exact length_dropWhile_le _ chars
        · cases h

/-! ## The run -/

theorem types_scanLoop_succ (tables : UnicodeTables) (fuel : Nat) {lexer : Lexer} (h : lexer.chars ≠ []) :
    (lexeme tables lexer.chars = none → types (Lexer.scanLoop tables (fuel + 1) lexer) = none) ∧
      ∀ token rest, lexeme tables lexer.chars = some (token, rest) → ∃ next : Lexer, next.chars = rest ∧
        types (Lexer.scanLoop tables (fuel + 1) lexer) =
          (types (Lexer.scanLoop tables fuel next)).map fun us => token.toList ++ us := by
  have herased : erased (scanToken tables { lexer with lexemeBuffer := [] }) = lexeme tables lexer.chars :=
    scanToken_erased lexer.chars lexer.line lexer.column
  rw [scanLoop, if_neg h, ← herased]
  cases scanToken tables { lexer with lexemeBuffer := [] } with
  | error e =>
    refine ⟨fun _ => rfl, ?_⟩
    intro token rest hsome
    cases hsome
  | ok r =>
    refine ⟨fun hnone => (some_ne_none _ hnone).elim, ?_⟩
    intro token rest hsome
    obtain ⟨rfl, rfl⟩ := Prod.mk.inj (some.inj hsome)
    refine ⟨r.2, rfl, ?_⟩
    simp only [bind, Except.bind]
    cases scanLoop tables fuel r.2 with
    | error e => rfl
    | ok tokens => cases r.1 <;> rfl

theorem types_scanLoop_eq {fuel fuel' : Nat} {lexer lexer' : Lexer} (h : lexer.chars.length ≤ fuel)
    (h' : lexer.chars.length ≤ fuel') (hchars : lexer'.chars = lexer.chars) :
    types (Lexer.scanLoop tables fuel lexer) = types (Lexer.scanLoop tables fuel' lexer') := by
  induction fuel generalizing fuel' lexer lexer' with
  | zero =>
    have hnil : lexer'.chars = [] := hchars.trans (length_eq_zero_iff.mp (Nat.le_zero.mp h))
    cases fuel' with
    | zero => rfl
    | succ fuel' =>
      rw [scanLoop, scanLoop, if_pos hnil]
  | succ fuel ih =>
    by_cases hnil : lexer.chars = []
    · rw [scanLoop, if_pos hnil]
      cases fuel' with
      | zero => rfl
      | succ fuel' => rw [scanLoop, if_pos (hchars.trans hnil)]
    · have hpos : 0 < lexer.chars.length := length_pos_iff.mpr hnil
      obtain ⟨fuel', rfl⟩ : ∃ m, fuel' = m + 1 := ⟨fuel' - 1, by omega⟩
      obtain ⟨hnone, hsome⟩ := types_scanLoop_succ tables fuel hnil
      obtain ⟨hnone', hsome'⟩ := types_scanLoop_succ tables fuel' (hchars ▸ hnil)
      rw [hchars] at hnone' hsome'
      cases hlexeme : lexeme tables lexer.chars with
      | none => rw [hnone hlexeme, hnone' hlexeme]
      | some r =>
        obtain ⟨next, hnext, hrun⟩ := hsome r.1 r.2 hlexeme
        obtain ⟨next', hnext', hrun'⟩ := hsome' r.1 r.2 hlexeme
        have hshorter : r.2.length < lexer.chars.length := lexeme_length hlexeme
        have hrest : types (scanLoop tables fuel next) = types (scanLoop tables fuel' next') :=
          ih (by rw [hnext]; omega) (by rw [hnext]; omega) (hnext'.trans hnext.symm)
        rw [hrun, hrun', hrest]

theorem kinds_nil : kinds tables [] = some [] := rfl

theorem kinds_cons (c : Char) (chars : Text) :
    kinds tables (c :: chars) = (lexeme tables (c :: chars)).bind fun r =>
      (kinds tables r.2).map fun us => r.1.toList ++ us := by
  have hne : (Lexer.new (c :: chars)).chars ≠ [] := cons_ne_nil c chars
  obtain ⟨hnone, hsome⟩ := types_scanLoop_succ tables chars.length hne
  change types (scanLoop tables (chars.length + 1) (Lexer.new (c :: chars))) = _
  cases hlexeme : lexeme tables (c :: chars) with
  | none => exact hnone hlexeme
  | some r =>
    obtain ⟨next, hnext, hrun⟩ := hsome r.1 r.2 hlexeme
    have hshorter : r.2.length < (c :: chars).length := lexeme_length hlexeme
    rw [length_cons] at hshorter
    have hrest : types (scanLoop tables chars.length next) = kinds tables r.2 :=
      types_scanLoop_eq (by rw [hnext]; omega) (by rw [hnext]) hnext.symm
    rw [hrun, hrest]
    rfl

variable {us : List TokenType}

theorem kinds_induction {P : Text → List TokenType → Prop} (hnil : P [] [])
    (hturn : ∀ chars token rest us, lexeme tables chars = some (token, rest) → P rest us →
      P chars (token.toList ++ us)) (h : kinds tables chars = some us) :
    P chars us := by
  induction hn : chars.length using Nat.strong_induction_on generalizing chars us with
  | _ n ih =>
    cases chars with
    | nil =>
      cases h
      exact hnil
    | cons c chars =>
      rw [kinds_cons] at h
      obtain ⟨⟨token, rest⟩, hlexeme, hrest⟩ := bind_eq_some_iff.mp h
      obtain ⟨vs, hvs, rfl⟩ := map_eq_some_iff.mp hrest
      exact hturn _ token rest vs hlexeme (ih rest.length (hn ▸ lexeme_length hlexeme) hvs rfl)

/-! ## The tokens of a text -/

def Spelled (tables : UnicodeTables) : TokenType → Prop
  | .field name => (∃ c, name.head? = some c ∧ tables.isAlphabetic c = true) ∧
      ∀ c ∈ name, tables.continuesName c = true
  | .ident name => (∃ c, name.head? = some c ∧ (tables.isAlphabetic c || c == '_') = true) ∧
      ∀ c ∈ name, tables.continuesName c = true
  | _ => True

theorem continuesName_of_alphabetic {c : Char} (h : (tables.isAlphabetic c || c == '_') = true) :
    tables.continuesName c = true := by
  rw [UnicodeTables.continuesName]
  cases halpha : tables.isAlphabetic c with
  | true => simp [tables.alphabetic c halpha]
  | false =>
    rw [halpha] at h
    simp only [Bool.false_or] at h
    simp [h]

theorem lexeme_spelled {u : TokenType} (h : lexeme tables chars = some (some u, rest)) : Spelled tables u := by
  cases chars with
  | nil => cases h
  | cons c chars =>
    simp only [lexeme] at h
    split at h <;> try (cases h <;> exact trivial)
    · obtain ⟨r, hr, hpair⟩ := map_eq_some_iff.mp h
      cases hpair
      exact trivial
    · split at h
      · next halpha =>
        cases h
        refine ⟨?_, fun c => mem_takeWhile_imp⟩
        cases chars with
        | nil => cases halpha
        | cons c chars =>
          have hcontinues : tables.continuesName c = true :=
            continuesName_of_alphabetic (by simpa using Or.inl halpha)
          refine ⟨c, ?_, by simpa using halpha⟩
          rw [takeWhile_cons_of_pos hcontinues]
          rfl
      · cases h
        exact trivial
    · split at h
      · obtain ⟨n, hn, hpair⟩ := map_eq_some_iff.mp h
        cases hpair
        exact trivial
      · split at h
        · next hstart =>
          cases h
          refine ⟨⟨c, rfl, hstart⟩, fun d hd => ?_⟩
          rcases mem_cons.mp hd with rfl | hd
          · exact continuesName_of_alphabetic hstart
          · exact mem_takeWhile_imp hd
        · cases h

theorem kinds_spelled (h : kinds tables chars = some us) : ∀ u ∈ us, Spelled tables u := by
  refine kinds_induction (P := fun _ us => ∀ u ∈ us, Spelled tables u) (by simp) ?_ h
  intro chars token rest us hlexeme ih u hu
  rcases mem_append.mp hu with hu | hu
  · obtain rfl : token = some u := by simpa using hu
    exact lexeme_spelled hlexeme
  · exact ih u hu

/-! ## The characters of string literals -/

/-- The characters that stand in the string literals of a text, escapes apart. -/
def literalChars : Bool → Text → Text
  | _, [] => []
  | false, '"' :: chars => literalChars true chars
  | false, _ :: chars => literalChars false chars
  | true, '"' :: chars => literalChars false chars
  | true, ['\\'] => []
  | true, '\\' :: _ :: chars => literalChars true chars
  | true, c :: chars => c :: literalChars true chars

/-- What `Debug` writes in a way that the lexer reads. -/
def survives (tables : UnicodeTables) (c : Char) : Bool :=
  c == '\t' || c == '\n' || (tables.isPrintable c && !tables.isGraphemeExtended c)

def readsBack (tables : UnicodeTables) : TokenType → Bool
  | .stringLiteral value => value.all (survives tables)
  | _ => true

theorem literalChars_cons {c : Char} (h : c ≠ '"') (chars : Text) :
    literalChars false (c :: chars) = literalChars false chars := by
  rw [literalChars]
  exact h

theorem literalChars_dropWhile {p : Char → Bool} (h : p '"' = false) (chars : Text) :
    literalChars false (chars.dropWhile p) = literalChars false chars := by
  induction chars with
  | nil => rfl
  | cons c chars ih =>
    cases hc : p c with
    | true =>
      have hne : c ≠ '"' := by
        rintro rfl
        rw [h] at hc
        cases hc
      rw [List.dropWhile_cons_of_pos hc, ih, literalChars_cons hne]
    | false => rw [List.dropWhile_cons_of_neg (by simp [hc])]

theorem survives_printable {c : Char} (hascii : c.toNat < 128) (h : 32 ≤ c.toNat) (h' : c.toNat < 127) :
    survives tables c = true := by
  simp [survives, tables.asciiPrintable c hascii, tables.asciiGraphemeExtended c hascii, h, h']

theorem survives_unescape {ch c : Char} (h : unescape ch = some c) : survives tables c = true := by
  unfold unescape at h
  split at h
  · cases h
    exact survives_printable (by decide) (by decide) (by decide)
  · cases h
    exact survives_printable (by decide) (by decide) (by decide)
  · cases h
    rfl
  · cases h
    rfl
  · cases h

theorem readString_literalChars (tables : UnicodeTables) {r : Text × Text} (h : readString chars = some r) :
    ∃ raw, literalChars true chars = raw ++ literalChars false r.2 ∧
      r.1.all (survives tables) = raw.all (survives tables) := by
  fun_induction readString chars generalizing r with
  | case1 => cases h
  | case2 chars =>
    cases h
    exact ⟨[], rfl, rfl⟩
  | case3 => cases h
  | case4 ch chars ih =>
    obtain ⟨c, hc, h⟩ := Option.bind_eq_some_iff.mp h
    obtain ⟨r', hr', rfl⟩ := Option.map_eq_some_iff.mp h
    obtain ⟨raw, hraw, hall⟩ := ih hr'
    refine ⟨raw, hraw, ?_⟩
    rw [List.all_cons, survives_unescape hc, Bool.true_and, hall]
  | case5 ch chars hquote hlast hescape ih =>
    obtain ⟨r', hr', rfl⟩ := Option.map_eq_some_iff.mp h
    obtain ⟨raw, hraw, hall⟩ := ih hr'
    refine ⟨ch :: raw, ?_, ?_⟩
    · rw [literalChars, hraw]
      · rfl
      all_goals grind
    · rw [List.all_cons, List.all_cons, hall]

theorem not_continuesName {c : Char} (hascii : c.toNat < 128)
    (h : (c.isAlphanum || c == '-' || c == '_') = false) : tables.continuesName c = false := by
  rw [UnicodeTables.continuesName, tables.ascii c hascii, h]

theorem lexeme_literalChars {token : Option TokenType} (h : lexeme tables chars = some (token, rest)) :
    ∃ raw, literalChars false chars = raw ++ literalChars false rest ∧
      token.toList.all (readsBack tables) = raw.all (survives tables) := by
  have hname : tables.continuesName '"' = false := not_continuesName (by decide) (by decide)
  cases chars with
  | nil => cases h
  | cons c chars =>
    simp only [lexeme] at h
    split at h <;> try (cases h <;> exact ⟨[], rfl, rfl⟩)
    · obtain ⟨r, hr, hpair⟩ := map_eq_some_iff.mp h
      obtain ⟨raw, hraw, hall⟩ := readString_literalChars tables hr
      cases hpair
      refine ⟨raw, hraw, ?_⟩
      simpa [readsBack] using hall
    · split at h
      · cases h
        exact ⟨[], (literalChars_dropWhile hname chars).symm, rfl⟩
      · cases h
        exact ⟨[], rfl, rfl⟩
    · next hquote _ =>
      refine ⟨[], ?_, ?_⟩
      · rw [literalChars_cons hquote, nil_append]
        split at h
        · obtain ⟨n, hn, hpair⟩ := map_eq_some_iff.mp h
          cases hpair
          exact (literalChars_dropWhile (by decide) chars).symm
        · split at h
          · cases h
            exact (literalChars_dropWhile hname chars).symm
          · cases h
      · split at h
        · obtain ⟨n, hn, hpair⟩ := map_eq_some_iff.mp h
          cases hpair
          rfl
        · split at h
          · cases h
            rfl
          · cases h

theorem kinds_literalChars (h : kinds tables chars = some us) :
    us.all (readsBack tables) = (literalChars false chars).all (survives tables) := by
  refine kinds_induction
    (P := fun chars us => us.all (readsBack tables) = (literalChars false chars).all (survives tables)) rfl ?_ h
  intro chars token rest us hlexeme ih
  obtain ⟨raw, hraw, hall⟩ := lexeme_literalChars hlexeme
  rw [all_append, hraw, all_append, hall, ih]

/-! ## Texts that are scanned apart from what follows -/

/-- Nothing that would continue a name or a number. -/
def Breaks (tables : UnicodeTables) (rest : Text) : Prop := ∀ c ∈ rest.head?, tables.continuesName c = false

def readBack (tables : UnicodeTables) (us : List TokenType) : Option (List TokenType) :=
  if us.all (readsBack tables) then some us else none

/-- The text is scanned as the tokens, in front of anything that may follow. -/
def Scans (tables : UnicodeTables) (follow : Text → Prop) (t : Text) (us : List TokenType) : Prop :=
  ∀ rest, follow rest →
    kinds tables (t ++ rest) = (readBack tables us).bind fun us => (kinds tables rest).map fun vs => us ++ vs

def Anything (_ : Text) : Prop := True

theorem Scans.nil (tables : UnicodeTables) : Scans tables Anything [] [] := by
  intro rest _
  change kinds tables rest = (some []).bind _
  cases kinds tables rest <;> rfl

variable {follow follow' : Text → Prop} {us' : List TokenType}

theorem Scans.append {t t' : Text} (h : Scans tables follow t us) (h' : Scans tables follow' t' us')
    (hfollow : ∀ rest, follow' rest → follow (t' ++ rest)) : Scans tables follow' (t ++ t') (us ++ us') := by
  intro rest hrest
  rw [append_assoc, h _ (hfollow rest hrest), h' rest hrest]
  simp only [readBack, all_append]
  cases us.all (readsBack tables) with
  | false => rfl
  | true =>
    cases us'.all (readsBack tables) with
    | false => rfl
    | true =>
      cases kinds tables rest with
      | none => rfl
      | some vs => exact congrArg some (append_assoc us us' vs).symm

theorem Scans.mono {t : Text} (h : Scans tables follow t us)
    (hfollow : ∀ rest, follow' rest → follow rest) : Scans tables follow' t us :=
  fun rest hrest => h rest (hfollow rest hrest)

theorem scans_of_lexeme {t : Text} (token : Option TokenType) (hne : t ≠ [])
    (h : ∀ rest, follow rest → lexeme tables (t ++ rest) = some (token, rest))
    (hback : ∀ u ∈ token, readsBack tables u = true) : Scans tables follow t token.toList := by
  intro rest hrest
  obtain ⟨c, t, rfl⟩ := exists_cons_of_ne_nil hne
  have hall : readBack tables token.toList = some token.toList := by
    rw [readBack, if_pos]
    cases token with
    | none => rfl
    | some u => simp [hback u rfl]
  rw [cons_append, kinds_cons, ← cons_append, h rest hrest, hall]
  rfl

end Dalaran.Selector
