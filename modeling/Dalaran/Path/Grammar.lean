import Dalaran.Base.Collect
import Dalaran.Path.RoundTrip

/-
  The grammar of data paths, and what the strict parser makes of it.

  The grammar says of a text which path, instance and component it spells out
  (`DataPathText`): parts between slashes, `[#` and a number and `]`, a colon and
  a name. Numbers are what the integer parsers of the standard library take.

  The parser agrees with it (`fromStr_iff_dataPathText`), except that
    * a component that ends in a colon is refused on purpose (`TrailingColon`),
    * the token behind the bracket is not looked at, so a `/`, `[` or `]` may
      stand for the `#` (`SpareSeparator`), and
    * a separator behind an escaped backslash is taken for escaped
      (`Tokens.ReadsEscapes`).
-/

namespace Dalaran

open List Option Tokens EntityPath
open Collect (map_eq_ok)

/-! ## The grammar -/

/-- What stands for a character of a part. -/
inductive CharText (cls : CharClass) : Text → Char → Prop
  | asIs {c : Char} : cls.printsAsIs c = true → CharText cls [c] c
  | newline : CharText cls ['\\', 'n'] '\n'
  | carriageReturn : CharText cls ['\\', 'r'] '\r'
  | tab : CharText cls ['\\', 't'] '\t'
  | punctuation {c : Char} : (isAsciiPunctuation c || c == ' ') = true → CharText cls ['\\', c] c
  | unicode {digits : Text} {n : Nat} {c : Char} : digits.length = 4 → fromStrRadix 32 16 digits = some n →
      charFromU32 n = some c → CharText cls ('\\' :: 'u' :: '{' :: (digits ++ ['}'])) c

inductive PartText (cls : CharClass) : Text → Text → Prop
  | nil : PartText cls [] []
  | cons {s t chars : Text} {c : Char} : CharText cls s c → PartText cls t chars →
      PartText cls (s ++ t) (c :: chars)

/-- Parts with a slash between them. -/
inductive PartsText (cls : CharClass) : Text → List String → Prop
  | last {t chars : Text} : PartText cls t chars → t ≠ [] → PartsText cls t [String.ofList chars]
  | cons {t chars rest : Text} {parts : List String} : PartText cls t chars → t ≠ [] →
      PartsText cls rest parts → PartsText cls (t ++ '/' :: rest) (String.ofList chars :: parts)

/-- The root, or parts with or without a slash in front. -/
inductive PathText (cls : CharClass) : Text → List String → Prop
  | root : PathText cls ['/'] []
  | relative {t : Text} {parts : List String} : PartsText cls t parts → PathText cls t parts
  | absolute {t : Text} {parts : List String} : PartsText cls t parts → PathText cls ('/' :: t) parts

inductive InstanceText : Text → Option Instance → Prop
  | none : InstanceText [] none
  | some {digits : Text} {n : Nat} : fromStrRadix 64 10 digits = some n →
      InstanceText ('[' :: '#' :: (digits ++ [']'])) (some n)

inductive ComponentText : Text → Option ComponentIdentifier → Prop
  | none : ComponentText [] none
  | some {field : Text} : field ≠ [] → ComponentText (':' :: field) (some ⟨String.ofList field⟩)

/-- A path, an instance and a component, one behind the other. -/
def DataPathText (cls : CharClass) (s : Text) (dataPath : DataPath) : Prop :=
  ∃ path instanceText component, s = path ++ (instanceText ++ component) ∧
    PathText cls path dataPath.entityPath.parts ∧ InstanceText instanceText dataPath.instanceIndex ∧
    ComponentText component dataPath.component

/-- The component ends in a colon that is not escaped. -/
def TrailingColon (dataPath : DataPath) : Prop :=
  ∃ component ∈ dataPath.component, ∃ a, component.name.toList = a ++ [':'] ∧ Tokens.escapes '\\' false a = false

/-- In front of any component the text has `/`, `[` or `]` between a bracket and a number, where `#`
belongs. -/
def SpareSeparator (s : Text) : Prop :=
  ∃ a c digits b, s = a ++ '[' :: c :: (digits ++ ']' :: b) ∧ c ∈ ['/', '[', ']'] ∧
    (fromStrRadix 64 10 digits).isSome = true ∧
    Tokens.Plain '\\' EntityPath.marks.contains false a ∧ Tokens.follows '\\' false a = false

/-! ## Numbers -/

variable {c : Char}

theorem toDigit_range {radix digit : Nat} (h : toDigit radix c = some digit) :
    ('0' ≤ c ∧ c ≤ '9') ∨ ('a' ≤ c ∧ c ≤ 'z') ∨ ('A' ≤ c ∧ c ≤ 'Z') := by
  by_contra hnot
  rw [not_or, not_or] at hnot
  obtain ⟨hdigit, hlower, hupper⟩ := hnot
  simp [toDigit, if_neg hdigit, if_neg hlower, if_neg hupper] at h

theorem char_toNat_le {a b : Char} (h : a ≤ b) : a.toNat ≤ b.toNat := h

theorem toDigit_alphanum {radix digit : Nat} (h : toDigit radix c = some digit) :
    c.toNat < 128 ∧ c.isAlphanum = true := by
  have hrange := toDigit_range h
  have hlt : c.toNat < 128 := by
    rcases hrange with ⟨-, h⟩ | ⟨-, h⟩ | ⟨-, h⟩
    all_goals exact Nat.lt_of_le_of_lt (char_toNat_le h) (by decide)
  have hall : ∀ n < 128, (('0' ≤ Char.ofNat n ∧ Char.ofNat n ≤ '9') ∨ ('a' ≤ Char.ofNat n ∧ Char.ofNat n ≤ 'z') ∨
      ('A' ≤ Char.ofNat n ∧ Char.ofNat n ≤ 'Z')) → (Char.ofNat n).isAlphanum = true := by decide
  have hc := hall c.toNat hlt
  rw [Char.ofNat_toNat] at hc
  exact ⟨hlt, hc hrange⟩

variable {t : Text}

theorem readDigits_mem {radix acc n : Nat} (h : readDigits radix acc t = some n)
    (hc : c ∈ t) : ∃ digit, toDigit radix c = some digit := by
  induction t generalizing acc with
  | nil => cases hc
  | cons d t ih =>
    obtain ⟨digit, hdigit, hrest⟩ := bind_eq_some_iff.mp h
    rcases mem_cons.mp hc with rfl | hc
    · exact ⟨digit, hdigit⟩
    · exact ih hrest hc

def numberChar (c : Char) : Bool := c == '+' || (decide (c.toNat < 128) && c.isAlphanum)

theorem fromStrRadix_mem {bits radix n : Nat} (h : fromStrRadix bits radix t = some n) :
    t ≠ [] ∧ ∀ c ∈ t, numberChar c = true := by
  have hdigits : ∀ {digits : Text}, readDigits radix 0 digits = some n → ∀ c ∈ digits, numberChar c = true := by
    intro digits hread c hc
    obtain ⟨digit, hdigit⟩ := readDigits_mem hread hc
    obtain ⟨hlt, halnum⟩ := toDigit_alphanum hdigit
    simp [numberChar, hlt, halnum]
  rw [fromStrRadix] at h
  split_ifs at h with hsign hnil hnil
  · have hread := (filter_eq_some_iff.mp h).1
    cases t with
    | nil => cases hsign
    | cons c t =>
      rw [head?_cons, Option.some.injEq] at hsign
      refine ⟨cons_ne_nil c t, fun d hd => ?_⟩
      rcases mem_cons.mp hd with rfl | hd
      · simp [numberChar, hsign]
      · exact hdigits hread d hd
  · exact ⟨hnil, hdigits (filter_eq_some_iff.mp h).1⟩

theorem numberChar_facts (h : numberChar c = true) :
    c ≠ '}' ∧ c ≠ '\\' ∧ dataPathSeparators.contains c = false ∧ c.utf8Size = 1 := by
  have hall : ∀ n < 128, numberChar (Char.ofNat n) = true → Char.ofNat n ≠ '}' ∧ Char.ofNat n ≠ '\\' ∧
      dataPathSeparators.contains (Char.ofNat n) = false ∧ (Char.ofNat n).utf8Size = 1 := by
    decide
  have hlt : c.toNat < 128 := by
    rw [numberChar, Bool.or_eq_true, beq_iff_eq, Bool.and_eq_true] at h
    rcases h with rfl | h
    · decide
    · exact of_decide_eq_true h.1
  have hc := hall c.toNat hlt
  rw [Char.ofNat_toNat] at hc
  exact hc h

/-! ## Parts -/

namespace EntityPathPart

variable {cls : CharClass}

theorem unescapeStrict_charText {s : Text} (h : CharText cls s c) (t : Text) :
    unescapeStrict cls (s ++ t) = push [c] (unescapeStrict cls t) := by
  cases h with
  | asIs hc => exact unescapeStrict_asIs cls hc t
  | newline => simp [unescapeStrict]
  | carriageReturn => simp [unescapeStrict]
  | tab => simp [unescapeStrict]
  | punctuation hc => exact (unescape_punctuation cls hc t).1
  | unicode hlength hn hc =>
    have hdigits := fun d hd => numberChar_facts ((fromStrRadix_mem hn).2 d hd)
    have hparse := parseUnicodeEscape_braces (fun d hd => ⟨(hdigits d hd).1, (hdigits d hd).2.2.2⟩) hlength hn hc t
    simp [unescapeStrict, hparse]

variable {chars : Text}

theorem push_ok {rest : Except PathParseError Text} (h : push [c] rest = .ok chars) :
    ∃ chars', rest = .ok chars' ∧ chars = c :: chars' := by
  cases rest with
  | error e => cases h
  | ok chars' => exact ⟨chars', rfl, (Except.ok.inj h).symm⟩

theorem takeEscape_append_eq (size : Nat) (input : Text) :
    (takeEscape size input).1 ++ (takeEscape size input).2 = input := by
  induction input generalizing size with
  | nil => rfl
  | cons c input ih =>
    rw [takeEscape]
    split
    · rfl
    · exact congrArg (c :: ·) (ih _)

theorem parseUnicodeEscape_ok {input : Text} (h : (parseUnicodeEscape input).1 = .ok c) :
    ∃ digits n, input = '{' :: (digits ++ '}' :: (parseUnicodeEscape input).2) ∧ digits.length = 4 ∧
      fromStrRadix 32 16 digits = some n ∧ charFromU32 n = some c := by
  have hsplit := takeEscape_append_eq 0 input
  simp only [parseUnicodeEscape] at h ⊢
  generalize takeEscape 0 input = r at hsplit h ⊢
  obtain ⟨allChars, rest⟩ := r
  have hread : readUnicodeEscape allChars = some c := by
    cases hread : readUnicodeEscape allChars with
    | none => simp [hread] at h
    | some d => simpa [hread] using h
  rw [readUnicodeEscape.eq_def] at hread
  split at hread
  · next chars =>
    split_ifs at hread with hbrace hlen
    obtain ⟨n, hn, hc⟩ := bind_eq_some_iff.mp hread
    have hdigits := fun d hd => numberChar_facts ((fromStrRadix_mem hn).2 d hd)
    refine ⟨chars.dropLast, n, ?_, ?_, hn, hc⟩
    · rw [← hsplit, cons_append, ← dropLast_append_getLast? '}' hbrace]
      simp
    · rwa [utf8Len_of_single fun d hd => (hdigits d hd).2.2.2] at hlen
  · cases hread

theorem unescapeStrict_ok (h : unescapeStrict cls t = .ok chars) : PartText cls t chars := by
  fun_induction unescapeStrict cls t generalizing chars with
  | case1 =>
    cases h
    exact .nil
  | case2 => cases h
  | case3 t ih =>
    obtain ⟨chars', hrest, rfl⟩ := push_ok h
    exact .cons .newline (ih hrest)
  | case4 t _ ih =>
    obtain ⟨chars', hrest, rfl⟩ := push_ok h
    exact .cons .carriageReturn (ih hrest)
  | case5 t _ _ ih =>
    obtain ⟨chars', hrest, rfl⟩ := push_ok h
    exact .cons .tab (ih hrest)
  | case6 t c hparse _ _ _ ih =>
    obtain ⟨chars', hrest, rfl⟩ := push_ok h
    obtain ⟨digits, n, htext, hlength, hn, hc⟩ := parseUnicodeEscape_ok hparse
    have hcons := PartText.cons (.unicode hlength hn hc) (ih hrest)
    rw [htext]
    simpa using hcons
  | case7 => cases h
  | case8 e t _ _ _ _ hpunctuation ih =>
    obtain ⟨chars', hrest, rfl⟩ := push_ok h
    exact .cons (.punctuation hpunctuation) (ih hrest)
  | case9 => cases h
  | case10 c t _ hasIs ih =>
    obtain ⟨chars', hrest, rfl⟩ := push_ok h
    exact .cons (.asIs hasIs) (ih hrest)
  | case11 => cases h

theorem unescapeStrict_ok_iff : unescapeStrict cls t = .ok chars ↔ PartText cls t chars := by
  refine ⟨unescapeStrict_ok, fun h => ?_⟩
  induction h with
  | nil => rw [unescapeStrict]
  | cons hchar _ ih =>
    rw [unescapeStrict_charText hchar, ih]
    rfl

/-! ## Parts and separators -/

theorem charText_plain {special : Char → Bool}
    (hspecial : ∀ c, special c = true → dataPathSeparators.contains c = true) {s : Text} (h : CharText cls s c)
    (b : Bool) : Tokens.Plain '\\' special b s := by
  have hbackslash : special '\\' = false := not_special hspecial (by decide)
  cases h with
  | asIs hc =>
    refine ⟨.inr (not_special hspecial ?_), trivial⟩
    refine Bool.eq_false_iff.mpr fun hseparator => ?_
    rw [printsAsIs_separator cls hseparator] at hc
    cases hc
  | unicode hlength hn hc =>
    refine ⟨.inr hbackslash, .inl (by decide), plain_of_ordinary hspecial (fun d hd => ?_) _⟩
    rcases mem_cons.mp hd with rfl | hd
    · decide
    · rcases mem_append.mp hd with hd | hd
      · exact (numberChar_facts ((fromStrRadix_mem hn).2 d hd)).2.2.1
      · rw [mem_singleton.mp hd]
        decide
  | _ => exact ⟨.inr hbackslash, .inl (by decide), trivial⟩

theorem escapes_of_ordinary (h : ∀ c ∈ t, c ≠ '\\') : Tokens.escapes '\\' false t = false := by
  induction t with
  | nil => rfl
  | cons c t ih =>
    have hc : (!false && c == '\\') = false := by simpa using h c mem_cons_self
    rw [escapes_cons, hc]
    exact ih fun d hd => h d (mem_cons_of_mem _ hd)

theorem charText_escapes {s : Text} (h : CharText cls s c) : Tokens.escapes '\\' false s = false := by
  cases h with
  | asIs hc =>
    apply escapes_of_ordinary
    intro d hd
    rw [mem_singleton.mp hd]
    exact cls.printsAsIs_ne_backslash hc
  | unicode hlength hn hc =>
    rw [escapes_cons, escapes_cons]
    apply escapes_of_ordinary
    intro d hd
    rcases mem_cons.mp hd with rfl | hd
    · decide
    · rcases mem_append.mp hd with hd | hd
      · exact (numberChar_facts ((fromStrRadix_mem hn).2 d hd)).2.1
      · rw [mem_singleton.mp hd]
        decide
  | punctuation hc => simp
  | _ => decide

theorem partText_plain {special : Char → Bool}
    (hspecial : ∀ c, special c = true → dataPathSeparators.contains c = true) (h : PartText cls t chars)
    (b : Bool) : Tokens.Plain '\\' special b t := by
  induction h generalizing b with
  | nil => trivial
  | cons hchar _ ih => exact (charText_plain hspecial hchar b).append (ih _)

theorem partText_escapes (h : PartText cls t chars) : Tokens.escapes '\\' false t = false := by
  induction h with
  | nil => rfl
  | cons hchar _ ih => rw [escapes_append, charText_escapes hchar, ih]

end EntityPathPart

/-! ## Paths -/

open EntityPathPart

variable {cls : CharClass}

theorem parseStrict_ok {part : String} (h : EntityPathPart.parseStrict cls t = .ok part) :
    ∃ chars, PartText cls t chars ∧ part = String.ofList chars := by
  obtain ⟨chars, hread, rfl⟩ := map_eq_ok.mp h
  exact ⟨chars, unescapeStrict_ok hread, rfl⟩

variable {parts : List String} {tokens : List Text}

theorem partsLoop_ok (h : partsLoop cls tokens = .ok parts)
    (hne : ∀ token ∈ tokens, token ≠ []) : PartsText cls tokens.flatten parts := by
  fun_induction partsLoop cls tokens generalizing parts with
  | case1 => cases h
  | case2 => cases h
  | case3 => cases h
  | case4 token _ part hpart =>
    obtain ⟨chars, htext, rfl⟩ := parseStrict_ok hpart
    cases h
    simpa using PartsText.last htext (hne token mem_cons_self)
  | case5 token _ part hpart tokens ih =>
    obtain ⟨chars, htext, rfl⟩ := parseStrict_ok hpart
    obtain ⟨rest, hrest, rfl⟩ := map_eq_ok.mp h
    have hparts := ih hrest fun token htoken => hne token (by simp [htoken])
    exact .cons htext (hne token mem_cons_self) hparts
  | case6 => cases h

theorem entityPathParts_ok (h : entityPathPartsFromTokensStrict cls tokens = .ok parts)
    (hne : ∀ token ∈ tokens, token ≠ []) :
    PathText cls tokens.flatten parts := by
  rw [entityPathPartsFromTokensStrict] at h
  split_ifs at h with hnil hroot hslash
  · cases h
    rw [hroot]
    exact .root
  · cases tokens with
    | nil => exact absurd rfl hnil
    | cons token tokens =>
      rw [head?_cons, Option.some.injEq] at hslash
      subst hslash
      exact .absolute (partsLoop_ok h fun token htoken => hne token (mem_cons_of_mem _ htoken))
  · exact .relative (partsLoop_ok h hne)

theorem partsLoop_partsText (h : PartsText cls t parts)
    (hreads : Tokens.ReadsEscapes '\\' dataPathSeparators.contains t) :
    partsLoop cls (tokenizeDataPath t) = .ok parts := by
  have hpart : ∀ {t chars : Text}, PartText cls t chars → t ≠ [] →
      t ≠ ['/'] ∧ EntityPathPart.parseStrict cls t = .ok (String.ofList chars) := by
    intro t chars htext hne
    have hplain : Plain '\\' dataPathSeparators.contains false t :=
      partText_plain (fun _ hc => hc) htext false
    refine ⟨?_, ?_⟩
    · rintro rfl
      exact absurd hplain.1 (by decide)
    · rw [EntityPathPart.parseStrict, unescapeStrict_ok_iff.mpr htext]
      rfl
  induction h with
  | last htext hne =>
    obtain ⟨hslash, hparse⟩ := hpart htext hne
    rw [tokenizeDataPath, tokenizeBy,
      tokenize_of_plain (partText_plain (fun _ hc => hc) htext false) hne, partsLoop, if_neg hslash, hparse]
  | @cons t chars rest parts htext hne _ ih =>
    obtain ⟨hslash, hparse⟩ := hpart htext hne
    have hfollows : follows '\\' false t = false := by
      rw [hreads t '/' rest rfl (by decide)]
      exact partText_escapes htext
    have hreadsRest : ReadsEscapes '\\' dataPathSeparators.contains rest := by
      refine @Tokens.ReadsEscapes.piece _ _ _ _ (t ++ ['/']) rest [] (by simpa using hreads) ?_ ?_
      · rw [follows_append, hfollows]
        rfl
      · rw [escapes_append, partText_escapes htext]
        rfl
    rw [tokenizeDataPath, tokenizeBy,
      tokenize_plain_append (partText_plain (fun _ hc => hc) htext false) hne (by decide) hfollows,
      tokenize_special (by decide), partsLoop, if_neg hslash, hparse]
    simp only [if_true]
    have hrest := ih hreadsRest
    rw [tokenizeDataPath, tokenizeBy] at hrest
    rw [hrest]
    rfl

theorem partsText_plain (h : PartsText cls t parts) (b : Bool) :
    Tokens.Plain '\\' EntityPath.marks.contains b t := by
  induction h generalizing b with
  | last htext _ => exact partText_plain (fun _ => marks_separators) htext b
  | cons htext _ _ ih =>
    exact (partText_plain (fun _ => marks_separators) htext b).append ⟨.inr (by decide), ih _⟩

theorem partsText_escapes (h : PartsText cls t parts) : Tokens.escapes '\\' false t = false := by
  induction h with
  | last htext _ => exact partText_escapes htext
  | cons htext _ _ ih =>
    rw [escapes_append, partText_escapes htext]
    exact ih

theorem pathText_plain {path : Text} (h : PathText cls path parts) :
    Tokens.Plain '\\' EntityPath.marks.contains false path := by
  cases h with
  | root => exact ⟨.inr (by decide), trivial⟩
  | relative h => exact partsText_plain h false
  | absolute h => exact ⟨.inr (by decide), partsText_plain h _⟩

theorem pathText_escapes {path : Text} (h : PathText cls path parts) : Tokens.escapes '\\' false path = false := by
  cases h with
  | root => rfl
  | relative h => exact partsText_escapes h
  | absolute h =>
    rw [escapes_cons]
    exact partsText_escapes h

theorem entityPathParts_pathText {path : Text} (h : PathText cls path parts)
    (hreads : Tokens.ReadsEscapes '\\' dataPathSeparators.contains path) :
    entityPathPartsFromTokensStrict cls (tokenizeDataPath path) = .ok parts := by
  have hslash : ∀ t, tokenizeDataPath ('/' :: t) = ['/'] :: tokenizeDataPath t :=
    fun t => tokenize_special (by decide)
  cases h with
  | root =>
    have hnil : tokenizeDataPath [] = [] := tokenize_eq_nil_iff.mpr rfl
    rw [hslash, hnil]
    rfl
  | relative h =>
    have hok := partsLoop_partsText h hreads
    have hhead : (tokenizeDataPath path).head? ≠ some ['/'] := by
      intro hhead
      obtain ⟨tokens, htokens⟩ := head?_eq_some_iff.mp hhead
      rw [htokens, partsLoop, if_pos rfl] at hok
      cases hok
    have hnil : tokenizeDataPath path ≠ [] := by
      intro hnil
      rw [hnil] at hok
      cases hok
    have hroot : tokenizeDataPath path ≠ [['/']] := by
      intro hroot
      rw [hroot] at hhead
      exact hhead rfl
    rw [entityPathPartsFromTokensStrict, if_neg hnil, if_neg hroot, if_neg hhead, hok]
  | @absolute t _ h =>
    have hreadsRest : ReadsEscapes '\\' dataPathSeparators.contains t :=
      @Tokens.ReadsEscapes.piece _ _ _ _ ['/'] t [] (by simpa using hreads) rfl rfl
    have hok := partsLoop_partsText h hreadsRest
    have hroot : ['/'] :: tokenizeDataPath t ≠ [['/']] := by
      intro hroot
      rw [(cons.inj hroot).2] at hok
      cases hok
    rw [hslash, entityPathPartsFromTokensStrict, if_neg (cons_ne_nil _ _), if_neg hroot,
      head?_cons, if_pos rfl, tail_cons, hok]

/-! ## Data paths -/

theorem findIdx?_beq_some {α : Type} [BEq α] [LawfulBEq α] {l : List α} {a : α} {i : Nat}
    (h : l.findIdx? (· == a) = some i) : l = l.take i ++ a :: l.drop (i + 1) ∧ a ∉ l.take i := by
  obtain ⟨hi, ha, hbefore⟩ := findIdx?_eq_some_iff_getElem.mp h
  constructor
  · rw [← beq_iff_eq.mp ha, ← drop_eq_getElem_cons hi, take_append_drop]
  · intro hmem
    obtain ⟨j, hj, hja⟩ := mem_take_iff_getElem.mp hmem
    have hlt : j < i := Nat.lt_of_lt_of_le hj (Nat.min_le_left _ _)
    exact hbefore j hlt (beq_iff_eq.mpr hja)

theorem findIdx?_beq_append {α : Type} [BEq α] [LawfulBEq α] {s t : List α} {a : α} (h : a ∉ s) :
    (s ++ a :: t).findIdx? (· == a) = some s.length := by
  induction s with
  | nil => rw [nil_append, findIdx?_cons, beq_self_eq_true, if_pos rfl, length_nil]
  | cons b s ih =>
    have hb : (b == a) = false := beq_eq_false_iff_ne.mpr fun heq => h (heq ▸ mem_cons_self)
    rw [cons_append, findIdx?_cons, hb, ih fun hmem => h (mem_cons_of_mem b hmem)]
    rfl

theorem findIdx?_beq_none {α : Type} [BEq α] [LawfulBEq α] {l : List α} {a : α} :
    l.findIdx? (· == a) = none ↔ a ∉ l := by
  rw [findIdx?_eq_none_iff]
  constructor
  · intro h hmem
    simpa using h a hmem
  · intro h b hb
    exact beq_eq_false_iff_ne.mpr fun heq => h (heq ▸ hb)

namespace DataPath

variable {front : List Text}

theorem takeComponent_ok_iff {component : Option ComponentIdentifier} :
    takeComponent tokens = .ok (component, front) ↔ (component = none ∧ front = tokens ∧ [':'] ∉ tokens) ∨
      ∃ field, tokens = front ++ [':'] :: field ∧ [':'] ∉ front ∧ field.getLast? ≠ some [':'] ∧
        field.flatten ≠ [] ∧ component = some ⟨String.ofList field.flatten⟩ := by
  constructor
  · intro h
    rw [takeComponent] at h
    split at h
    · next hnone =>
      cases h
      exact .inl ⟨rfl, rfl, findIdx?_beq_none.mp hnone⟩
    · next firstColon hsome =>
      obtain ⟨hsplit, hfront⟩ := findIdx?_beq_some hsome
      simp only at h
      split_ifs at h with htrailing
      rw [not_or] at htrailing
      rw [ComponentIdentifier.tryNew] at h
      split_ifs at h with hempty
      · cases h
      · obtain ⟨rfl, rfl⟩ := Prod.mk.inj (Except.ok.inj h)
        exact .inr ⟨_, hsplit, hfront, htrailing.2, hempty, rfl⟩
  · intro h
    rcases h with ⟨rfl, rfl, hnone⟩ | ⟨field, rfl, hfront, hlast, hne, rfl⟩
    · rw [takeComponent, findIdx?_beq_none.mpr hnone]
    · have hfield : field ≠ [] := by
        rintro rfl
        exact hne rfl
      have hdrop : (front ++ [':'] :: field).drop (front.length + 1) = field := by simp
      have htake : (front ++ [':'] :: field).take front.length = front := by simp
      rw [takeComponent, findIdx?_beq_append hfront]
      simp only [hdrop, htake]
      rw [if_neg (not_or.mpr ⟨hfield, hlast⟩), ComponentIdentifier.tryNew, if_neg hne]
      rfl

theorem takeInstance_ok_iff {instanceIndex : Option Instance} :
    takeInstance tokens = .ok (instanceIndex, front) ↔ (instanceIndex = none ∧ front = tokens ∧ ['['] ∉ tokens) ∨
      ∃ mark digits n, tokens = front ++ [['['], mark, digits, [']']] ∧ ['['] ∉ front ∧
        fromStrRadix 64 10 digits = some n ∧ instanceIndex = some n := by
  constructor
  · intro h
    rw [takeInstance] at h
    split at h
    · next hnone =>
      cases h
      exact .inl ⟨rfl, rfl, findIdx?_beq_none.mp hnone⟩
    · next bracket hsome =>
      obtain ⟨hsplit, hfront⟩ := findIdx?_beq_some hsome
      have hdrop : tokens.drop bracket = ['['] :: tokens.drop (bracket + 1) := by
        obtain ⟨hlt, hget, -⟩ := findIdx?_eq_some_iff_getElem.mp hsome
        rw [drop_eq_getElem_cons hlt, beq_iff_eq.mp hget]
      simp only [hdrop] at h
      split_ifs at h with hshape
      rw [not_or, not_not, not_not] at hshape
      obtain ⟨hlength, hlast⟩ := hshape
      generalize hrest : tokens.drop (bracket + 1) = rest at h hlength hlast hsplit
      obtain ⟨mark, digits, close, rfl⟩ := length_eq_three.mp (Nat.succ.inj hlength)
      have hclose : close = [']'] := by simpa using hlast
      subst hclose
      split at h
      · next n hn =>
        obtain ⟨rfl, rfl⟩ := Prod.mk.inj (Except.ok.inj h)
        exact .inr ⟨mark, digits, n, hsplit, hfront, hn, rfl⟩
      · cases h
  · intro h
    rcases h with ⟨rfl, rfl, hnone⟩ | ⟨mark, digits, n, rfl, hfront, hn, rfl⟩
    · rw [takeInstance, findIdx?_beq_none.mpr hnone]
    · have hdrop : (front ++ [['['], mark, digits, [']']]).drop front.length = [['['], mark, digits, [']']] := by
        simp
      have htake : (front ++ [['['], mark, digits, [']']]).take front.length = front := by simp
      rw [takeInstance, findIdx?_beq_append hfront]
      simp only [hdrop, htake]
      simp [hn]

variable {s : Text} {dataPath : DataPath}

theorem fromStr_ok_iff :
    fromStr cls s = .ok dataPath ↔ s ≠ [] ∧ ∃ tokens front,
      takeComponent (tokenizeDataPath s) = .ok (dataPath.component, tokens) ∧
      takeInstance tokens = .ok (dataPath.instanceIndex, front) ∧
      entityPathPartsFromTokensStrict cls front = .ok dataPath.entityPath.parts := by
  obtain ⟨⟨parts⟩, instanceIndex, component⟩ := dataPath
  constructor
  · intro h
    rw [fromStr] at h
    split_ifs at h with hnil
    split at h
    · cases h
    · next component' tokens hcomponent =>
      split at h
      · cases h
      · next instanceIndex' front hinstance =>
        cases hparts : entityPathPartsFromTokensStrict cls front with
        | error e =>
          rw [hparts] at h
          cases h
        | ok parts' =>
          rw [hparts] at h
          cases h
          exact ⟨hnil, tokens, front, hcomponent, hinstance, hparts⟩
  · intro h
    obtain ⟨hnil, tokens, front, hcomponent, hinstance, hparts⟩ := h
    rw [fromStr, if_neg hnil, hcomponent]
    simp only [hinstance, hparts]
    rfl

/-! ## What is accepted is of the grammar -/

theorem separator_not_escape : dataPathSeparators.contains '\\' = false := by decide

variable {token : Text}

theorem tokenize_ne_nil (h : token ∈ tokenizeDataPath s) : token ≠ [] := by
  rcases mem_tokenize h with ⟨c, -, rfl⟩ | ⟨hne, -⟩
  · exact cons_ne_nil c []
  · exact hne

variable {digits mark : Text} {back : List Text}

theorem mark_eq_hash {n : Nat} (h : tokenizeDataPath s = front ++ (['['] :: mark :: digits :: [']'] :: back))
    (hfront : ∀ c, EntityPath.marks.contains c = true → [c] ∉ front) (hmark : mark ≠ [':'])
    (hn : fromStrRadix 64 10 digits = some n) (hspare : ¬ SpareSeparator s) : mark = ['#'] := by
  have hnumber := (fromStrRadix_mem hn).2
  have hadjacent := @Tokens.tokenize_adjacent _ _ '\\' dataPathSeparators.contains separator_not_escape s mark digits
    (front ++ [['[']]) ([']'] :: back) (by simpa [tokenizeDataPath, tokenizeBy] using h)
  rcases hadjacent with ⟨c, hc, rfl⟩ | ⟨c, hc, rfl⟩
  · have hplain := @Tokens.tokenize_front _ _ '\\' dataPathSeparators.contains marks.contains
      (fun _ => marks_separators) separator_not_escape s front _ h hfront
    have htext : s = front.flatten ++ '[' :: c :: (digits ++ ']' :: back.flatten) := by
      have hflatten := @Tokens.flatten_tokenize _ _ '\\' dataPathSeparators.contains s
      rw [show tokenize '\\' dataPathSeparators.contains s = _ from h] at hflatten
      simpa using hflatten.symm
    have hcases : ∀ c ∈ dataPathSeparators, c ∈ ['/', '[', ']'] ∨ c = ':' ∨ c = '#' := by
      simp [dataPathSeparators]
    rcases hcases c (contains_iff_mem.mp hc) with hspareC | rfl | rfl
    · exact absurd ⟨front.flatten, c, digits, back.flatten, htext, hspareC, by simp [hn], hplain.1,
        hplain.2 (cons_ne_nil _ _)⟩ hspare
    · exact absurd rfl hmark
    · rfl
  · have hordinary := (numberChar_facts (hnumber c mem_cons_self)).2.2.1
    rw [hc] at hordinary
    cases hordinary

variable {field : List Text}

theorem not_trailingColon (h : tokenizeDataPath s = front ++ [':'] :: field) (hlast : field.getLast? ≠ some [':'])
    (hreads : Tokens.ReadsEscapes '\\' dataPathSeparators.contains s)
    (hcomponent : dataPath.component = some ⟨String.ofList field.flatten⟩) : ¬ TrailingColon dataPath := by
  intro htrailing
  obtain ⟨component, hmem, a, ha, hescapes⟩ := htrailing
  rw [hcomponent] at hmem
  cases hmem
  rw [String.toList_ofList] at ha
  have hfield : tokenizeDataPath field.flatten = field := by
    refine @Tokens.tokenize_suffix _ _ '\\' dataPathSeparators.contains separator_not_escape s (front ++ [[':']]) field ?_
    simpa [tokenizeDataPath, tokenizeBy] using h
  have htext : s = (front.flatten ++ ':' :: a) ++ ':' :: [] := by
    have hflatten := @Tokens.flatten_tokenize _ _ '\\' dataPathSeparators.contains s
    rw [show tokenize '\\' dataPathSeparators.contains s = _ from h] at hflatten
    rw [← hflatten, flatten_append, flatten_cons, ha]
    simp
  have hfollows : follows '\\' false a = false := by
    have hread := hreads _ ':' [] htext (by decide)
    simpa [hescapes] using hread
  have hsplit := @Tokens.tokenize_append _ _ '\\' dataPathSeparators.contains a ':' [] (by decide) hfollows
  rw [tokenizeDataPath, tokenizeBy, ha, hsplit, tokenize_special (by decide), tokenize] at hfield
  rw [← hfield, getLast?_concat] at hlast
  exact hlast rfl

theorem dataPathText_of_fromStr (hreads : Tokens.ReadsEscapes '\\' dataPathSeparators.contains s)
    (hspare : ¬ SpareSeparator s)
    (h : fromStr cls s = .ok dataPath) : DataPathText cls s dataPath ∧ ¬ TrailingColon dataPath := by
  obtain ⟨-, tokens, front, hcomponent, hinstance, hparts⟩ := fromStr_ok_iff.mp h
  -- The tokens behind the path and those behind the instance.
  obtain ⟨componentTokens, htokens, hcolon, hcomponentText, htrailing⟩ : ∃ componentTokens,
      tokenizeDataPath s = tokens ++ componentTokens ∧ [':'] ∉ tokens ∧
        ComponentText componentTokens.flatten dataPath.component ∧ ¬ TrailingColon dataPath := by
    rcases takeComponent_ok_iff.mp hcomponent with ⟨hnone, rfl, hcolon⟩ | ⟨field, hsplit, hcolon, hlast, hne, hsome⟩
    · refine ⟨[], by simp, hcolon, hnone ▸ .none, ?_⟩
      intro htrailing
      obtain ⟨component, hmem, -⟩ := htrailing
      rw [hnone] at hmem
      cases hmem
    · exact ⟨[':'] :: field, hsplit, hcolon, hsome ▸ .some hne, not_trailingColon hsplit hlast hreads hsome⟩
  obtain ⟨instanceTokens, hfront, hbracket, hinstanceText⟩ : ∃ instanceTokens,
      tokens = front ++ instanceTokens ∧ ['['] ∉ front ∧
        InstanceText instanceTokens.flatten dataPath.instanceIndex := by
    rcases takeInstance_ok_iff.mp hinstance with ⟨hnone, rfl, hbracket⟩ | ⟨mark, digits, n, hsplit, hbracket, hn, hsome⟩
    · exact ⟨[], by simp, hbracket, hnone ▸ .none⟩
    · refine ⟨_, hsplit, hbracket, ?_⟩
      rw [hsplit] at htokens hcolon
      have hmark : mark = ['#'] := by
        refine mark_eq_hash (by simpa using htokens) ?_ ?_ hn hspare
        · intro c hc hmem
          have hall : ∀ c ∈ marks, c = ':' ∨ c = '[' := by simp [marks]
          rcases hall c (contains_iff_mem.mp hc) with rfl | rfl
          · exact hcolon (mem_append_left _ hmem)
          · exact hbracket hmem
        · rintro rfl
          exact hcolon (by simp)
      subst hmark
      rw [hsome]
      simpa using InstanceText.some hn
  refine ⟨⟨front.flatten, instanceTokens.flatten, componentTokens.flatten, ?_, ?_, hinstanceText,
    hcomponentText⟩, htrailing⟩
  · have hflatten := @Tokens.flatten_tokenize _ _ '\\' dataPathSeparators.contains s
    rw [show tokenize '\\' dataPathSeparators.contains s = _ from htokens, hfront] at hflatten
    simpa using hflatten.symm
  · refine entityPathParts_ok hparts fun token htoken => ?_
    apply @tokenize_ne_nil s
    rw [htokens, hfront]
    simp [htoken]

/-! ## What is of the grammar is accepted -/

theorem tokenize_component {x componentText : Text} {component : Option ComponentIdentifier}
    (h : ComponentText componentText component) (hfollows : componentText ≠ [] → Tokens.follows '\\' false x = false) :
    ∃ componentTokens, tokenizeDataPath (x ++ componentText) = tokenizeDataPath x ++ componentTokens ∧
      ((component = none ∧ componentTokens = []) ∨
        ∃ field, field ≠ [] ∧ componentTokens = [':'] :: tokenizeDataPath field ∧ componentText = ':' :: field ∧
          component = some ⟨String.ofList field⟩) := by
  cases h with
  | none => exact ⟨[], by simp, .inl ⟨rfl, rfl⟩⟩
  | @some field hne =>
    refine ⟨[':'] :: tokenizeDataPath field, ?_, .inr ⟨field, hne, rfl, rfl, rfl⟩⟩
    have hsplit := @Tokens.tokenize_append _ _ '\\' dataPathSeparators.contains x ':' field (by decide)
      (hfollows (cons_ne_nil _ _))
    rw [tokenize_special (by decide)] at hsplit
    exact hsplit

theorem tokenize_instance {path instanceText : Text} {instanceIndex : Option Instance}
    (h : InstanceText instanceText instanceIndex)
    (hfollows : instanceText ≠ [] → Tokens.follows '\\' false path = false) :
    ∃ instanceTokens, tokenizeDataPath (path ++ instanceText) = tokenizeDataPath path ++ instanceTokens ∧
      ((instanceIndex = none ∧ instanceTokens = []) ∨
        ∃ digits n, instanceTokens = [['['], ['#'], digits, [']']] ∧ fromStrRadix 64 10 digits = some n ∧
          instanceIndex = some n) := by
  cases h with
  | none => exact ⟨[], by simp, .inl ⟨rfl, rfl⟩⟩
  | @some digits n hn =>
    refine ⟨_, ?_, .inr ⟨digits, n, rfl, hn, rfl⟩⟩
    obtain ⟨hne, hnumber⟩ := fromStrRadix_mem hn
    have hplain : Plain '\\' dataPathSeparators.contains false digits :=
      EntityPathPart.plain_of_ordinary (fun _ hc => hc) (fun c hc => (numberChar_facts (hnumber c hc)).2.2.1) false
    have hdigits : follows '\\' false digits = false := by
      have hlast : (digits.getLast hne == '\\') = false := by
        rw [beq_eq_false_iff_ne]
        exact (numberChar_facts (hnumber _ (getLast_mem hne))).2.1
      rw [← dropLast_concat_getLast hne, follows_append, follows_cons, hlast, follows_nil]
    rw [tokenizeDataPath, tokenizeBy,
      tokenize_append path (by decide) (hfollows (cons_ne_nil _ _)), tokenize_special (by decide),
      tokenize_special (by decide), tokenize_plain_append hplain hne (by decide) hdigits,
      tokenize_special (by decide), tokenize]
    rfl

theorem fromStr_of_dataPathText (hreads : Tokens.ReadsEscapes '\\' dataPathSeparators.contains s)
    (h : DataPathText cls s dataPath) (htrailing : ¬ TrailingColon dataPath) : fromStr cls s = .ok dataPath := by
  obtain ⟨⟨parts⟩, instanceIndex, component⟩ := dataPath
  obtain ⟨path, instanceText, componentText, rfl, hpath, hinstance, hcomponent⟩ := h
  have hreadsPath : ReadsEscapes '\\' dataPathSeparators.contains path :=
    @Tokens.ReadsEscapes.piece _ _ _ _ [] path (instanceText ++ componentText) hreads rfl rfl
  have hpathFollows : ∀ c b, instanceText ++ componentText = c :: b → dataPathSeparators.contains c = true →
      follows '\\' false path = false := by
    intro c b heq hc
    rw [hreads path c b (by rw [heq]) hc, pathText_escapes hpath]
  obtain ⟨instanceTokens, htokensInstance, hinstanceTokens⟩ := @tokenize_instance path _ _ hinstance (by
    intro hne
    cases hinstance with
    | none => exact absurd rfl hne
    | some hn => exact hpathFollows '[' _ rfl (by decide))
  obtain ⟨componentTokens, htokensComponent, hcomponentTokens⟩ :=
    @tokenize_component (path ++ instanceText) _ _ hcomponent (by
      intro hne
      cases hcomponent with
      | none => exact absurd rfl hne
      | @some field hfield =>
        cases hinstance with
        | none =>
          rw [append_nil]
          exact hpathFollows ':' field rfl (by decide)
        | some hn => simp)
  have hmark : ∀ c, marks.contains c = true → [c] ∉ tokenizeDataPath path := by
    intro c hc
    exact @Tokens.not_mem_tokenize _ _ '\\' dataPathSeparators.contains marks.contains
      (fun _ => marks_separators) separator_not_escape path (pathText_plain hpath) c hc
  have hpathTokens : tokenizeDataPath path ≠ [] := by
    intro hnil
    have hparts := entityPathParts_pathText hpath hreadsPath
    rw [hnil] at hparts
    cases hparts
  have htokens : tokenizeDataPath (path ++ (instanceText ++ componentText)) =
      tokenizeDataPath path ++ instanceTokens ++ componentTokens := by
    rw [← append_assoc, htokensComponent, htokensInstance]
  have hcolonInstance : [':'] ∉ instanceTokens := by
    rcases hinstanceTokens with ⟨-, rfl⟩ | ⟨digits, n, rfl, hn, -⟩
    · exact not_mem_nil
    · intro hmem
      have hdigits : digits = [':'] := by simpa [eq_comm] using hmem
      have hcolon := (numberChar_facts ((fromStrRadix_mem hn).2 ':' (by simp [hdigits]))).2.2.1
      exact absurd hcolon (by decide)
  have hcolon : [':'] ∉ tokenizeDataPath path ++ instanceTokens := by
    rw [mem_append, not_or]
    exact ⟨hmark ':' (by decide), hcolonInstance⟩
  refine fromStr_ok_iff.mpr ⟨?_, tokenizeDataPath path ++ instanceTokens, tokenizeDataPath path, ?_, ?_,
    entityPathParts_pathText hpath hreadsPath⟩
  · intro hnil
    rw [hnil, tokenizeDataPath, tokenizeBy, tokenize] at htokens
    have hempty := (append_eq_nil_iff.mp htokens.symm).1
    exact hpathTokens (append_eq_nil_iff.mp hempty).1
  · rw [htokens, takeComponent_ok_iff]
    rcases hcomponentTokens with ⟨hnone, rfl⟩ | ⟨field, hne, rfl, rfl, hsome⟩
    · exact .inl ⟨hnone, by simp, by simpa using hcolon⟩
    · have hflatten : (tokenizeDataPath field).flatten = field := flatten_tokenize field
      refine .inr ⟨tokenizeDataPath field, rfl, hcolon, ?_, by rwa [hflatten], by rw [hflatten]; exact hsome⟩
      intro hlast
      obtain ⟨a, rfl, hfollows⟩ := getLast?_tokenize separator_not_escape hlast
      refine htrailing ⟨_, hsome, a, by simp, ?_⟩
      have hread := hreads (path ++ instanceText ++ ':' :: a) ':' [] (by simp) (by decide)
      simpa [hfollows] using hread.symm
  · rw [takeInstance_ok_iff]
    rcases hinstanceTokens with ⟨hnone, rfl⟩ | ⟨digits, n, rfl, hn, hsome⟩
    · exact .inl ⟨hnone, by simp, by simpa using hmark '[' (by decide)⟩
    · exact .inr ⟨['#'], digits, n, rfl, hmark '[' (by decide), hn, hsome⟩

/-- Where the escapes read right and `#` is not replaced by another separator, the parser takes exactly
the texts of the grammar whose component does not end in a colon, for what they spell out. -/
theorem fromStr_iff_dataPathText (cls : CharClass) (s : Text) (dataPath : DataPath)
    (hreads : Tokens.ReadsEscapes '\\' dataPathSeparators.contains s) (hspare : ¬ SpareSeparator s) :
    fromStr cls s = .ok dataPath ↔ DataPathText cls s dataPath ∧ ¬ TrailingColon dataPath :=
  ⟨dataPathText_of_fromStr hreads hspare, fun h => fromStr_of_dataPathText hreads h.1 h.2⟩


theorem readsEscapes_of_ordinary {special : Char → Bool} (h : ∀ c ∈ s, c ≠ '\\') :
    Tokens.ReadsEscapes '\\' special s := by
  intro a c b heq _
  have ha : ∀ d ∈ a, d ≠ '\\' := by
    intro d hd
    rw [heq] at h
    exact h d (mem_append_left _ hd)
  rw [EntityPathPart.escapes_of_ordinary ha]
  clear heq h
  induction a with
  | nil => rfl
  | cons d a ih =>
    have hd : (d == '\\') = false := beq_eq_false_iff_ne.mpr (ha d mem_cons_self)
    rw [follows_cons, hd]
    exact ih fun e he => ha e (mem_cons_of_mem _ he)

theorem fromStr_iff_dataPathText_points :
    Tokens.ReadsEscapes '\\' dataPathSeparators.contains ['p', '[', '#', '4', ']', ':', 'C'] ∧
      ¬ SpareSeparator ['p', '[', '#', '4', ']', ':', 'C'] ∧
      (fromStr .asciiOnly ['p', '[', '#', '4', ']', ':', 'C'] = .ok ⟨⟨["p"]⟩, some 4, some ⟨"C"⟩⟩ ↔
        DataPathText .asciiOnly ['p', '[', '#', '4', ']', ':', 'C'] ⟨⟨["p"]⟩, some 4, some ⟨"C"⟩⟩ ∧
          ¬ TrailingColon ⟨⟨["p"]⟩, some 4, some ⟨"C"⟩⟩) := by
  have hreads : ReadsEscapes '\\' dataPathSeparators.contains ['p', '[', '#', '4', ']', ':', 'C'] :=
    readsEscapes_of_ordinary (by simp)
  have hspare : ¬ SpareSeparator ['p', '[', '#', '4', ']', ':', 'C'] := by
    intro hspare
    obtain ⟨a, c, digits, b, heq, hc, -⟩ := hspare
    match a with
    | [] => simp at heq
    | [x] =>
      simp only [cons_append, nil_append, cons.injEq, true_and] at heq
      rw [← heq.2.1] at hc
      exact absurd hc (by decide)
    | x :: y :: a =>
      simp only [cons_append, cons.injEq] at heq
      have hbracket : '[' ∈ ['#', '4', ']', ':', 'C'] := by
        rw [heq.2.2]
        simp
      exact absurd hbracket (by decide)
  exact ⟨hreads, hspare, fromStr_iff_dataPathText .asciiOnly _ _ hreads hspare⟩

/-- A component that ends in a colon is refused, though it is a name like any other. -/
theorem fromStr_trailing_colon :
    fromStr .asciiOnly ['a', ':', 'b', ':'] = .error .trailingColon ∧
      DataPathText .asciiOnly ['a', ':', 'b', ':'] ⟨⟨["a"]⟩, none, some ⟨"b:"⟩⟩ := by
  constructor
  · have htokens : tokenizeDataPath ['a', ':', 'b', ':'] = [['a'], [':'], ['b'], [':']] := by
      simp [tokenizeDataPath, tokenizeBy, tokenize, Tokens.scan, dataPathSeparators]
    rw [fromStr, htokens]
    rfl
  · exact ⟨['a'], [], [':', 'b', ':'], rfl, .relative (.last (.cons (.asIs rfl) .nil) (cons_ne_nil _ _)),
      .none, .some (cons_ne_nil _ _)⟩

end DataPath

end Dalaran
