import Dalaran.Path.ParsePath
import Dalaran.Path.Unescape

/-
  Printing an entity path and parsing the text.

  The printer puts a backslash in front of every separator inside a part, so the
  tokenizer never cuts a part (`escapedChars_plain`). A part that ends in a
  backslash is printed with two of them: the slash behind such a part is not cut,
  and the strict reader of parts refuses it. With the characters that cannot be
  written this is all that is lost (`display_roundTrips_iff`).
-/

namespace Dalaran

open List Bool Tokens

namespace EntityPathPart

variable (cls : CharClass)

/-! ## Escaped text and separators -/

theorem printsAsIs_separator {c : Char} (h : dataPathSeparators.contains c = true) : cls.printsAsIs c = false := by
  have hall : dataPathSeparators.all (fun c =>
      decide (c.toNat < 128) && !c.isAlphanum && !(['_', '-', '.'].contains c)) = true := by decide
  have hc := all_eq_true.mp hall c (contains_iff_mem.mp h)
  simp only [and_eq_true, decide_eq_true_eq, not_eq_true'] at hc
  obtain ⟨⟨hascii, halnum⟩, hsymbol⟩ := hc
  rw [CharClass.printsAsIs, cls.ascii c hascii, halnum, hsymbol]
  rfl

theorem upperHexDigit_ordinary : ∀ digit < 16,
    dataPathSeparators.contains (upperHexDigit digit) = false ∧ upperHexDigit digit ≠ '\\' := by
  decide

theorem hex04_ordinary {n : Nat} {c : Char} (h : c ∈ hex04 n) :
    dataPathSeparators.contains c = false ∧ c ≠ '\\' := by
  obtain ⟨d, hd, rfl⟩ := exists_of_mem_hex04 h
  exact upperHexDigit_ordinary d hd

variable {special : Char → Bool} (hspecial : ∀ c, special c = true → dataPathSeparators.contains c = true)

include hspecial

theorem not_special {c : Char} (h : dataPathSeparators.contains c = false) : special c = false := by
  refine Bool.eq_false_iff.mpr fun hc => ?_
  rw [hspecial c hc] at h
  cases h

theorem plain_of_ordinary {t : Text} (h : ∀ c ∈ t, dataPathSeparators.contains c = false) (b : Bool) :
    Tokens.Plain '\\' special b t := by
  induction t generalizing b with
  | nil => trivial
  | cons c t ih =>
    exact ⟨.inr (not_special hspecial (h c mem_cons_self)), ih (fun d hd => h d (mem_cons_of_mem _ hd)) _⟩

theorem escapeChar_plain (c : Char) (b : Bool) : Tokens.Plain '\\' special b (escapeChar cls c) := by
  have hbackslash : special '\\' = false := not_special hspecial (by decide)
  rw [escapeChar]
  split_ifs with hasIs
  · refine ⟨.inr (not_special hspecial ?_), trivial⟩
    refine Bool.eq_false_iff.mpr fun hc => ?_
    rw [printsAsIs_separator cls hc] at hasIs
    cases hasIs
  all_goals refine ⟨.inr hbackslash, .inl (by decide), ?_⟩
  · trivial
  · trivial
  · trivial
  · trivial
  · apply plain_of_ordinary hspecial
    intro d hd
    rcases mem_cons.mp hd with rfl | hd
    · decide
    · rcases mem_append.mp hd with hd | hd
      · exact (hex04_ordinary hd).1
      · rw [mem_singleton.mp hd]
        decide

omit hspecial in
theorem follows_escapeChar (c : Char) (b : Bool) : Tokens.follows '\\' b (escapeChar cls c) = (c == '\\') := by
  rw [escapeChar]
  split_ifs with hasIs hn hr ht hp
  · rfl
  · subst hn
    rfl
  · subst hr
    rfl
  · subst ht
    rfl
  · rfl
  · have hc : (c == '\\') = false := by
      rw [beq_eq_false_iff_ne]
      rintro rfl
      exact hp (by decide)
    simp [hc]

theorem escapedChars_plain (chars : Text) (b : Bool) : Tokens.Plain '\\' special b (escapedChars cls chars) := by
  induction chars generalizing b with
  | nil => trivial
  | cons c chars ih => exact (escapeChar_plain cls hspecial c b).append (ih _)

omit hspecial in
theorem follows_escapedChars {chars : Text} (h : chars ≠ []) (b : Bool) :
    Tokens.follows '\\' b (escapedChars cls chars) = decide (chars.getLast? = some '\\') := by
  induction chars generalizing b with
  | nil => exact absurd rfl h
  | cons c chars ih =>
    rw [escapedChars, flatMap_cons, follows_append, follows_escapeChar, ← escapedChars]
    cases chars with
    | nil => simp [escapedChars, beq_eq_decide_eq]
    | cons d chars =>
      rw [ih (cons_ne_nil d chars), List.getLast?_cons_cons]

omit hspecial in
theorem escapedChars_ne_nil {chars : Text} (h : chars ≠ []) : escapedChars cls chars ≠ [] := by
  cases chars with
  | nil => exact absurd rfl h
  | cons c chars =>
    rw [escapedChars, flatMap_cons, escapeChar]
    split_ifs <;> simp

end EntityPathPart

/-! ## Printed paths -/

namespace EntityPath

open EntityPathPart

/-- What is printed of the parts behind the first. -/
def slashed (cls : CharClass) (parts : List String) : Text :=
  parts.flatMap fun part => '/' :: escapedString cls part

/-- The paths whose text is read back: every character can be written, and no part but the last
ends in a backslash. -/
def Printable (cls : CharClass) (parts : List String) : Prop :=
  (∀ part ∈ parts, ∀ c ∈ part.toList, cls.Writable c) ∧ ∀ part ∈ parts.dropLast, part.toList.getLast? ≠ some '\\'

variable {p : String} {cls : CharClass}

theorem printable_singleton : Printable cls [p] ↔ ∀ c ∈ p.toList, cls.Writable c := by
  simp [Printable]

variable {parts : List String} {q : String}

theorem printable_cons :
    Printable cls (p :: q :: parts) ↔
      (∀ c ∈ p.toList, cls.Writable c) ∧ p.toList.getLast? ≠ some '\\' ∧ Printable cls (q :: parts) := by
  simp only [Printable, dropLast_cons_cons, forall_mem_cons]
  tauto

theorem toList_ne_nil {part : String} (h : part ≠ "") : part.toList ≠ [] := by
  intro hnil
  exact h (String.toList_inj.mp hnil)

theorem escapedString_ne_slash {cls : CharClass} {part : String} (t : Text) (h : part ≠ "") :
    escapedString cls part ++ t ≠ ['/'] := by
  have hplain : Plain '\\' dataPathSeparators.contains false (escapedString cls part) :=
    escapedChars_plain cls (fun _ hc => hc) part.toList false
  have hne : escapedString cls part ≠ [] := escapedChars_ne_nil cls (toList_ne_nil h)
  intro heq
  cases hesc : escapedString cls part with
  | nil => exact hne hesc
  | cons c s =>
    rw [hesc] at heq hplain
    rw [(cons.inj heq).1] at hplain
    exact absurd hplain.1 (by decide)

section Tokens

variable {cls : CharClass} {separators : List Char} (hslash : separators.contains '/' = true)
  (hsub : ∀ c, separators.contains c = true → dataPathSeparators.contains c = true)

include hslash hsub

theorem tokenize_slashed (hne : p ≠ "") (hlast : p.toList.getLast? ≠ some '\\') :
    tokenizeBy (escapedString cls p ++ slashed cls (q :: parts)) separators =
      escapedString cls p :: ['/'] :: tokenizeBy (escapedString cls q ++ slashed cls parts) separators := by
  have hplain : Plain '\\' separators.contains false (escapedString cls p) :=
    escapedChars_plain cls hsub p.toList false
  have hfollows : follows '\\' false (escapedString cls p) = false := by
    rw [escapedString, follows_escapedChars cls (toList_ne_nil hne)]
    exact decide_eq_false hlast
  rw [tokenizeBy, slashed, flatMap_cons, cons_append,
    tokenize_plain_append hplain (escapedChars_ne_nil cls (toList_ne_nil hne)) hslash hfollows,
    tokenize_special hslash]
  rfl

omit hslash in
theorem tokenize_last (hne : p ≠ "") :
    tokenizeBy (escapedString cls p ++ slashed cls []) separators = [escapedString cls p] := by
  rw [slashed, flatMap_nil, append_nil]
  exact tokenize_of_plain (escapedChars_plain cls hsub p.toList false)
    (escapedChars_ne_nil cls (toList_ne_nil hne))

theorem tokenize_printable {p : String} {parts : List String} (hne : ∀ part ∈ p :: parts, part ≠ "")
    (h : Printable cls (p :: parts)) :
    partsLoop cls (tokenizeBy (escapedString cls p ++ slashed cls parts) separators) = .ok (p :: parts) ∧
      ((tokenizeBy (escapedString cls p ++ slashed cls parts) separators).filter (· != ['/'])).map
        (fun part => (parseForgivingWithWarning part).1) = p :: parts := by
  have hp : p ≠ "" := hne p mem_cons_self
  have hslashed : escapedString cls p ≠ ['/'] := by simpa using @escapedString_ne_slash cls p [] hp
  induction parts generalizing p with
  | nil =>
    obtain ⟨hstrict, hforgiving⟩ := parse_escapedString cls (printable_singleton.mp h)
    rw [tokenize_last hsub hp, partsLoop, if_neg hslashed, hstrict]
    simp [hslashed, hforgiving]
  | cons q parts ih =>
    obtain ⟨hwritable, hlast, hrest⟩ := printable_cons.mp h
    have hq : q ≠ "" := hne q (by simp)
    have hslashedQ : escapedString cls q ≠ ['/'] := by simpa using @escapedString_ne_slash cls q [] hq
    obtain ⟨hstrictRest, hforgivingRest⟩ :=
      ih (fun part hpart => hne part (mem_cons_of_mem p hpart)) hrest hq hslashedQ
    obtain ⟨hstrict, hforgiving⟩ := parse_escapedString cls hwritable
    rw [tokenize_slashed hslash hsub hp hlast, partsLoop, if_neg hslashed, hstrict]
    constructor
    · simp [hstrictRest, Except.map]
    · simp [hslashed, hforgiving, hforgivingRest]

omit hslash in
theorem partsLoop_error_of_first (hp : p ≠ "") (t : Text)
    (h : ∀ a, ∃ e, unescapeStrict cls (escapedString cls p ++ a) = .error e) :
    ∃ e, partsLoop cls (tokenizeBy (escapedString cls p ++ t) separators) = .error e := by
  have hplain : Plain '\\' separators.contains false (escapedString cls p) :=
    escapedChars_plain cls hsub p.toList false
  rw [tokenizeBy, tokenize_plain hplain (escapedChars_ne_nil cls (toList_ne_nil hp))]
  obtain ⟨e, he⟩ := h (Tokens.scan '\\' separators.contains
    (follows '\\' false (escapedString cls p)) t).1
  rw [partsLoop, if_neg (escapedString_ne_slash _ hp), EntityPathPart.parseStrict, he]
  exact ⟨e, rfl⟩

omit hslash in
theorem partsLoop_error_of_backslash (hp : p ≠ "") (hwritable : ∀ c ∈ p.toList, cls.Writable c)
    (hlast : p.toList.getLast? = some '\\') :
    partsLoop cls (tokenizeBy (escapedString cls p ++ slashed cls (q :: parts)) separators) =
      .error (.missingEscape '/') := by
  have hplain : Plain '\\' separators.contains false (escapedString cls p) :=
    escapedChars_plain cls hsub p.toList false
  have hfollows : follows '\\' false (escapedString cls p) = true := by
    rw [escapedString, follows_escapedChars cls (toList_ne_nil hp)]
    exact decide_eq_true hlast
  have hmissing : ∀ t, unescapeStrict cls ('/' :: t) = .error (.missingEscape '/') := by
    intro t
    have hasIs : cls.printsAsIs '/' = false := printsAsIs_separator cls (by decide)
    rw [unescapeStrict.eq_def]
    simp [hasIs]
  rw [tokenizeBy, tokenize_plain hplain (escapedChars_ne_nil cls (toList_ne_nil hp)), partsLoop,
    if_neg (escapedString_ne_slash _ hp), EntityPathPart.parseStrict, hfollows, escapedString,
    (unescape_escapedChars cls hwritable _).1, slashed, flatMap_cons, cons_append, Tokens.scan]
  simp [hmissing, push, Except.map]

theorem partsLoop_of_not_printable {p : String} {parts : List String}
    (hne : ∀ part ∈ p :: parts, part ≠ "") (h : ¬ Printable cls (p :: parts)) :
    ∃ e, partsLoop cls (tokenizeBy (escapedString cls p ++ slashed cls parts) separators) = .error e := by
  have hp : p ≠ "" := hne p mem_cons_self
  induction parts generalizing p with
  | nil =>
    apply partsLoop_error_of_first hsub hp
    apply unescapeStrict_escapedChars_of_not_writable cls
    simpa [printable_singleton] using h
  | cons q parts ih =>
    by_cases hwritable : ∀ c ∈ p.toList, cls.Writable c
    · by_cases hlast : p.toList.getLast? = some '\\'
      · exact ⟨_, partsLoop_error_of_backslash hsub hp hwritable hlast⟩
      · have hrest : ¬ Printable cls (q :: parts) := fun hrest => h (printable_cons.mpr ⟨hwritable, hlast, hrest⟩)
        obtain ⟨e, he⟩ := ih (fun part hpart => hne part (mem_cons_of_mem p hpart)) hrest (hne q (by simp))
        have hslashed : escapedString cls p ≠ ['/'] := by simpa using @escapedString_ne_slash cls p [] hp
        rw [tokenize_slashed hslash hsub hp hlast, partsLoop, if_neg hslashed, (parse_escapedString cls hwritable).1]
        simp [he, Except.map]
    · apply partsLoop_error_of_first hsub hp
      apply unescapeStrict_escapedChars_of_not_writable cls
      simpa using hwritable

end Tokens

/-- Where a component and where an instance begins. -/
def marks : List Char := [':', '[']

theorem marks_separators {c : Char} (h : marks.contains c = true) : dataPathSeparators.contains c = true := by
  have hall : ∀ c ∈ marks, dataPathSeparators.contains c = true := by simp [marks, dataPathSeparators]
  exact hall c (contains_iff_mem.mp h)

theorem not_mem_tokenize_slashed {c : Char}
    (hc : marks.contains c = true) : [c] ∉ tokenizeDataPath (slashed cls parts) := by
  refine @Tokens.not_mem_tokenize _ _ '\\' dataPathSeparators.contains marks.contains
    (fun _ => marks_separators) (by decide) _ ?_ c hc
  have hplain : ∀ b, Plain '\\' marks.contains b (slashed cls parts) := by
    induction parts with
    | nil => exact fun b => trivial
    | cons p parts ih =>
      intro b
      exact ⟨.inr (by decide), (escapedChars_plain cls (fun _ => marks_separators) p.toList _).append (ih _)⟩
  exact hplain false

theorem parseStrict_slashed {cls : CharClass} {p : String} {parts : List String}
    (hne : ∀ part ∈ p :: parts, part ≠ "") :
    parseStrict cls (slashed cls (p :: parts)) =
      (partsLoop cls (tokenizeBy (escapedString cls p ++ slashed cls parts) dataPathSeparators)).map
        EntityPath.mk := by
  have hp : p ≠ "" := hne p mem_cons_self
  have htokens : tokenizeDataPath (slashed cls (p :: parts)) =
      ['/'] :: tokenizeBy (escapedString cls p ++ slashed cls parts) dataPathSeparators := by
    rw [tokenizeDataPath, tokenizeBy, slashed, flatMap_cons, cons_append, tokenize_special (by decide)]
    rfl
  have hmark : ∀ c, c = ':' ∨ c = '[' →
      (tokenizeDataPath (slashed cls (p :: parts))).findIdx? (· == [c]) = none := by
    intro c hc
    rw [List.findIdx?_eq_none_iff]
    intro token htoken
    rw [beq_eq_false_iff_ne]
    rintro rfl
    exact not_mem_tokenize_slashed (by rcases hc with rfl | rfl <;> decide) htoken
  have hrest : tokenizeBy (escapedString cls p ++ slashed cls parts) dataPathSeparators ≠ [] := by
    rw [tokenizeBy, Ne, tokenize_eq_nil_iff, append_eq_nil_iff]
    exact fun hnil => escapedChars_ne_nil cls (toList_ne_nil hp) hnil.1
  have htext : slashed cls (p :: parts) ≠ [] := by simp [slashed]
  rw [parseStrict, DataPath.fromStr, if_neg htext, DataPath.takeComponent, hmark ':' (.inl rfl)]
  simp only [DataPath.takeInstance, hmark '[' (.inr rfl)]
  rw [htokens, entityPathPartsFromTokensStrict, if_neg (cons_ne_nil _ _),
    if_neg (fun heq => hrest (cons.inj heq).2), List.head?_cons, if_pos rfl, tail_cons]
  cases partsLoop cls (tokenizeBy (escapedString cls p ++ slashed cls parts) dataPathSeparators) <;> rfl

theorem readForgiving_slashed (hne : ∀ part ∈ p :: parts, part ≠ "") (h : Printable cls (p :: parts)) :
    readForgiving (slashed cls (p :: parts)) = ⟨p :: parts⟩ := by
  have hsub : ∀ c, entityPathSeparators.contains c = true → dataPathSeparators.contains c = true := by
    intro c hc
    rw [mem_singleton.mp (contains_iff_mem.mp hc)]
    decide
  have htokens : tokenizeEntityPath (slashed cls (p :: parts)) =
      ['/'] :: tokenizeBy (escapedString cls p ++ slashed cls parts) entityPathSeparators := by
    rw [tokenizeEntityPath, tokenizeBy, slashed, flatMap_cons, cons_append, tokenize_special (by decide)]
    rfl
  rw [readForgiving, htokens, filter_cons_of_neg (by simp)]
  exact congrArg EntityPath.mk (tokenize_printable (by decide) hsub hne h).2

/-! ## The round trip -/

theorem parse_root (cls : CharClass) : parseStrict cls ['/'] = .ok ⟨[]⟩ ∧ readForgiving ['/'] = ⟨[]⟩ := by
  have htokens : tokenizeDataPath ['/'] = [['/']] := by
    rw [tokenizeDataPath, tokenizeBy, tokenize_special (by decide), tokenize]
  have htokensForgiving : tokenizeEntityPath ['/'] = [['/']] := by
    rw [tokenizeEntityPath, tokenizeBy, tokenize_special (by decide), tokenize]
  constructor
  · rw [parseStrict, DataPath.fromStr, htokens]
    rfl
  · rw [readForgiving, htokensForgiving]
    rfl

theorem parseStrict_display_iff (cls : CharClass) (p : EntityPath) (hne : ∀ part ∈ p.parts, part ≠ "") :
    parseStrict cls (p.display cls) = .ok p ↔ Printable cls p.parts := by
  obtain ⟨parts⟩ := p
  cases parts with
  | nil => simp [display, (parse_root cls).1, Printable]
  | cons part parts =>
    rw [display, if_neg (cons_ne_nil _ _)]
    constructor
    · intro hok
      by_contra hnot
      obtain ⟨e, he⟩ := @partsLoop_of_not_printable cls dataPathSeparators (by decide) (fun _ hc => hc) _ _ hne hnot
      have hslashed := @parseStrict_slashed cls _ _ hne
      rw [he] at hslashed
      rw [slashed] at hslashed
      rw [hslashed] at hok
      cases hok
    · intro hprintable
      have hslashed := @parseStrict_slashed cls _ _ hne
      rw [(@tokenize_printable cls dataPathSeparators (by decide) (fun _ hc => hc) _ _ hne hprintable).1] at hslashed
      exact hslashed

theorem readForgiving_display {p : EntityPath} (hne : ∀ part ∈ p.parts, part ≠ "")
    (h : Printable cls p.parts) : readForgiving (p.display cls) = p := by
  obtain ⟨parts⟩ := p
  cases parts with
  | nil => simp [display, (parse_root cls).2]
  | cons part parts =>
    exact readForgiving_slashed hne h

/-- Both parsers give a path back from its text exactly when the path can be printed and the table of
parsed texts holds no other path under the hash of the text. -/
theorem display_roundTrips_iff (cls : CharClass) (hash : Text → UInt64) (cache : ForgivingParseCache)
    (p : EntityPath) (hne : ∀ part ∈ p.parts, part ≠ "") :
    (parseStrict cls (p.display cls) = .ok p ∧ (parseForgiving hash cache (p.display cls)).1 = p) ↔
      Printable cls p.parts ∧ ∀ q, cache.lookup (hash (p.display cls)) = some q → q = p := by
  rw [parseStrict_display_iff cls p hne, parseForgiving]
  apply and_congr_right
  intro hprintable
  cases cache.lookup (hash (p.display cls)) with
  | none => simpa using readForgiving_display hne hprintable
  | some q => simp

theorem display_roundTrips_iff_camera :
    (∀ part ∈ ["camera", "ACME 42!"], part ≠ "") ∧
      ((parseStrict .asciiOnly (display .asciiOnly ⟨["camera", "ACME 42!"]⟩) = .ok ⟨["camera", "ACME 42!"]⟩ ∧
          (parseForgiving (fun _ => 0) ∅ (display .asciiOnly ⟨["camera", "ACME 42!"]⟩)).1 =
            ⟨["camera", "ACME 42!"]⟩) ↔
        Printable .asciiOnly ["camera", "ACME 42!"] ∧
          ∀ q, (∅ : ForgivingParseCache).lookup 0 = some q → q = ⟨["camera", "ACME 42!"]⟩) :=
  ⟨by simp, display_roundTrips_iff .asciiOnly (fun _ => 0) ∅ ⟨["camera", "ACME 42!"]⟩ (by simp)⟩

/-- Behind a part that ends in a backslash the text is refused, whatever is alphanumeric beyond ASCII. -/
theorem display_backslash_not_parsed :
    (∀ part ∈ ["a\\", "b"], part ≠ "") ∧
      ∀ cls : CharClass, parseStrict cls (display cls ⟨["a\\", "b"]⟩) = .error (.missingEscape '/') := by
  refine ⟨by simp, fun cls => ?_⟩
  have hne : ∀ part ∈ ["a\\", "b"], part ≠ "" := by simp
  have hslashed := @parseStrict_slashed cls "a\\" ["b"] hne
  have hwritable : ∀ c ∈ "a\\".toList, cls.Writable c := by
    have hascii : ∀ c ∈ "a\\".toList, c.toNat < 0x10000 := by simp
    exact fun c hc => .inl (hascii c hc)
  rw [partsLoop_error_of_backslash (fun _ hc => hc) (by decide) hwritable (by decide)] at hslashed
  exact hslashed

end EntityPath

end Dalaran
