import Dalaran.Path.Grammar

/-
  What the strict parser of entity paths takes, the forgiving parser reads the same way.

  The strict parser cuts a text at more characters than the forgiving one. Where it
  takes the text for a path, the tokens are the same (`Tokens.tokenize_narrow`), and
  a part it takes has no escapes to be forgiven (`unescapeForgiving_partText`).

  The forgiving parser keeps what it has read in a table of the whole process, under
  the 64-bit hash of the text, so two texts of one hash are read alike
  (`parseForgiving_of_parseStrict_iff`). There are such texts, whatever the hash
  function (`parsers_disagree`).
-/

namespace Dalaran

open List Option EntityPathPart DataPath

/-! ## Parts -/

namespace EntityPathPart

variable {cls : CharClass}

theorem unescapeForgiving_charText {s : Text} {c : Char} (h : CharText cls s c) (t : Text) :
    (unescapeForgiving (s ++ t)).1 = c :: (unescapeForgiving t).1 := by
  cases h with
  | asIs hc => exact unescapeForgiving_asIs (cls.printsAsIs_ne_backslash hc) t
  | newline => simp [unescapeForgiving, pushWith]
  | carriageReturn => simp [unescapeForgiving, pushWith]
  | tab => simp [unescapeForgiving, pushWith]
  | punctuation hc => exact (unescape_punctuation cls hc t).2
  | unicode hlength hn hc =>
    have hdigits := fun d hd => numberChar_facts ((fromStrRadix_mem hn).2 d hd)
    have hparse :=
      parseUnicodeEscape_braces (fun d hd => ⟨(hdigits d hd).1, (hdigits d hd).2.2.2⟩) hlength hn hc t
    simp [unescapeForgiving, hparse, pushWith]

theorem unescapeForgiving_partText {t chars : Text} (h : PartText cls t chars) : (unescapeForgiving t).1 = chars := by
  induction h with
  | nil => rw [unescapeForgiving]
  | cons hchar _ ih => rw [unescapeForgiving_charText hchar, ih]

theorem parseForgiving_of_parseStrict {t : Text} {part : String} (h : parseStrict cls t = .ok part) :
    (parseForgivingWithWarning t).1 = part := by
  obtain ⟨chars, htext, rfl⟩ := parseStrict_ok h
  unfold parseForgivingWithWarning
  rw [unescapeForgiving_partText htext]

theorem parseStrict_separator {c : Char} (hc : dataPathSeparators.contains c = true) {part : String} :
    parseStrict cls [c] ≠ .ok part := by
  intro h
  obtain ⟨chars, htext, -⟩ := parseStrict_ok h
  have hplain : Tokens.Plain '\\' dataPathSeparators.contains false [c] := partText_plain (fun _ hc => hc) htext false
  rcases hplain.1 with h | h
  · cases h
  · rw [hc] at h
    cases h

end EntityPathPart

/-! ## Paths -/

variable {cls : CharClass}

/-- What the forgiving parser makes of the tokens it has cut. -/
def readParts (tokens : List Text) : List String :=
  (tokens.filter (· != ['/'])).map fun part => (EntityPathPart.parseForgivingWithWarning part).1

theorem partsLoop_readParts {tokens : List Text} {parts : List String} (h : partsLoop cls tokens = .ok parts) :
    readParts tokens = parts ∧
      ∀ token ∈ tokens, token = ['/'] ∨ ∃ part, EntityPathPart.parseStrict cls token = .ok part := by
  fun_induction partsLoop cls tokens generalizing parts with
  | case1 => cases h
  | case2 => cases h
  | case3 => cases h
  | case4 token hslash part hpart =>
    cases h
    refine ⟨?_, fun other hother => .inr ⟨part, by rwa [mem_singleton.mp hother]⟩⟩
    simp [readParts, hslash, parseForgiving_of_parseStrict hpart]
  | case5 token hslash part hpart tokens ih =>
    obtain ⟨rest, hrest, rfl⟩ := Collect.map_eq_ok.mp h
    obtain ⟨hread, hkinds⟩ := ih hrest
    constructor
    · rw [← hread]
      simp [readParts, hslash, parseForgiving_of_parseStrict hpart]
    · intro other hother
      rcases mem_cons.mp hother with rfl | hother
      · exact .inr ⟨part, hpart⟩
      rcases mem_cons.mp hother with rfl | hother
      · exact .inl rfl
      · exact hkinds other hother
  | case6 => cases h

theorem entityPathParts_readParts {tokens : List Text} {parts : List String}
    (h : entityPathPartsFromTokensStrict cls tokens = .ok parts) :
    readParts tokens = parts ∧
      ∀ token ∈ tokens, token = ['/'] ∨ ∃ part, EntityPathPart.parseStrict cls token = .ok part := by
  rw [entityPathPartsFromTokensStrict] at h
  split_ifs at h with hnil hroot hslash
  · cases h
    rw [hroot]
    exact ⟨rfl, fun token htoken => .inl (mem_singleton.mp htoken)⟩
  · cases tokens with
    | nil => exact absurd rfl hnil
    | cons token tokens =>
      rw [List.head?_cons, Option.some.injEq] at hslash
      subst hslash
      obtain ⟨hread, hkinds⟩ := partsLoop_readParts h
      refine ⟨hread, fun token htoken => ?_⟩
      rcases mem_cons.mp htoken with rfl | htoken
      · exact .inl rfl
      · exact hkinds token htoken
  · exact partsLoop_readParts h

namespace EntityPath

theorem readForgiving_of_parseStrict {s : Text} {p : EntityPath} (h : parseStrict cls s = .ok p) :
    readForgiving s = p := by
  obtain ⟨parts⟩ := p
  have hparts : entityPathPartsFromTokensStrict cls (tokenizeDataPath s) = .ok parts := by
    rw [parseStrict] at h
    split at h
    · cases h
    · next dataPath hdata =>
      split at h
      · cases h
      · cases h
      · next hinstance hcomponent =>
        obtain ⟨-, tokens, front, htake, hfront, hok⟩ := fromStr_ok_iff.mp hdata
        rw [hcomponent] at htake
        rw [hinstance] at hfront
        obtain ⟨-, rfl, -⟩ := (takeComponent_ok_iff.mp htake).resolve_right (by simp)
        obtain ⟨-, rfl, -⟩ := (takeInstance_ok_iff.mp hfront).resolve_right (by simp)
        rw [hok, Except.ok.inj h]
  obtain ⟨hread, hkinds⟩ := entityPathParts_readParts hparts
  have htokens : tokenizeEntityPath s = tokenizeDataPath s := by
    refine Tokens.tokenize_narrow ?_ ?_
    · intro c hc
      rw [mem_singleton.mp (contains_iff_mem.mp hc)]
      decide
    · intro c hc hmem
      rcases hkinds [c] hmem with hslash | hpart
      · rw [(cons.inj hslash).1]
        decide
      · obtain ⟨part, hpart⟩ := hpart
        exact absurd hpart (parseStrict_separator hc)
  rw [readForgiving, htokens]
  exact congrArg EntityPath.mk hread

/-! ## The table of parsed texts -/

def tableAfter (hash : Text → UInt64) (cache : ForgivingParseCache) (texts : List Text) : ForgivingParseCache :=
  texts.foldl (fun cache t => (parseForgiving hash cache t).2) cache

theorem lookup_tableAfter (hash : Text → UInt64) (cache : ForgivingParseCache) (texts : List Text) (h : UInt64) :
    (tableAfter hash cache texts).lookup h =
      (cache.lookup h).or ((texts.find? fun t => hash t = h).map readForgiving) := by
  induction texts generalizing cache with
  | nil => simp [tableAfter]
  | cons t texts ih =>
    have hstep : (parseForgiving hash cache t).2.lookup h =
        (cache.lookup h).or (if hash t = h then some (readForgiving t) else none) := by
      unfold parseForgiving
      split
      · next cached hcached =>
        by_cases heq : hash t = h
        · rw [heq] at hcached
          simp [hcached]
        · simp [heq]
      · next hmissing =>
        by_cases heq : hash t = h
        · rw [heq] at hmissing
          simp [heq, hmissing]
        · simp [heq, Ne.symm heq]
    have hunfold : tableAfter hash cache (t :: texts) = tableAfter hash (parseForgiving hash cache t).2 texts := rfl
    rw [hunfold, ih, hstep, Option.or_assoc, List.find?_cons]
    by_cases heq : hash t = h
    · simp [heq]
    · simp [heq]

/-- A text that the strict parser takes is parsed as the same path exactly if the first text of its hash, when there
was one before, is read as that path too. -/
theorem parseForgiving_of_parseStrict_iff (cls : CharClass) (hash : Text → UInt64) (texts : List Text) {s : Text}
    {p : EntityPath} (h : parseStrict cls s = .ok p) :
    (parseForgiving hash (tableAfter hash ∅ texts) s).1 = p ↔
      ∀ t, texts.find? (fun t => hash t = hash s) = some t → readForgiving t = p := by
  have hlookup := lookup_tableAfter hash ∅ texts (hash s)
  unfold parseForgiving
  rw [hlookup]
  cases texts.find? fun t => hash t = hash s with
  | none => simpa using readForgiving_of_parseStrict h
  | some t => simp

/-! ## Two texts of one hash -/

/-- A word of the letters `a` and `b` that starts with `a`. -/
def word (bits : List Bool) : Text := 'a' :: bits.map fun bit => if bit then 'b' else 'a'

theorem word_injective : Function.Injective word := by
  intro bits bits' h
  refine map_injective_iff.mpr ?_ (cons.inj h).2
  decide

theorem letter_charText (cls : CharClass) (bit : Bool) :
    CharText cls [if bit then 'b' else 'a'] (if bit then 'b' else 'a') := by
  refine .asIs ?_
  rw [CharClass.printsAsIs, cls.ascii _ (by cases bit <;> decide)]
  cases bit <;> decide

theorem word_partText (cls : CharClass) (bits : List Bool) : PartText cls (word bits) (word bits) := by
  refine .cons (letter_charText cls false) ?_
  induction bits with
  | nil => exact .nil
  | cons bit bits ih => exact .cons (letter_charText cls bit) ih

theorem parseStrict_word (cls : CharClass) (bits : List Bool) :
    parseStrict cls (word bits) = .ok ⟨[String.ofList (word bits)]⟩ := by
  have htokens : tokenizeDataPath (word bits) = [word bits] :=
    Tokens.tokenize_of_plain (partText_plain (fun _ hc => hc) (word_partText cls bits) false) (cons_ne_nil _ _)
  have hne : ∀ c, c ≠ 'a' → word bits ≠ [c] := by
    intro c hc heq
    exact hc (cons.inj heq).1.symm
  have hcomponent : DataPath.takeComponent [word bits] = .ok (none, [word bits]) :=
    takeComponent_ok_iff.mpr
      (.inl ⟨rfl, rfl, fun hmem => hne ':' (by decide) (mem_singleton.mp hmem).symm⟩)
  have hinstance : DataPath.takeInstance [word bits] = .ok (none, [word bits]) :=
    takeInstance_ok_iff.mpr
      (.inl ⟨rfl, rfl, fun hmem => hne '[' (by decide) (mem_singleton.mp hmem).symm⟩)
  have hpart : EntityPathPart.parseStrict cls (word bits) = .ok (String.ofList (word bits)) := by
    rw [EntityPathPart.parseStrict, unescapeStrict_ok_iff.mpr (word_partText cls bits)]
    rfl
  have hslash : word bits ≠ ['/'] := hne '/' (by decide)
  have hparts : entityPathPartsFromTokensStrict cls [word bits] = .ok [String.ofList (word bits)] := by
    rw [entityPathPartsFromTokensStrict, if_neg (cons_ne_nil _ _), if_neg (by simpa using hslash),
      if_neg (by simpa using hslash), partsLoop, if_neg hslash, hpart]
  have hnil : word bits ≠ [] := cons_ne_nil _ _
  rw [parseStrict, DataPath.fromStr, if_neg hnil, htokens, hcomponent]
  simp only [hinstance, hparts]
  rfl

def polynomialHash (text : Text) : UInt64 := text.foldl (fun hash c => hash * 31 + c.toNat.toUInt64) 7

/-- A word among others, one of which was parsed twice. -/
theorem parseForgiving_of_parseStrict_iff_words :
    (parseForgiving polynomialHash
      (tableAfter polynomialHash ∅ [word [false], word [true, true], word [false], word [true, false]])
      (word [true, false])).1 = ⟨["aba"]⟩ := by
  refine (parseForgiving_of_parseStrict_iff .asciiOnly polynomialHash _
    (parseStrict_word .asciiOnly [true, false])).mpr ?_
  intro t ht
  obtain rfl : word [true, false] = t := some.inj ht
  exact readForgiving_of_parseStrict (parseStrict_word .asciiOnly [true, false])

/-- Whatever the hash function, there are two words of 66 letters that share a hash, so that the parsers do not agree
on the second one after the first. -/
theorem parsers_disagree :
    ¬ ∃ (cls : CharClass) (hash : Text → UInt64), ∀ (texts : List Text) (s : Text) (p : EntityPath),
      (∀ t ∈ s :: texts, t.length = 66) →
      parseStrict cls s = .ok p → (parseForgiving hash (tableAfter hash ∅ texts) s).1 = p := by
  intro h
  obtain ⟨cls, hash, h⟩ := h
  have hcard : Fintype.card (Fin (2 ^ 64)) < Fintype.card (Fin 65 → Bool) := by simp
  obtain ⟨f, g, hne, hhash⟩ := Fintype.exists_ne_map_eq_of_card_lt
    (fun f : Fin 65 → Bool => (hash (word (ofFn f))).toFin) hcard
  have hhash : hash (word (ofFn f)) = hash (word (ofFn g)) := UInt64.toFin_inj.mp hhash
  have hread : ∀ bits, readForgiving (word bits) = ⟨[String.ofList (word bits)]⟩ :=
    fun bits => readForgiving_of_parseStrict (parseStrict_word cls bits)
  have hsame := h [word (ofFn f)] (word (ofFn g)) _ (by simp [word]) (parseStrict_word cls _)
  have hfound : [word (ofFn f)].find? (fun t => hash t = hash (word (ofFn g))) = some (word (ofFn f)) :=
    List.find?_cons_of_pos (decide_eq_true hhash)
  have htable := lookup_tableAfter hash ∅ [word (ofFn f)] (hash (word (ofFn g)))
  rw [AList.lookup_empty, none_or, hfound, map_some, hread] at htable
  unfold parseForgiving at hsame
  rw [htable] at hsame
  have hwords : word (ofFn f) = word (ofFn g) := String.ofList_inj.mp (by simpa using hsame)
  exact hne (ofFn_injective (word_injective hwords))

end EntityPath

end Dalaran
