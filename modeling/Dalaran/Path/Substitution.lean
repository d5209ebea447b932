import Dalaran.Path.FilterText
import Dalaran.Path.RoundTrip

/-
  Putting values in for variables, and where that meets the text of a path.

  A text without the pattern stays as it is (`replace_of_not_occurs`); any other one
  is kept up to the first occurrence (`replace_of_occurs`).

  The text of a path has dollar signs and stars only where its parts have them, each
  behind a backslash (`slashed_split_sign`), and letters print as they are. So the
  text holds a variable exactly if a part of the path does
  (`variable_infix_slashed_iff`), and never one with braces.
-/

namespace Dalaran

open List

/-! ## Replacing a pattern -/

theorem replaceFrom_length (pattern value s t : Text) :
    replaceFrom pattern value s.length (s ++ t) = replaceFrom pattern value 0 t := by
  induction s with
  | nil => rfl
  | cons c s ih => rw [cons_append, length_cons, replaceFrom, ih]

variable {pattern : Text}

theorem replace_of_starts (hne : pattern ≠ []) (value t : Text) :
    replace (pattern ++ t) pattern value = value ++ replace t pattern value := by
  cases pattern with
  | nil => exact absurd rfl hne
  | cons c pattern =>
    have hstarts : (c :: pattern).isPrefixOf (c :: (pattern ++ t)) = true :=
      isPrefixOf_iff_prefix.mpr (prefix_append (c :: pattern) t)
    unfold replace
    rw [cons_append, replaceFrom, if_pos hstarts, length_cons, Nat.add_sub_cancel, replaceFrom_length]

variable {t : Text}

theorem replace_of_not_starts {c : Char} (h : ¬ pattern <+: c :: t) (value : Text) :
    replace (c :: t) pattern value = c :: replace t pattern value := by
  unfold replace
  rw [replaceFrom, if_neg (fun hstarts => h ( isPrefixOf_iff_prefix.mp hstarts))]

theorem replace_of_not_occurs (h : ¬ pattern <:+: t) (value : Text) : replace t pattern value = t := by
  induction t with
  | nil => rfl
  | cons c t ih =>
    rw [replace_of_not_starts fun hstarts => h hstarts.isInfix, ih fun hoccurs => h (infix_cons hoccurs)]

theorem replace_of_occurs (hne : pattern ≠ []) (h : pattern <:+: t) (value : Text) :
    ∃ u v, t = u ++ (pattern ++ v) ∧ replace t pattern value = u ++ (value ++ replace v pattern value) := by
  induction t with
  | nil => exact absurd (infix_nil.mp h) hne
  | cons c t ih =>
    by_cases hstarts : pattern <+: c :: t
    · obtain ⟨v, hv⟩ := hstarts
      exact ⟨[], v, hv.symm, by rw [← hv, replace_of_starts hne]; rfl⟩
    · obtain ⟨u, v, rfl, hreplace⟩ := ih ((infix_cons_iff.mp h).resolve_left hstarts)
      exact ⟨c :: u, v, rfl, by rw [replace_of_not_starts hstarts, hreplace]; rfl⟩

variable {u : Text}

theorem replace_append_cons {c : Char} (hc : c ∉ pattern) (h : ¬ pattern <:+: u) (value t : Text)
    (hne : pattern ≠ []) : replace (u ++ c :: t) pattern value = u ++ c :: replace t pattern value := by
  induction u with
  | nil =>
    refine replace_of_not_starts (fun hstarts => hc ?_) value
    cases pattern with
    | nil => exact absurd rfl hne
    | cons d pattern =>
      rw [(cons_prefix_cons.mp hstarts).1]
      exact mem_cons_self
  | cons d u ih =>
    rw [cons_append, replace_of_not_starts, ih fun hoccurs => h (infix_cons hoccurs)]
    · rfl
    · intro hstarts
      rcases le_or_gt pattern.length (d :: u).length with hlength | hlength
      · exact h (prefix_of_prefix_length_le hstarts (prefix_append (d :: u) (c :: t)) hlength).isInfix
      · -- it would take in the character
        have hwhole : (d :: u) ++ [c] <+: (d :: u) ++ c :: t := ⟨t, by simp⟩
        have htaken := prefix_of_prefix_length_le hwhole hstarts (by simpa using hlength)
        exact hc (htaken.subset (by simp))

/-! ## Signs in the text of a path -/

theorem flatMap_eq_append_cons {α β : Type} {f : α → List β} {l : List α} {u rest : List β} {b : β}
    (h : l.flatMap f = u ++ b :: rest) : ∃ front a back u' rest', l = front ++ a :: back ∧
      f a = u' ++ b :: rest' ∧ u = front.flatMap f ++ u' ∧ rest = rest' ++ back.flatMap f := by
  induction l generalizing u with
  | nil => simp at h
  | cons a l ih =>
    rcases append_eq_append_iff.mp h with ⟨u', rfl, htail⟩ | ⟨rest', hhead, htail⟩
    · obtain ⟨front, d, back, v, rest', rfl, hd, rfl, rfl⟩ := ih htail
      exact ⟨a :: front, d, back, v, rest', rfl, hd, by simp, rfl⟩
    · cases rest' with
      | nil =>
        obtain ⟨front, d, back, v, rest', rfl, hd, hnil, rfl⟩ := @ih [] htail.symm
        refine ⟨a :: front, d, back, v, rest', rfl, hd, ?_, rfl⟩
        rw [append_nil] at hhead
        rw [flatMap_cons, append_assoc, ← hnil, append_nil, hhead]
      | cons b' rest' =>
        obtain ⟨rfl, rfl⟩ := cons.inj htail
        exact ⟨[], a, l, u, rest', rfl, hhead, rfl, rfl⟩

namespace EntityPathPart

variable (cls : CharClass)

section

variable {sign : Char} (hsign : sign ∈ ['$', '*'])

include hsign

theorem printsAsIs_sign : cls.printsAsIs sign = false := by
  have hascii : ∀ c ∈ ['$', '*'], c.toNat < 128 ∧ c.isAlphanum = false ∧ c ∉ ['_', '-', '.'] := by simp
  obtain ⟨hlt, halnum, hsymbol⟩ := hascii sign hsign
  rw [CharClass.printsAsIs, cls.ascii sign hlt, halnum, Bool.false_or]
  exact Bool.eq_false_iff.mpr fun hmem => hsymbol (contains_iff_mem.mp hmem)

theorem escapeChar_sign : escapeChar cls sign = ['\\', sign] := by
  have hpunctuation : ∀ c ∈ ['$', '*'],
      c ≠ '\n' ∧ c ≠ '\r' ∧ c ≠ '\t' ∧ (isAsciiPunctuation c || c == ' ') = true := by
    simp [isAsciiPunctuation]
  obtain ⟨hn, hr, ht, hp⟩ := hpunctuation sign hsign
  rw [escapeChar, printsAsIs_sign cls hsign, if_neg Bool.false_ne_true, if_neg hn, if_neg hr, if_neg ht, if_pos hp]

omit cls in
theorem sign_not_mem_hex04 (n : Nat) : sign ∉ hex04 n := by
  have hdigit : ∀ digit < 16, upperHexDigit digit ∉ ['$', '*'] := by decide
  intro h
  obtain ⟨d, hd, rfl⟩ := exists_of_mem_hex04 h
  exact hdigit d hd hsign

theorem eq_sign_of_mem {c : Char} (h : sign ∈ escapeChar cls c) : c = sign := by
  have hne : ∀ d ∈ ['\\', 'n', 'r', 't', 'u', '{', '}'], sign ≠ d := by
    have hall : ∀ c ∈ ['$', '*'], ∀ d ∈ ['\\', 'n', 'r', 't', 'u', '{', '}'], c ≠ d := by simp
    exact hall sign hsign
  have hhex := @sign_not_mem_hex04 sign hsign c.toNat
  rw [escapeChar] at h
  split_ifs at h with hasIs hn hr ht hp
  · exact (mem_singleton.mp h).symm
  · simp [hne] at h
  · simp [hne] at h
  · simp [hne] at h
  · simpa [hne, eq_comm] using h
  · simp [hne, hhex] at h

end

theorem escapeChar_cases (c : Char) :
    (cls.printsAsIs c = true ∧ escapeChar cls c = [c]) ∨ ∃ s, escapeChar cls c = '\\' :: s := by
  rw [escapeChar]
  split_ifs with hasIs
  · exact .inl ⟨hasIs, rfl⟩
  all_goals exact .inr ⟨_, rfl⟩

theorem prefix_of_escapedChars {word chars v : Text} (hword : ∀ c ∈ word, c ≠ '\\' ∧ c ≠ '/')
    (ht : ∀ c ∈ t.head?, c = '/') (h : escapedChars cls chars ++ t = word ++ v) :
    word <+: chars ∧ ∀ c ∈ word, cls.printsAsIs c = true := by
  induction word generalizing chars with
  | nil => exact ⟨ nil_prefix, fun c hc => absurd hc not_mem_nil⟩
  | cons c word ih =>
    obtain ⟨hc, hrest⟩ := forall_mem_cons.mp hword
    cases chars with
    | nil =>
      rw [escapedChars, flatMap_nil, nil_append] at h
      rw [h] at ht
      exact absurd (ht c rfl) hc.2
    | cons d chars =>
      rw [escapedChars, flatMap_cons, ← escapedChars] at h
      rcases escapeChar_cases cls d with ⟨hasIs, heq⟩ | ⟨s, heq⟩
      · rw [heq] at h
        obtain ⟨rfl, htail⟩ := cons.inj h
        obtain ⟨hstarts, hasIs'⟩ := ih hrest htail
        exact ⟨cons_prefix_cons.mpr ⟨rfl, hstarts⟩, forall_mem_cons.mpr ⟨hasIs, hasIs'⟩⟩
      · rw [heq] at h
        exact absurd (cons.inj h).1.symm hc.1

theorem escapedChars_asIs {word : Text} (h : ∀ c ∈ word, cls.printsAsIs c = true) :
    escapedChars cls word = word := by
  induction word with
  | nil => rfl
  | cons c word ih =>
    obtain ⟨hc, hword⟩ := forall_mem_cons.mp h
    rw [escapedChars, flatMap_cons, ← escapedChars, ih hword, escapeChar, if_pos hc]
    rfl

end EntityPathPart

namespace EntityPath

open EntityPathPart

variable {cls : CharClass}

variable {parts : List String}

theorem slashed_split_sign {sign : Char} (hsign : sign ∈ ['$', '*']) {rest : Text}
    (h : slashed cls parts = u ++ sign :: rest) :
    ∃ front q back x y, parts = front ++ q :: back ∧ q.toList = x ++ sign :: y ∧
      u = slashed cls front ++ '/' :: (escapedChars cls x ++ ['\\']) ∧
      rest = escapedChars cls y ++ slashed cls back := by
  obtain ⟨front, q, back, u', rest', rfl, hq, rfl, rfl⟩ := flatMap_eq_append_cons h
  cases u' with
  | nil =>
    have hne : ∀ c ∈ ['$', '*'], c ≠ '/' := by simp
    exact absurd (cons.inj hq).1.symm (hne sign hsign)
  | cons slash u' =>
    obtain ⟨rfl, hpart⟩ := cons.inj hq
    obtain ⟨x, c, y, v, w, hchars, hc, rfl, rfl⟩ := flatMap_eq_append_cons hpart
    obtain rfl := eq_sign_of_mem cls hsign (hc.symm ▸ mem_append_right v mem_cons_self)
    rw [escapeChar_sign cls hsign] at hc
    obtain ⟨rfl, rfl⟩ : v = ['\\'] ∧ w = [] := by
      cases v with
      | nil =>
        have hne : ∀ c ∈ ['$', '*'], c ≠ '\\' := by simp
        exact absurd (cons.inj hc).1.symm (hne c hsign)
      | cons b v =>
        obtain ⟨rfl, htail⟩ := cons.inj hc
        cases v with
        | nil => exact ⟨rfl, (cons.inj htail).2.symm⟩
        | cons d v => simp at htail
    exact ⟨front, q, back, x, y, rfl, hchars, rfl, rfl⟩

theorem slashed_head (cls : CharClass) (parts : List String) : ∀ c ∈ (slashed cls parts).head?, c = '/' := by
  intro c hc
  cases parts with
  | nil => cases hc
  | cons q parts => exact (Option.some.inj hc).symm

theorem variable_of_infix_slashed {word : Text} (hword : ∀ c ∈ word, c ≠ '\\' ∧ c ≠ '/')
    (h : ('$' :: word) <:+: slashed cls parts) :
    (∃ part ∈ parts, ('$' :: word) <:+: part.toList) ∧ ∀ c ∈ word, cls.printsAsIs c = true := by
  obtain ⟨u, v, huv⟩ := h
  have hsplit : slashed cls parts = u ++ '$' :: (word ++ v) := by
    rw [← huv, append_assoc, cons_append]
  obtain ⟨front, q, back, x, y, rfl, hq, -, hrest⟩ := slashed_split_sign (by decide) hsplit
  obtain ⟨hstarts, hasIs⟩ := prefix_of_escapedChars cls hword (slashed_head cls back) hrest.symm
  refine ⟨⟨q, mem_append_right front mem_cons_self, ?_⟩, hasIs⟩
  rw [hq]
  exact (cons_prefix_cons.mpr ⟨rfl, hstarts⟩).isInfix.trans (suffix_append x _).isInfix

theorem variable_infix_slashed_iff {word : Text} (hasIs : ∀ c ∈ word, cls.printsAsIs c = true) :
    ('$' :: word) <:+: slashed cls parts ↔ ∃ part ∈ parts, ('$' :: word) <:+: part.toList := by
  constructor
  · have hword : ∀ c ∈ word, c ≠ '\\' ∧ c ≠ '/' := by
      intro c hc
      refine ⟨cls.printsAsIs_ne_backslash (hasIs c hc), ?_⟩
      rintro rfl
      exact absurd (hasIs '/' hc) (Bool.eq_false_iff.mp (printsAsIs_separator cls (by decide)))
    exact fun h => (variable_of_infix_slashed hword h).1
  · intro h
    obtain ⟨part, hpart, x, y, hxy⟩ := h
    obtain ⟨front, back, rfl⟩ := append_of_mem hpart
    refine ⟨slashed cls front ++ '/' :: (escapedChars cls x ++ ['\\']), escapedChars cls y ++ slashed cls back, ?_⟩
    have hprinted : escapedString cls part =
        escapedChars cls x ++ ['\\'] ++ ('$' :: word) ++ escapedChars cls y := by
      rw [escapedString, ← hxy]
      simp only [escapedChars, flatMap_append, flatMap_cons, @escapeChar_sign cls '$' (by decide)]
      rw [← escapedChars, ← escapedChars, ← escapedChars, escapedChars_asIs cls hasIs]
      simp
    have hslashed : slashed cls (front ++ part :: back) =
        slashed cls front ++ '/' :: (escapedString cls part ++ slashed cls back) := by
      simp [slashed]
    rw [hslashed, hprinted]
    simp

theorem not_braced_infix_slashed {word : Text} (hword : ∀ c ∈ word, c ≠ '\\' ∧ c ≠ '/') :
    ¬ ('$' :: '{' :: word) <:+: slashed cls parts := by
  intro h
  have hall : ∀ c ∈ '{' :: word, c ≠ '\\' ∧ c ≠ '/' := forall_mem_cons.mpr ⟨by decide, hword⟩
  have hbrace := (variable_of_infix_slashed hall h).2 '{' mem_cons_self
  rw [CharClass.printsAsIs, cls.ascii '{' (by decide)] at hbrace
  revert hbrace
  decide

theorem not_subtreeSuffix_slashed {rest : Text} (h : slashed cls parts = t ++ rest) : ¬ subtreeSuffix <:+ t := by
  intro hsuffix
  obtain ⟨u, rfl⟩ := hsuffix
  have hsplit : slashed cls parts = (u ++ ['/']) ++ '*' :: ('*' :: rest) := by
    rw [h, subtreeSuffix]
    simp
  obtain ⟨front, q, back, x, y, -, -, hu, -⟩ := slashed_split_sign (by decide) hsplit
  have hlast := congrArg List.getLast? hu
  rw [← cons_append, ← append_assoc, List.getLast?_concat, List.getLast?_concat] at hlast
  cases hlast

end EntityPath

end Dalaran
