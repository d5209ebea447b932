import Dalaran.Path.StrictForgiving

/-
  What the forgiving parser makes of a text that begins like that of a path.

  A part is read from its escaped characters and whatever stands before the next
  slash that is not taken for escaped. A path can only come out of its text part by
  part (`forgivingParts_peel`), and once the text leaves that of the path, behind a
  backslash, what follows does not matter any more (`forgivingParts_broken`).
-/

namespace Dalaran

open List Tokens

namespace EntityPathPart

variable (cls : CharClass)

theorem unescapeForgiving_ne_nil {t : Text} (h : t ≠ []) : (unescapeForgiving t).1 ≠ [] := by
  cases t with
  | nil => exact absurd rfl h
  | cons c input =>
    rw [unescapeForgiving.eq_def]
    dsimp only
    split
    · split
      · exact cons_ne_nil _ _
      · split_ifs
        · exact cons_ne_nil _ _
        · exact cons_ne_nil _ _
        · exact cons_ne_nil _ _
        · split
          · exact cons_ne_nil _ _
          · exact cons_ne_nil _ _
        · exact cons_ne_nil _ _
        · exact cons_ne_nil _ _
    · exact cons_ne_nil _ _

theorem unescapeForgiving_eq_append {chars t rest : Text}
    (h : (unescapeForgiving (escapedChars cls chars ++ t)).1 = chars ++ rest) :
    (∀ c ∈ chars, cls.Writable c) ∧ (unescapeForgiving t).1 = rest := by
  induction chars generalizing rest with
  | nil => exact ⟨fun c hc => absurd hc not_mem_nil, h⟩
  | cons c chars ih =>
    rw [escapedChars, flatMap_cons, append_assoc, ← escapedChars] at h
    by_cases hc : cls.Writable c
    · rw [(unescape_escapeChar cls hc _).2] at h
      obtain ⟨hchars, hrest⟩ := ih (cons.inj h).2
      exact ⟨forall_mem_cons.mpr ⟨hc, hchars⟩, hrest⟩
    · obtain ⟨other, hother⟩ := (unescape_of_not_writable cls hc (escapedChars cls chars ++ t)).2
      rw [hother] at h
      refine absurd (.inl ?_) hc
      rw [← (cons.inj h).1]
      decide

end EntityPathPart

namespace EntityPath

open EntityPathPart

def forgivingParts (input : Text) : List String := readParts (tokenizeEntityPath input)

theorem forgivingParts_nil : forgivingParts [] = [] := by
  unfold forgivingParts tokenizeEntityPath tokenizeBy
  rw [Tokens.tokenize]
  rfl

theorem forgivingParts_slash (t : Text) : forgivingParts ('/' :: t) = forgivingParts t := by
  unfold forgivingParts tokenizeEntityPath tokenizeBy
  rw [tokenize_special (by decide)]
  rfl

theorem forgivingParts_plain {s : Text} (hs : Tokens.Plain '\\' entityPathSeparators.contains false s)
    (hne : s ≠ []) (t : Text) :
    forgivingParts (s ++ t) =
      String.ofList (unescapeForgiving
        (s ++ (Tokens.scan '\\' entityPathSeparators.contains (Tokens.follows '\\' false s) t).1)).1 ::
        forgivingParts (Tokens.scan '\\' entityPathSeparators.contains (Tokens.follows '\\' false s) t).2 := by
  have hslash : ∀ z, s ++ z ≠ ['/'] := by
    intro z heq
    cases s with
    | nil => exact hne rfl
    | cons c s =>
      have hc := hs.1
      rw [(cons.inj heq).1] at hc
      exact absurd hc (by decide)
  unfold forgivingParts tokenizeEntityPath tokenizeBy readParts
  rw [tokenize_plain hs hne, filter_cons_of_pos (by simpa using hslash _)]
  rfl

theorem forgivingParts_ne_empty {t : Text} {part : String} (h : part ∈ forgivingParts t) : part ≠ "" := by
  obtain ⟨token, htoken, rfl⟩ := mem_map.mp h
  have hne : token ≠ [] := by
    rcases mem_tokenize (mem_filter.mp htoken).1 with ⟨c, -, rfl⟩ | ⟨hne, -⟩
    · exact cons_ne_nil c []
    · exact hne
  intro hempty
  exact unescapeForgiving_ne_nil hne (String.ofList_inj.mp hempty)

theorem separators_subset : ∀ c, entityPathSeparators.contains c = true → dataPathSeparators.contains c = true := by
  intro c hc
  rw [mem_singleton.mp (contains_iff_mem.mp hc)]
  decide

variable {cls : CharClass} {parts : List String}

theorem forgivingParts_peel {q : String} {t : Text} (hq : q ≠ "")
    (h : forgivingParts (escapedString cls q ++ '/' :: t) = q :: parts) :
    (∀ c ∈ q.toList, cls.Writable c) ∧ q.toList.getLast? ≠ some '\\' ∧ forgivingParts t = parts := by
  have hplain := escapedChars_plain cls separators_subset q.toList false
  have hne := escapedChars_ne_nil cls (toList_ne_nil hq)
  have hfollows := @follows_escapedChars cls q.toList (toList_ne_nil hq) false
  rw [escapedString, forgivingParts_plain hplain hne, hfollows] at h
  obtain ⟨hhead, hrest⟩ := cons.inj h
  obtain ⟨hwritable, hnone⟩ := unescapeForgiving_eq_append cls
    (((String.toList_ofList).symm.trans (congrArg String.toList hhead)).trans (append_nil _).symm)
  have hstop : q.toList.getLast? ≠ some '\\' := by
    intro hlast
    rw [hlast, decide_eq_true rfl, Tokens.scan] at hnone
    exact unescapeForgiving_ne_nil (cons_ne_nil _ _) hnone
  rw [decide_eq_false hstop, Tokens.scan, if_pos (by decide), forgivingParts_slash] at hrest
  exact ⟨hwritable, hstop, hrest⟩

theorem forgivingParts_last {q : String} (hq : q ≠ "")
    (h : forgivingParts (escapedString cls q) = q :: parts) : ∀ c ∈ q.toList, cls.Writable c := by
  have hplain := escapedChars_plain cls separators_subset q.toList false
  have hne := escapedChars_ne_nil cls (toList_ne_nil hq)
  rw [← append_nil (escapedString cls q), escapedString, forgivingParts_plain hplain hne] at h
  have hhead := (cons.inj h).1
  exact (unescapeForgiving_eq_append cls
    (((String.toList_ofList).symm.trans (congrArg String.toList hhead)).trans (append_nil _).symm)).1

theorem forgivingParts_leaves {q : String} {x y z : Text} {c : Char} (hq : q.toList = x ++ c :: y)
    (hz : z = [] ∧ c ≠ '\\' ∨ (∃ w, z = '/' :: w) ∧ c ≠ '/') :
    forgivingParts (escapedChars cls x ++ '\\' :: z) ≠ q :: parts := by
  intro h
  have hplain : Tokens.Plain '\\' entityPathSeparators.contains false (escapedChars cls x ++ ['\\']) :=
    (escapedChars_plain cls separators_subset x false).append ⟨.inr (by decide), trivial⟩
  have hfollows : Tokens.follows '\\' false (escapedChars cls x ++ ['\\']) = true := by
    rw [follows_append]
    rfl
  have hsplit : escapedChars cls x ++ '\\' :: z = (escapedChars cls x ++ ['\\']) ++ z := by simp
  rw [hsplit, forgivingParts_plain hplain (by simp), hfollows, append_assoc] at h
  have hhead := congrArg String.toList (cons.inj h).1
  rw [String.toList_ofList, hq] at hhead
  have hrest := (unescapeForgiving_eq_append cls hhead).2
  rw [singleton_append] at hrest
  rcases hz with ⟨rfl, hc⟩ | ⟨⟨w, rfl⟩, hc⟩
  · rw [Tokens.scan, unescapeForgiving.eq_def] at hrest
    exact hc (cons.inj hrest).1.symm
  · rw [Tokens.scan, if_neg (by simp), (unescape_punctuation cls (by decide) _).2] at hrest
    exact hc (cons.inj hrest).1.symm

theorem slashed_cons (cls : CharClass) (q : String) (parts : List String) :
    slashed cls (q :: parts) = '/' :: (escapedString cls q ++ slashed cls parts) := rfl

theorem printable_of_forgivingParts (hne : ∀ part ∈ parts, part ≠ "")
    (h : forgivingParts (slashed cls parts) = parts) : Printable cls parts := by
  induction parts with
  | nil =>
    exact ⟨fun part hpart => absurd hpart not_mem_nil, fun part hpart => absurd hpart not_mem_nil⟩
  | cons q parts ih =>
    obtain ⟨hq, hparts⟩ := forall_mem_cons.mp hne
    rw [slashed_cons, forgivingParts_slash] at h
    cases parts with
    | nil =>
      rw [slashed, flatMap_nil, append_nil] at h
      exact printable_singleton.mpr (forgivingParts_last hq h)
    | cons r parts =>
      obtain ⟨hwritable, hlast, hrest⟩ := forgivingParts_peel hq h
      exact printable_cons.mpr ⟨hwritable, hlast, ih hparts (by rwa [slashed_cons, forgivingParts_slash])⟩

theorem forgivingParts_slashed_iff :
    forgivingParts (slashed cls parts) = parts ↔ (∀ part ∈ parts, part ≠ "") ∧ Printable cls parts := by
  constructor
  · intro h
    have hne : ∀ part ∈ parts, part ≠ "" := fun part hpart => forgivingParts_ne_empty (h.symm ▸ hpart)
    exact ⟨hne, printable_of_forgivingParts hne h⟩
  · intro h
    obtain ⟨hne, hprintable⟩ := h
    cases parts with
    | nil => exact forgivingParts_nil
    | cons q parts => exact congrArg EntityPath.parts (readForgiving_slashed hne hprintable)

theorem forgivingParts_broken {front back : List String} {q : String} {x y z : Text} {c : Char}
    (hq : q.toList = x ++ c :: y) (hz : z = [] ∧ c ≠ '\\' ∨ (∃ w, z = '/' :: w) ∧ c ≠ '/') :
    forgivingParts (slashed cls front ++ '/' :: (escapedChars cls x ++ '\\' :: z)) ≠ front ++ q :: back := by
  induction front with
  | nil =>
    rw [slashed, flatMap_nil, nil_append, nil_append, forgivingParts_slash]
    exact forgivingParts_leaves hq hz
  | cons f front ih =>
    intro h
    have hmem : f ∈ forgivingParts (slashed cls (f :: front) ++ '/' :: (escapedChars cls x ++ '\\' :: z)) := by
      rw [h]
      exact mem_cons_self
    have hf : f ≠ "" := forgivingParts_ne_empty hmem
    obtain ⟨t, ht⟩ : ∃ t, slashed cls front ++ '/' :: (escapedChars cls x ++ '\\' :: z) = '/' :: t := by
      cases front with
      | nil => exact ⟨_, rfl⟩
      | cons g front => exact ⟨_, rfl⟩
    rw [slashed_cons, cons_append, append_assoc, forgivingParts_slash, ht] at h
    have hrest := (forgivingParts_peel hf h).2.2
    rw [← forgivingParts_slash, ← ht] at hrest
    exact ih hrest

end EntityPath

end Dalaran
