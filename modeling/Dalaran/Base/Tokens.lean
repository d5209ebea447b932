import Mathlib.Data.List.Basic
import Mathlib.Tactic.Common

/-
  Splitting a text at special elements, with an escape element in front of the
  ones that are meant literally.

  The splitter takes an element for escaped when the element right before it is the
  escape element (`follows`), a reader of the text when that escape element is not
  itself escaped (`escapes`). The two differ behind an escaped escape element, which
  `ReadsEscapes` excludes.
-/

namespace Tokens

open List

variable {α : Type} [DecidableEq α] (escape : α) (special : α → Bool)

/-! ## The splitter -/

/-- The longest beginning without a special element that is not taken for escaped, and the rest. -/
def scan : Bool → List α → List α × List α
  | _, [] => ([], [])
  | inEscape, c :: text =>
    if !inEscape && special c then ([], c :: text)
    else (c :: (scan (c == escape) text).1, (scan (c == escape) text).2)

theorem length_scan_le (inEscape : Bool) (text : List α) :
    (scan escape special inEscape text).2.length ≤ text.length := by
  induction text generalizing inEscape with
  | nil => simp [scan]
  | cons c text ih =>
    rw [scan]
    split
    · exact Nat.le_refl _
    · exact Nat.le_succ_of_le (ih (c == escape))

/-- Special elements are tokens of their own. -/
def tokenize : List α → List (List α)
  | [] => []
  | c :: text =>
    if special c then [c] :: tokenize text
    else (c :: (scan escape special (c == escape) text).1) :: tokenize (scan escape special (c == escape) text).2
termination_by text => text.length
decreasing_by
  · exact Nat.lt_succ_self _
  · exact Nat.lt_succ_of_le (length_scan_le escape special _ _)

/-- Whether an element right behind the text is taken for escaped. -/
def follows (inEscape : Bool) (text : List α) : Bool := text.foldl (fun _ c => c == escape) inEscape

/-- Whether an element right behind the text is escaped. -/
def escapes (inEscape : Bool) (text : List α) : Bool :=
  text.foldl (fun escaped c => !escaped && c == escape) inEscape

/-- No special element follows an escaped escape element. -/
def ReadsEscapes (text : List α) : Prop :=
  ∀ a c b, text = a ++ c :: b → special c = true → follows escape false a = escapes escape false a

variable {escape special}

/-! ## What it cuts -/

variable {b : Bool}

@[simp] theorem follows_nil : follows escape b [] = b := rfl

variable {text : List α} {c : α}

@[simp] theorem follows_cons : follows escape b (c :: text) = follows escape (c == escape) text := rfl

variable {s t : List α}

@[simp] theorem follows_append : follows escape b (s ++ t) = follows escape (follows escape b s) t := by
  simp [follows]

@[simp] theorem escapes_nil : escapes escape b [] = b := rfl

@[simp] theorem escapes_cons : escapes escape b (c :: text) = escapes escape (!b && c == escape) text := rfl

@[simp] theorem escapes_append : escapes escape b (s ++ t) = escapes escape (escapes escape b s) t := by
  simp [escapes]

theorem scan_append_eq (inEscape : Bool) (text : List α) :
    (scan escape special inEscape text).1 ++ (scan escape special inEscape text).2 = text := by
  induction text generalizing inEscape with
  | nil => simp [scan]
  | cons c text ih =>
    rw [scan]
    split
    · rfl
    · exact congrArg (c :: ·) (ih (c == escape))

theorem tokenize_special (h : special c = true) :
    tokenize escape special (c :: text) = [c] :: tokenize escape special text := by
  rw [tokenize, if_pos h]

theorem tokenize_ordinary (h : special c = false) :
    tokenize escape special (c :: text) = (c :: (scan escape special (c == escape) text).1) ::
      tokenize escape special (scan escape special (c == escape) text).2 := by
  rw [tokenize, if_neg (by simp [h])]

theorem flatten_tokenize (text : List α) : (tokenize escape special text).flatten = text := by
  fun_induction tokenize escape special text with
  | case1 => rfl
  | case2 c text hc ih => rw [flatten_cons, ih]; rfl
  | case3 c text hc ih =>
    rw [flatten_cons, ih, cons_append, scan_append_eq]

theorem tokenize_eq_nil_iff : tokenize escape special text = [] ↔ text = [] := by
  constructor
  · intro h
    rw [← @flatten_tokenize α _ escape special text, h]
    rfl
  · rintro rfl
    rw [tokenize]

/-! ## Text without a special element -/

def Plain (escape : α) (special : α → Bool) : Bool → List α → Prop
  | _, [] => True
  | inEscape, c :: text => (inEscape = true ∨ special c = false) ∧ Plain escape special (c == escape) text

theorem Plain.append (hs : Plain escape special b s)
    (ht : Plain escape special (follows escape b s) t) : Plain escape special b (s ++ t) := by
  induction s generalizing b with
  | nil => exact ht
  | cons c s ih => exact ⟨hs.1, ih hs.2 ht⟩

theorem Plain.of_append (h : Plain escape special b (s ++ t)) :
    Plain escape special b s ∧ Plain escape special (follows escape b s) t := by
  induction s generalizing b with
  | nil => exact ⟨trivial, h⟩
  | cons c s ih => exact ⟨⟨h.1, (ih h.2).1⟩, (ih h.2).2⟩

theorem scan_plain (inEscape : Bool) (text : List α) :
    Plain escape special inEscape (scan escape special inEscape text).1 := by
  induction text generalizing inEscape with
  | nil => simp [scan, Plain]
  | cons c text ih =>
    rw [scan]
    split
    · trivial
    · next h =>
      refine ⟨?_, ih (c == escape)⟩
      cases inEscape with
      | true => exact .inl rfl
      | false => exact .inr (by simpa using h)

theorem scan_append (hs : Plain escape special b s) (t : List α) :
    scan escape special b (s ++ t) = (s ++ (scan escape special (follows escape b s) t).1,
      (scan escape special (follows escape b s) t).2) := by
  induction s generalizing b with
  | nil => rfl
  | cons c s ih =>
    have hgo : (!b && special c) = false := by
      rcases hs.1 with h | h <;> simp [h]
    rw [cons_append, scan, hgo, if_neg Bool.false_ne_true, ih hs.2]
    rfl

theorem scan_stop {b : Bool} {text : List α} (h : (scan escape special b text).2 ≠ []) :
    ∃ c rest, (scan escape special b text).2 = c :: rest ∧ special c = true ∧
      follows escape b (scan escape special b text).1 = false := by
  induction text generalizing b with
  | nil => exact absurd rfl h
  | cons c text ih =>
    rw [scan] at h ⊢
    split
    · next hc =>
      simp only [Bool.and_eq_true, Bool.not_eq_true'] at hc
      exact ⟨c, text, rfl, hc.2, hc.1⟩
    · next hc =>
      rw [if_neg hc] at h
      exact ih h

theorem scan_of_stop (hs : Plain escape special b s) (hc : special c = true) (hb : follows escape b s = false) :
    scan escape special b (s ++ c :: t) = (s, c :: t) := by
  rw [scan_append hs, hb, scan, hc]
  simp

theorem tokenize_plain (hs : Plain escape special false s) (hne : s ≠ []) (t : List α) :
    tokenize escape special (s ++ t) = (s ++ (scan escape special (follows escape false s) t).1) ::
      tokenize escape special (scan escape special (follows escape false s) t).2 := by
  cases s with
  | nil => exact absurd rfl hne
  | cons c s =>
    have hc : special c = false := by simpa using hs.1
    rw [cons_append, tokenize_ordinary hc, scan_append hs.2]
    rfl

theorem tokenize_of_plain (h : Plain escape special false text) (hne : text ≠ []) :
    tokenize escape special text = [text] := by
  simpa [scan, tokenize] using tokenize_plain h hne []

theorem tokenize_plain_append (hs : Plain escape special false s) (hne : s ≠ []) (hc : special c = true)
    (hb : follows escape false s = false) :
    tokenize escape special (s ++ c :: t) = s :: tokenize escape special (c :: t) := by
  rw [tokenize_plain hs hne, hb, scan, hc]
  simp

variable {token : List α}

theorem mem_tokenize (h : token ∈ tokenize escape special text) :
    (∃ c, special c = true ∧ token = [c]) ∨ (token ≠ [] ∧ Plain escape special false token) := by
  fun_induction tokenize escape special text with
  | case1 => cases h
  | case2 c text hc ih =>
    rcases mem_cons.mp h with rfl | h
    · exact .inl ⟨c, hc, rfl⟩
    · exact ih h
  | case3 c text hc ih =>
    rcases mem_cons.mp h with rfl | h
    · exact .inr ⟨cons_ne_nil _ _, .inr (by simpa using hc), scan_plain _ _⟩
    · exact ih h

theorem tokenize_append (s : List α) {c : α} {t : List α} (hc : special c = true)
    (hb : follows escape false s = false) :
    tokenize escape special (s ++ c :: t) = tokenize escape special s ++ tokenize escape special (c :: t) := by
  fun_induction tokenize escape special s with
  | case1 => rfl
  | case2 d s hd ih =>
    have hrest : follows escape false s = false := by
      cases s with
      | nil => rfl
      | cons e s => exact hb
    rw [cons_append, tokenize_special hd, ih hrest]
    rfl
  | case3 d s hd ih =>
    have hd : special d = false := by simpa using hd
    have hsplit := @scan_append_eq α _ escape special (d == escape) s
    have hplain := @scan_plain α _ escape special (d == escape) s
    generalize hscan : scan escape special (d == escape) s = r at *
    obtain ⟨token, rest⟩ := r
    subst hsplit
    cases rest with
    | nil =>
      have hfollows : follows escape (d == escape) token = false := by simpa using hb
      rw [append_nil, cons_append, tokenize_ordinary hd, scan_of_stop hplain hc hfollows]
      simp [tokenize]
    | cons e rest =>
      have hstop := @scan_stop α _ escape special (d == escape) (token ++ e :: rest) (by simp [hscan])
      rw [hscan] at hstop
      obtain ⟨e', rest', heq, hspecial, hfollows⟩ := hstop
      obtain ⟨rfl, rfl⟩ := cons.inj heq
      have hrest : follows escape false (e :: rest) = false := by simpa using hb
      rw [cons_append, tokenize_ordinary hd, append_assoc, cons_append, scan_of_stop hplain hspecial hfollows]
      exact congrArg _ (ih hrest)

theorem not_mem_tokenize {narrow : α → Bool} (hnarrow : ∀ c, narrow c = true → special c = true)
    (hescape : special escape = false) {text : List α} (h : Plain escape narrow false text) {c : α}
    (hc : narrow c = true) : [c] ∉ tokenize escape special text := by
  fun_induction tokenize escape special text with
  | case1 => exact not_mem_nil
  | case2 d text hd ih =>
    have hne : (d == escape) = false := by
      rw [beq_eq_false_iff_ne]
      rintro rfl
      simp [hescape] at hd
    intro hmem
    rcases mem_cons.mp hmem with heq | hmem
    · have hd' : narrow d = false := by simpa using h.1
      rw [← (cons.inj heq).1, hc] at hd'
      cases hd'
    · exact ih (hne ▸ h.2) hmem
  | case3 d text hd ih =>
    intro hmem
    rcases mem_cons.mp hmem with heq | hmem
    · exact hd ((cons.inj heq).1 ▸ hnarrow c hc)
    · refine ih ?_ hmem
      generalize hscan : scan escape special (d == escape) text = r
      obtain ⟨token, rest⟩ := r
      have hsplit := @scan_append_eq α _ escape special (d == escape) text
      rw [hscan] at hsplit
      subst hsplit
      cases rest with
      | nil => trivial
      | cons e rest =>
        have hstop := @scan_stop α _ escape special (d == escape) (token ++ e :: rest) (by simp [hscan])
        rw [hscan] at hstop
        obtain ⟨_, _, -, -, hfollows⟩ := hstop
        have hrest := (h.2.of_append).2
        rwa [hfollows] at hrest

/-! ## Pieces of what it cuts -/

theorem Plain.mono {narrow : α → Bool} (hnarrow : ∀ c, narrow c = true → special c = true)
    (h : Plain escape special b text) : Plain escape narrow b text := by
  induction text generalizing b with
  | nil => trivial
  | cons c text ih =>
    refine ⟨h.1.imp_right fun hc => ?_, ih h.2⟩
    exact Bool.eq_false_iff.mpr fun hn => Bool.eq_false_iff.mp hc (hnarrow c hn)

theorem tokenize_narrow {narrow : α → Bool} (hnarrow : ∀ c, narrow c = true → special c = true)
    (h : ∀ c, special c = true → [c] ∈ tokenize escape special text → narrow c = true) :
    tokenize escape narrow text = tokenize escape special text := by
  have hordinary : ∀ {c}, special c = false → narrow c = false := by
    intro c hc
    exact Bool.eq_false_iff.mpr fun hn => Bool.eq_false_iff.mp hc (hnarrow c hn)
  fun_induction tokenize escape special text with
  | case1 => rw [tokenize]
  | case2 d text hd ih =>
    rw [tokenize_special (h d hd mem_cons_self), ih fun c hc hmem => h c hc (mem_cons_of_mem _ hmem)]
  | case3 d text hd ih =>
    have hscan : scan escape narrow (d == escape) text = scan escape special (d == escape) text := by
      have hplain := @scan_plain α _ escape special (d == escape) text
      have hsplit := @scan_append_eq α _ escape special (d == escape) text
      have hstop := @scan_stop α _ escape special (d == escape) text
      generalize scan escape special (d == escape) text = r at hplain hsplit hstop h
      obtain ⟨token, rest⟩ := r
      rw [← hsplit]
      cases rest with
      | nil =>
        rw [scan_append (hplain.mono hnarrow)]
        simp [scan]
      | cons e rest =>
        obtain ⟨e', rest', heq, hspecial, hfollows⟩ := hstop (cons_ne_nil e rest)
        obtain ⟨rfl, rfl⟩ := cons.inj heq
        refine scan_of_stop (hplain.mono hnarrow) (h e hspecial ?_) hfollows
        rw [tokenize_special hspecial]
        exact mem_cons_of_mem _ mem_cons_self
    rw [tokenize_ordinary (hordinary (by simpa using hd)), hscan,
      ih fun c hc hmem => h c hc (mem_cons_of_mem _ hmem)]

theorem tokenize_eq_cons {tokens : List (List α)} (hescape : special escape = false)
    (h : tokenize escape special text = token :: tokens) :
    ∃ rest, text = token ++ rest ∧ tokenize escape special rest = tokens ∧
      ((∃ c, special c = true ∧ token = [c]) ∨
        Plain escape special false token ∧ ∀ c ∈ rest.head?, special c = true) ∧
      (rest ≠ [] → follows escape false token = false) := by
  cases text with
  | nil => simp [tokenize] at h
  | cons c text =>
    cases hc : special c with
    | true =>
      rw [tokenize_special hc] at h
      obtain ⟨rfl, rfl⟩ := cons.inj h
      refine ⟨text, rfl, rfl, .inl ⟨c, hc, rfl⟩, fun _ => ?_⟩
      rw [follows_cons, follows_nil, beq_eq_false_iff_ne]
      rintro rfl
      simp [hescape] at hc
    | false =>
      rw [tokenize_ordinary hc] at h
      obtain ⟨rfl, rfl⟩ := cons.inj h
      refine ⟨_, ?_, rfl, .inr ⟨⟨.inr hc, scan_plain _ _⟩, ?_⟩, ?_⟩
      · rw [cons_append, scan_append_eq]
      · intro d hd
        have hne : (scan escape special (c == escape) text).2 ≠ [] := by
          rintro hnil
          simp [hnil] at hd
        obtain ⟨e, rest, heq, he, -⟩ := scan_stop hne
        rw [heq] at hd
        cases hd
        exact he
      · intro hne
        obtain ⟨_, _, -, -, hfollows⟩ := scan_stop hne
        exact hfollows

theorem tokenize_suffix (hescape : special escape = false) {text : List α} {front back : List (List α)}
    (h : tokenize escape special text = front ++ back) : tokenize escape special back.flatten = back := by
  induction front generalizing text with
  | nil =>
    rw [nil_append] at h
    rw [← h, flatten_tokenize]
  | cons token front ih =>
    obtain ⟨rest, -, hrest, -⟩ := tokenize_eq_cons hescape h
    exact ih hrest

theorem tokenize_front {narrow : α → Bool} (hnarrow : ∀ c, narrow c = true → special c = true)
    (hescape : special escape = false) {text : List α} {front back : List (List α)}
    (h : tokenize escape special text = front ++ back) (hfront : ∀ c, narrow c = true → [c] ∉ front) :
    Plain escape narrow false front.flatten ∧ (back ≠ [] → follows escape false front.flatten = false) := by
  induction front generalizing text with
  | nil => exact ⟨trivial, fun _ => rfl⟩
  | cons token front ih =>
    obtain ⟨rest, htext, hrest, htoken, hfollows⟩ := tokenize_eq_cons hescape h
    obtain ⟨hplain, hback⟩ := ih hrest fun c hc hmem => hfront c hc (mem_cons_of_mem _ hmem)
    have hfirst : Plain escape narrow false token := by
      rcases htoken with ⟨c, hc, rfl⟩ | ⟨hplain, -⟩
      · refine ⟨.inr (Bool.eq_false_iff.mpr fun hn => ?_), trivial⟩
        exact hfront c hn mem_cons_self
      · exact hplain.mono hnarrow
    rw [flatten_cons]
    by_cases hnil : rest = []
    · rw [hnil, tokenize] at hrest
      have hnone : front ++ back = [] := hrest.symm
      rw [(append_eq_nil_iff.mp hnone).1, (append_eq_nil_iff.mp hnone).2]
      exact ⟨by simpa using hfirst, fun hne => absurd rfl hne⟩
    · rw [follows_append, hfollows hnil]
      exact ⟨hfirst.append (by rwa [hfollows hnil]), hback⟩

theorem tokenize_adjacent (hescape : special escape = false) {text token next : List α}
    {front back : List (List α)} (h : tokenize escape special text = front ++ token :: next :: back) :
    (∃ c, special c = true ∧ token = [c]) ∨ ∃ c, special c = true ∧ next = [c] := by
  have hrest := tokenize_suffix hescape h
  obtain ⟨rest, -, hnext, htoken, -⟩ := tokenize_eq_cons hescape hrest
  rcases htoken with hspecial | ⟨-, hhead⟩
  · exact .inl hspecial
  · obtain ⟨rest', hsplit, -, hnext', -⟩ := tokenize_eq_cons hescape hnext
    rcases hnext' with hspecial | ⟨hplain, -⟩
    · exact .inr hspecial
    · cases next with
      | nil =>
        have hmem : ([] : List α) ∈ tokenize escape special text := by simp [h]
        rcases mem_tokenize hmem with ⟨c, -, hc⟩ | ⟨hne, -⟩
        · cases hc
        · exact absurd rfl hne
      | cons c next =>
        have hc : special c = true := hhead c (by simp [hsplit])
        exact absurd hc (by simpa using hplain.1)

theorem getLast?_tokenize (hescape : special escape = false)
    (h : (tokenize escape special text).getLast? = some [c]) :
    ∃ a, text = a ++ [c] ∧ follows escape false a = false := by
  obtain ⟨front, hfront⟩ := List.getLast?_eq_some_iff.mp h
  refine ⟨front.flatten, ?_, ?_⟩
  · rw [← @flatten_tokenize α _ escape special text, hfront]
    simp
  · refine (@tokenize_front α _ escape special (fun _ => false) ?_ hescape text front [[c]] hfront ?_).2 ?_
    · intro c hc
      cases hc
    · intro c hc
      cases hc
    · exact cons_ne_nil _ _

theorem ReadsEscapes.piece {a text b : List α} (h : ReadsEscapes escape special (a ++ text ++ b))
    (hfollows : follows escape false a = false) (hescapes : escapes escape false a = false) :
    ReadsEscapes escape special text := by
  intro front c back heq hc
  have hwhole := h (a ++ front) c (back ++ b) (by simp [heq]) hc
  rwa [follows_append, escapes_append, hfollows, hescapes] at hwhole

end Tokens
