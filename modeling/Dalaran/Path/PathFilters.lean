import Mathlib.Data.List.DropRight
import Dalaran.Path.Misread
import Dalaran.Path.Substitution
import Dalaran.Path.Subtree

/-
  Filters built from a path (`entity_path_filter.rs`).

  A path is printed into the text of a rule. When the filter is resolved the text is
  trimmed, the origin is put in for its variable, the suffix of a subtree is taken
  off, and what is left is parsed.

  Printing puts a backslash in front of a space and of a dollar sign. Trimming takes
  the space and leaves its backslash (`trim_display_space`), and putting in the
  origin takes the dollar sign and leaves its
  (`Carries.substituteVariables_broken`). Where nothing of this happens the filter
  is for the path if its text is read back (`pathFilters_match_iff`).
-/

namespace Dalaran

open List Option EntityPath EntityPathFilter ResolvedEntityPathFilter EntityPathRule

/-! ## The filters -/

namespace EntityPathSubs

def empty : EntityPathSubs := []

def originName : Text := ['o', 'r', 'i', 'g', 'i', 'n']

def newWithOrigin (cls : CharClass) (origin : EntityPath) : EntityPathSubs := [(originName, origin.display cls)]

/-- The substitutions that can be made: none, or those of an origin. -/
def ofOrigin (cls : CharClass) : Option EntityPath → EntityPathSubs
  | none => empty
  | some origin => newWithOrigin cls origin

end EntityPathSubs

namespace EntityPathFilter

def addExactEntity (cls : CharClass) (f : EntityPathFilter) (path : EntityPath) : EntityPathFilter :=
  ⟨f.rules.insert (EntityPathRule.exactEntity cls path) .includes⟩

def addEntitySubtree (cls : CharClass) (f : EntityPathFilter) (entityPath : EntityPath) : EntityPathFilter :=
  ⟨f.rules.insert (EntityPathRule.includingEntitySubtree cls entityPath) .includes⟩

def singleEntityFilter (cls : CharClass) (entityPath : EntityPath) : EntityPathFilter :=
  addExactEntity cls ⟨.empty⟩ entityPath

def subtreeEntityFilter (cls : CharClass) (entityPath : EntityPath) : EntityPathFilter :=
  addEntitySubtree cls ⟨.empty⟩ entityPath

end EntityPathFilter

/-! ## Filters of one rule -/

section

variable [NaturalOrder]

open ResolvedEntityPathFilter

/-- A filter that has one rule, which includes, besides the default. -/
def ResolvedEntityPathFilter.IsOnly (f : ResolvedEntityPathFilter) (rule : ResolvedEntityPathRule) : Prop :=
  ∀ e, e ∈ f.rules.entries ↔ e = (rule, .includes) ∨
    e = (ResolvedEntityPathRule.properties, .excludes) ∧ rule ≠ ResolvedEntityPathRule.properties

theorem EntityPathFilter.resolveForgiving_isOnly (parse : Text → EntityPath) (env : EntityPathSubs)
    (rule : EntityPathRule) :
    ((EntityPathFilter.mk (OrdMap.empty.insert rule .includes)).resolveForgiving parse env).IsOnly
      (ResolvedEntityPathRule.parseForgiving parse env rule) := by
  intro e
  have hentries : (OrdMap.ofList (((OrdMap.empty (κ := EntityPathRule)).insert rule RuleEffect.includes).entries.map
      fun e => (ResolvedEntityPathRule.parseForgiving parse env e.1, e.2))).entries =
      [(ResolvedEntityPathRule.parseForgiving parse env rule, .includes)] := rfl
  rw [EntityPathFilter.resolveForgiving, OrdMap.mem_orInsert, hentries]
  simp only [mem_singleton, Prod.mk.injEq, not_and]
  refine or_congr_right (and_congr_right fun _ => ⟨fun h heq => h .includes heq.symm rfl, fun h w heq => ?_⟩)
  exact absurd heq.symm h

namespace ResolvedEntityPathFilter

variable {f : ResolvedEntityPathFilter} {rule : ResolvedEntityPathRule}

theorem IsOnly.matchesPath_iff (h : f.IsOnly rule) {q : EntityPath} : f.matchesPath q = true ↔
    rule.matchesPath q = true ∧ (rule ≠ ResolvedEntityPathRule.properties →
      q.startsWith ResolvedEntityPathRule.properties.resolvedPath = true →
      ResolvedEntityPathRule.properties.resolvedPath.parts.length < rule.resolvedPath.parts.length ∨
        ResolvedEntityPathRule.properties.resolvedPath = rule.resolvedPath ∧ rule.includeSubtree = false) := by
  rw [matchesPath_eq_true_iff]
  simp only [lastMatch_iff_isMostSpecific]
  constructor
  · intro hmatch
    obtain ⟨r, hspecific⟩ := hmatch
    rcases (h _).mp hspecific.mem with heq | ⟨heq, -⟩
    · obtain rfl := (Prod.mk.inj heq).1
      refine ⟨hspecific.matchesPath, fun hne hq => ?_⟩
      rcases hspecific.wins _ ((h _).mpr (.inr ⟨rfl, hne⟩)) hq hne.symm with hlength | ⟨hpath, -, hexact⟩
      · exact .inl hlength
      · exact .inr ⟨hpath, hexact⟩
    · cases (Prod.mk.inj heq).2
  · intro hmatch
    obtain ⟨hmatch, hwins⟩ := hmatch
    refine ⟨rule, (h _).mpr (.inl rfl), hmatch, fun other hother hothers hne => ?_⟩
    rcases (h _).mp hother with rfl | ⟨rfl, hrule⟩
    · exact absurd rfl hne
    · exact (hwins hrule hothers).imp_right fun hpath => ⟨hpath.1, rfl, hpath.2⟩

theorem IsOnly.matchesPath_exact {path : EntityPath} (h : f.IsOnly ⟨path, false⟩) {q : EntityPath} :
    f.matchesPath q = true ↔ q = path := by
  rw [h.matchesPath_iff]
  have hexact : ResolvedEntityPathRule.matchesPath ⟨path, false⟩ q = true ↔ q = path := decide_eq_true_iff
  rw [hexact]
  refine ⟨fun hmatch => hmatch.1, fun heq => ⟨heq, fun _ hq => ?_⟩⟩
  subst heq
  have hstart := startsWith_iff.mp hq
  rcases hstart.length_le.lt_or_eq with hlt | hlength
  · exact .inl hlt
  · exact .inr ⟨eq_of_parts (hstart.eq_of_length hlength), rfl⟩

/-- The paths in the subtree, but for the properties if the subtree is not in theirs. -/
def InSubtree (path q : EntityPath) : Prop :=
  q.startsWith path = true ∧
    (q.startsWith ResolvedEntityPathRule.properties.resolvedPath = true →
      path.startsWith ResolvedEntityPathRule.properties.resolvedPath = true)

theorem IsOnly.matchesPath_subtree {path : EntityPath} (h : f.IsOnly ⟨path, true⟩) {q : EntityPath} :
    f.matchesPath q = true ↔ InSubtree path q := by
  rw [h.matchesPath_iff]
  refine and_congr_right fun hmatch => ?_
  have hpath : path.parts <+: q.parts := startsWith_iff.mp hmatch
  constructor
  · intro hwins hq
    by_cases hne : (⟨path, true⟩ : ResolvedEntityPathRule) = ResolvedEntityPathRule.properties
    · rw [← hne]
      exact startsWith_iff.mpr (prefix_refl _)
    · rcases hwins hne hq with hlength | ⟨-, hexact⟩
      · exact startsWith_iff.mpr (prefix_of_prefix_length_le (startsWith_iff.mp hq) hpath hlength.le)
      · cases hexact
  · intro hinside hne hq
    have hstart := startsWith_iff.mp (hinside hq)
    refine .inl (lt_of_le_of_ne hstart.length_le fun hlength => hne ?_)
    rw [← eq_of_parts (hstart.eq_of_length hlength)]
    rfl

omit [NaturalOrder] in
theorem inSubtree_self (path : EntityPath) : InSubtree path path :=
  ⟨startsWith_iff.mpr (prefix_refl _), id⟩

omit [NaturalOrder] in
theorem eq_of_inSubtree {path path' : EntityPath} (h : ∀ q, InSubtree path q ↔ InSubtree path' q) :
    path = path' := by
  have hle := startsWith_iff.mp ((h path).mp (inSubtree_self path)).1
  have hge := startsWith_iff.mp ((h path').mpr (inSubtree_self path')).1
  exact eq_of_parts (hge.eq_of_length (le_antisymm hge.length_le hle.length_le))

end ResolvedEntityPathFilter

end

/-! ## The text that is parsed -/

namespace ResolvedEntityPathRule

/-- The text of a rule's path: variables are put in, and the suffix of a subtree is taken off. -/
def pathText (env : EntityPathSubs) (rule : EntityPathRule) : Text :=
  (stripSuffix (substituteVariables rule env) subtreeSuffix).getD (substituteVariables rule env)

theorem parseForgiving_eq {parse : Text → EntityPath} {env : EntityPathSubs} {expression : Text}
    (h : substituteVariables (EntityPathRule.new expression) env ≠ subtreeSuffix) :
    parseForgiving parse env expression =
      ⟨parse (pathText env (EntityPathRule.new expression)), (EntityPathRule.new expression).includeSubtree⟩ := by
  unfold parseForgiving pathText
  simp only [if_neg h]
  cases stripSuffix (substituteVariables (EntityPathRule.new expression) env) subtreeSuffix with
  | none => rfl
  | some path => rfl

theorem stripSuffix_append (t suffix : Text) : stripSuffix (t ++ suffix) suffix = some t := by
  rw [stripSuffix, if_pos (isSuffixOf_iff_suffix.mpr (suffix_append t suffix)), length_append,
    Nat.add_sub_cancel, take_left]

theorem stripSuffix_of_not_suffix {t suffix : Text} (h : ¬ suffix <:+ t) : stripSuffix t suffix = none :=
  if_neg fun hsuffix => h (isSuffixOf_iff_suffix.mp hsuffix)

theorem stripSuffix_slash (u w : Text) :
    (stripSuffix (u ++ '/' :: w) subtreeSuffix).getD (u ++ '/' :: w) = u ∨
      ∃ v, (stripSuffix (u ++ '/' :: w) subtreeSuffix).getD (u ++ '/' :: w) = u ++ '/' :: v := by
  by_cases hsuffix : subtreeSuffix <:+ u ++ '/' :: w
  · obtain ⟨t, ht⟩ := hsuffix
    rw [← ht, stripSuffix_append, getD_some]
    rcases append_eq_append_iff.mp ht with ⟨a, rfl, hrest⟩ | ⟨a, rfl, hrest⟩
    · cases a with
      | nil => exact .inl (append_nil t).symm
      | cons b a =>
        have hmem : '/' ∈ ['*', '*'] := by
          rw [(cons.inj hrest).2]
          exact mem_append_right a mem_cons_self
        exact absurd hmem (by decide)
    · cases a with
      | nil => exact .inl (append_nil u)
      | cons b a => exact .inr ⟨a, by rw [(cons.inj hrest).1]⟩
  · rw [stripSuffix_of_not_suffix hsuffix, getD_none]
    exact .inr ⟨w, rfl⟩

end ResolvedEntityPathRule

/-! ## Putting in the origin -/

namespace EntityPath

open EntityPathPart EntityPathSubs ResolvedEntityPathRule

def NamesOrigin (parts : List String) : Prop := ∃ part ∈ parts, ('$' :: originName) <:+: part.toList

/-- A text that has the variables of a printed path, where they are printed. -/
structure Carries (cls : CharClass) (parts : List String) (t : Text) : Prop where
  split : ∀ u v, t = u ++ '$' :: v → ∃ rest, slashed cls parts = u ++ '$' :: rest
  infix_iff : ∀ word : Text, '/' ∉ word → ' ' ∉ word → (('$' :: word) <:+: t ↔ ('$' :: word) <:+: slashed cls parts)

variable {cls : CharClass} {parts : List String} {t : Text}

theorem infix_append_cons {pattern u v : Text} {c : Char} (hc : c ∉ pattern) :
    pattern <:+: u ++ c :: v ↔ pattern <:+: u ∨ pattern <:+: v := by
  constructor
  · intro h
    rcases infix_append_iff.mp h with h | h | ⟨l, r, rfl, hl, hr⟩
    · exact .inl h
    · rcases infix_cons_iff.mp h with h | h
      · cases pattern with
        | nil => exact .inl nil_infix
        | cons d pattern => exact absurd ((cons_prefix_cons.mp h).1 ▸ mem_cons_self) hc
      · exact .inr h
    · cases r with
      | nil => exact .inl ((append_nil l).symm ▸ hl.isInfix)
      | cons d r =>
        rw [(cons_prefix_cons.mp hr).1] at hc
        exact absurd (mem_append_right l mem_cons_self) hc
  · intro h
    rcases h with h | h
    · exact h.trans (prefix_append u _).isInfix
    · exact (infix_cons h).trans (suffix_append u _).isInfix

theorem Carries.display (p : EntityPath) : Carries cls p.parts (p.display cls) := by
  rw [EntityPath.display]
  split_ifs with hroot
  · rw [hroot]
    refine ⟨fun u v h => ?_, fun word _ _ => ⟨fun h => ?_, fun h => ?_⟩⟩
    · have hmem : '$' ∈ ['/'] := h ▸ mem_append_right u mem_cons_self
      exact absurd hmem (by decide)
    · exact absurd (h.subset mem_cons_self) (by decide)
    · cases infix_nil.mp h
  · exact ⟨fun u v h => ⟨v, h⟩, fun word _ _ => Iff.rfl⟩

theorem Carries.trimmed (h : slashed cls parts = t ++ [' ']) : Carries cls parts t := by
  refine ⟨fun u v hsplit => ⟨v ++ [' '], by rw [h, hsplit, append_assoc, cons_append]⟩, fun word _ hspace => ?_⟩
  have hpattern : ' ' ∉ '$' :: word := not_mem_cons_of_ne_of_not_mem (by decide) hspace
  rw [h, infix_append_cons hpattern]
  refine ⟨fun hoccurs => .inl hoccurs, fun hoccurs => hoccurs.resolve_right fun hnil => ?_⟩
  cases infix_nil.mp hnil

theorem Carries.subtree (h : Carries cls parts t) : Carries cls parts (t ++ subtreeSuffix) := by
  refine ⟨fun u v hsplit => ?_, fun word hslash hspace => ?_⟩
  · rcases append_eq_append_iff.mp hsplit with ⟨a, rfl, hrest⟩ | ⟨a, rfl, hrest⟩
    · have hmem : '$' ∈ subtreeSuffix := hrest ▸ mem_append_right a mem_cons_self
      exact absurd hmem (by decide)
    · cases a with
      | nil => exact absurd (cons.inj hrest).1 (by decide)
      | cons d a =>
        rw [← (cons.inj hrest).1] at h
        exact h.split u a rfl
  · have hpattern : '/' ∉ '$' :: word := not_mem_cons_of_ne_of_not_mem (by decide) hslash
    rw [subtreeSuffix, infix_append_cons hpattern, h.infix_iff word hslash hspace]
    refine ⟨fun hoccurs => hoccurs.resolve_right fun hstars => ?_, fun hoccurs => .inl hoccurs⟩
    exact absurd (hstars.subset mem_cons_self) (by decide)

theorem originName_printsAsIs (cls : CharClass) : ∀ c ∈ originName, cls.printsAsIs c = true := by
  have hall : ∀ c ∈ originName, c.toNat < 128 ∧ c.isAlphanum = true := by simp [originName]
  intro c hc
  obtain ⟨hascii, halnum⟩ := hall c hc
  rw [CharClass.printsAsIs, cls.ascii c hascii, halnum]
  rfl

theorem Carries.origin_iff (h : Carries cls parts t) : ('$' :: originName) <:+: t ↔ NamesOrigin parts := by
  rw [h.infix_iff originName (by decide) (by decide)]
  exact variable_infix_slashed_iff (originName_printsAsIs cls)

theorem Carries.not_braced (h : Carries cls parts t) : ¬ ('$' :: '{' :: (originName ++ ['}'])) <:+: t := by
  rw [h.infix_iff _ (by decide) (by decide)]
  exact not_braced_infix_slashed (by simp [originName])

theorem substituteVariables_newWithOrigin (t : Text) (origin : EntityPath) :
    substituteVariables t (newWithOrigin cls origin) =
      replace (replace t ('$' :: originName) (origin.display cls)) ('$' :: '{' :: (originName ++ ['}']))
        (origin.display cls) := rfl

theorem Carries.substituteVariables_eq (h : Carries cls parts t) {origin : Option EntityPath}
    (hnames : origin ≠ none → ¬ NamesOrigin parts) : substituteVariables t (ofOrigin cls origin) = t := by
  cases origin with
  | none => rfl
  | some origin =>
    have horigin : ¬ ('$' :: originName) <:+: t := fun hoccurs =>
      hnames (some_ne_none origin) (h.origin_iff.mp hoccurs)
    rw [ofOrigin, substituteVariables_newWithOrigin, replace_of_not_occurs horigin,
      replace_of_not_occurs h.not_braced]

theorem display_eq_cons (cls : CharClass) (p : EntityPath) : ∃ s, p.display cls = '/' :: s := by
  obtain ⟨parts⟩ := p
  cases parts with
  | nil => exact ⟨[], rfl⟩
  | cons q parts => exact ⟨_, rfl⟩

theorem Carries.substituteVariables_broken (h : Carries cls parts t) (hnames : NamesOrigin parts)
    (origin : EntityPath) : ∃ front q back x y w, parts = front ++ q :: back ∧ q.toList = x ++ '$' :: y ∧
      substituteVariables t (newWithOrigin cls origin) =
        (slashed cls front ++ '/' :: (escapedChars cls x ++ ['\\'])) ++ '/' :: w := by
  obtain ⟨u, v, rfl, hreplace⟩ :=
    replace_of_occurs (cons_ne_nil _ _) (h.origin_iff.mpr hnames) (origin.display cls)
  obtain ⟨rest, hslashed⟩ := h.split u (originName ++ v) rfl
  obtain ⟨front, q, back, x, y, hparts, hq, hu, -⟩ := slashed_split_sign (by decide) hslashed
  obtain ⟨s, hs⟩ := display_eq_cons cls origin
  have hbraced : ¬ ('$' :: '{' :: (originName ++ ['}'])) <:+: u := by
    intro hoccurs
    have hwhole := hoccurs.trans (prefix_append u ('$' :: rest)).isInfix
    rw [← hslashed] at hwhole
    exact not_braced_infix_slashed (by simp [originName]) hwhole
  rw [hs] at hreplace
  obtain ⟨w, hkept⟩ : ∃ w, replace (u ++ '/' :: (s ++ replace v ('$' :: originName) ('/' :: s)))
      ('$' :: '{' :: (originName ++ ['}'])) ('/' :: s) = u ++ '/' :: w :=
    ⟨_, replace_append_cons (by decide) hbraced _ _ (cons_ne_nil _ _)⟩
  refine ⟨front, q, back, x, y, w, hparts, hq, ?_⟩
  rw [← hu, substituteVariables_newWithOrigin, hs, hreplace, cons_append, hkept]

theorem Carries.forgivingParts_ne (h : Carries cls parts t) (hnames : NamesOrigin parts) (origin : EntityPath) :
    substituteVariables t (newWithOrigin cls origin) ≠ subtreeSuffix ∧
      forgivingParts (pathText (newWithOrigin cls origin) t) ≠ parts := by
  obtain ⟨front, q, back, x, y, w, rfl, hq, hsub⟩ := h.substituteVariables_broken hnames origin
  rw [pathText, hsub]
  constructor
  · intro heq
    have hmem : '\\' ∈ subtreeSuffix := by
      rw [← heq]
      simp
    exact absurd hmem (by decide)
  · rcases stripSuffix_slash (slashed cls front ++ '/' :: (escapedChars cls x ++ ['\\'])) w with heq | ⟨v, heq⟩
    · rw [heq]
      exact forgivingParts_broken hq (.inl ⟨rfl, by decide⟩)
    · rw [heq]
      have hbroken :=
        @forgivingParts_broken cls front back q x y ('/' :: v) '$' hq (.inr ⟨⟨v, rfl⟩, by decide⟩)
      simpa using hbroken

end EntityPath

/-! ## Trimming -/

theorem trim_eq_self {t : Text} (hfirst : ∀ c ∈ t.head?, isWhitespace c = false)
    (hlast : ∀ c ∈ t.getLast?, isWhitespace c = false) : trim t = t := by
  cases t with
  | nil => rfl
  | cons c t =>
    have hc : isWhitespace c = false := hfirst c rfl
    have hdrop : (c :: t).dropWhile isWhitespace = c :: t := dropWhile_cons_of_neg (Bool.eq_false_iff.mp hc)
    rw [trim, hdrop]
    refine rdropWhile_eq_self_iff.mpr fun hne => Bool.eq_false_iff.mp (hlast _ ?_)
    exact getLast_mem_getLast? hne

theorem trim_concat_space {t : Text} (hfirst : ∃ c ∈ t.head?, isWhitespace c = false)
    (hlast : ∀ c ∈ t.getLast?, isWhitespace c = false) : trim (t ++ [' ']) = t := by
  obtain ⟨c, hc, hfirst⟩ := hfirst
  have hself : trim t = t := trim_eq_self (fun d hd => mem_unique hc hd ▸ hfirst) hlast
  cases t with
  | nil => cases hc
  | cons d t =>
    obtain rfl := some.inj hc
    have hdrop : ∀ s, (d :: s).dropWhile isWhitespace = d :: s := fun s =>
      dropWhile_cons_of_neg (Bool.eq_false_iff.mp hfirst)
    rw [trim, hdrop] at hself
    rw [cons_append, trim, hdrop, ← cons_append]
    exact (rdropWhile_concat_pos _ _ _ (by decide)).trans hself

theorem isWhitespace_of_punctuation {c : Char} (h : isAsciiPunctuation c = true) : isWhitespace c = false := by
  simp only [isAsciiPunctuation, isWhitespace, Bool.or_eq_true, Bool.and_eq_true, Bool.or_eq_false_iff,
    Bool.and_eq_false_iff, decide_eq_true_eq, decide_eq_false_iff_not, beq_eq_false_iff_ne] at h ⊢
  omega

namespace EntityPath

open EntityPathPart EntityPathSubs ResolvedEntityPathRule

variable {cls : CharClass} (hcls : ∀ c, cls.isAlphanumeric c = true → isWhitespace c = false)

include hcls

theorem escapeChar_last {c : Char} (hc : c ≠ ' ') :
    ∃ s d, escapeChar cls c = s ++ [d] ∧ isWhitespace d = false := by
  have hsymbol : ∀ d ∈ ['_', '-', '.'], isWhitespace d = false := by simp [isWhitespace]
  rw [escapeChar]
  split_ifs with hasIs hn hr ht hp
  · refine ⟨[], c, rfl, ?_⟩
    exact (Bool.or_eq_true_iff.mp hasIs).elim (hcls c) fun hmem => hsymbol c (contains_iff_mem.mp hmem)
  · exact ⟨['\\'], 'n', rfl, by decide⟩
  · exact ⟨['\\'], 'r', rfl, by decide⟩
  · exact ⟨['\\'], 't', rfl, by decide⟩
  · refine ⟨['\\'], c, rfl, isWhitespace_of_punctuation ?_⟩
    exact (Bool.or_eq_true_iff.mp hp).resolve_right fun hspace => hc (beq_iff_eq.mp hspace)
  · exact ⟨'\\' :: 'u' :: '{' :: hex04 c.toNat, '}', rfl, by decide⟩

def EndsInSpace (parts : List String) : Prop := ∃ front q x, parts = front ++ [q] ∧ q.toList = x ++ [' ']

theorem display_last {p : EntityPath} (h : ¬ EndsInSpace p.parts) :
    ∀ c ∈ (p.display cls).getLast?, isWhitespace c = false := by
  obtain ⟨s, d, hdisplay, hd⟩ : ∃ s d, p.display cls = s ++ [d] ∧ isWhitespace d = false := by
    rw [display]
    split_ifs with hroot
    · exact ⟨[], '/', rfl, by decide⟩
    · obtain ⟨front, q, hparts⟩ := (eq_nil_or_concat' p.parts).resolve_left hroot
      rw [hparts, flatMap_append, flatMap_singleton]
      rcases eq_nil_or_concat' q.toList with hempty | ⟨x, c, hq⟩
      · rw [escapedString, hempty]
        exact ⟨_, '/', rfl, by decide⟩
      · have hc : c ≠ ' ' := by
          rintro rfl
          exact h ⟨front, q, x, hparts, hq⟩
        obtain ⟨s, d, hescape, hd⟩ := escapeChar_last hcls hc
        refine ⟨front.flatMap (fun part => '/' :: escapedString cls part) ++ '/' :: (escapedChars cls x ++ s), d,
          ?_, hd⟩
        rw [escapedString, hq, escapedChars, flatMap_append, flatMap_singleton, hescape, ← escapedChars]
        simp
  intro c hc
  rw [hdisplay, List.getLast?_concat] at hc
  rw [← some.inj hc]
  exact hd

omit hcls in
theorem trim_slash {s : Text} (hlast : ∀ c ∈ ('/' :: s).getLast?, isWhitespace c = false) :
    trim ('/' :: s) = '/' :: s :=
  trim_eq_self (fun c hc => some.inj hc ▸ by decide) hlast

theorem trim_display {p : EntityPath} (h : ¬ EndsInSpace p.parts) : trim (p.display cls) = p.display cls := by
  have hlast := display_last hcls h
  obtain ⟨s, hs⟩ := display_eq_cons cls p
  rw [hs] at hlast ⊢
  exact trim_slash hlast

omit hcls in
theorem trim_display_subtree (p : EntityPath) :
    trim (p.display cls ++ subtreeSuffix) = p.display cls ++ subtreeSuffix := by
  obtain ⟨s, hs⟩ := display_eq_cons cls p
  have hlast : ∀ c ∈ (p.display cls ++ subtreeSuffix).getLast?, isWhitespace c = false := by
    intro c hc
    rw [List.getLast?_append] at hc
    rw [← some.inj hc]
    decide
  rw [hs] at hlast ⊢
  exact trim_slash hlast

omit hcls in
theorem trim_display_space {p : EntityPath} {front : List String} {q : String} {x : Text}
    (hparts : p.parts = front ++ [q]) (hq : q.toList = x ++ [' ']) :
    slashed cls p.parts = (slashed cls front ++ '/' :: (escapedChars cls x ++ ['\\'])) ++ [' '] ∧
      trim (p.display cls) = slashed cls front ++ '/' :: (escapedChars cls x ++ ['\\']) := by
  have hspace : escapeChar cls ' ' = ['\\', ' '] := by
    rw [escapeChar, CharClass.printsAsIs, cls.ascii ' ' (by decide)]
    rfl
  have hslashed : slashed cls p.parts = (slashed cls front ++ '/' :: (escapedChars cls x ++ ['\\'])) ++ [' '] := by
    rw [hparts, slashed, flatMap_append, flatMap_singleton, escapedString, hq, escapedChars,
      flatMap_append, flatMap_singleton, hspace]
    simp [slashed, escapedChars]
  refine ⟨hslashed, ?_⟩
  have hdisplay : p.display cls = slashed cls p.parts := by
    rw [display, if_neg (by simp [hparts]), slashed]
  obtain ⟨s, hs⟩ : ∃ s, slashed cls front ++ '/' :: (escapedChars cls x ++ ['\\']) = '/' :: s := by
    cases front with
    | nil => exact ⟨_, rfl⟩
    | cons r front => exact ⟨_, rfl⟩
  rw [hdisplay, hslashed]
  refine trim_concat_space ⟨'/', by rw [hs]; rfl, by decide⟩ fun c hc => ?_
  rw [← cons_append, ← append_assoc, List.getLast?_concat] at hc
  rw [← some.inj hc]
  decide

/-! ## What the rules of a path are read as -/

/-- The paths whose text is read as them in front of anything that the rules put there: no part is empty, the path can
be printed, and no part has the variable of an origin that is put in. -/
structure ReadsInRules (cls : CharClass) (origin : Option EntityPath) (parts : List String) : Prop where
  nonempty : ∀ part ∈ parts, part ≠ ""
  printable : Printable cls parts
  noVariable : origin ≠ none → ¬ NamesOrigin parts

omit hcls

theorem forgivingParts_display_iff {p : EntityPath} : forgivingParts (p.display cls) = p.parts ↔
    (∀ part ∈ p.parts, part ≠ "") ∧ Printable cls p.parts := by
  rw [← forgivingParts_slashed_iff, display]
  split_ifs with hroot
  · rw [hroot, slashed, flatMap_nil, forgivingParts_slash]
  · rfl

theorem Carries.pathText_cases {parts : List String} {t : Text} (h : Carries cls parts t) (hne : t ≠ subtreeSuffix)
    (origin : Option EntityPath) :
    substituteVariables t (ofOrigin cls origin) ≠ subtreeSuffix ∧
      (¬(origin ≠ none → ¬ NamesOrigin parts) ∧ forgivingParts (pathText (ofOrigin cls origin) t) ≠ parts ∨
        (origin ≠ none → ¬ NamesOrigin parts) ∧
          pathText (ofOrigin cls origin) t = (stripSuffix t subtreeSuffix).getD t) := by
  by_cases hnames : origin ≠ none → ¬ NamesOrigin parts
  · have hsub := h.substituteVariables_eq hnames
    rw [pathText, hsub]
    exact ⟨hne, .inr ⟨hnames, rfl⟩⟩
  · obtain ⟨hsome, horigin⟩ := Classical.not_imp.mp hnames
    obtain ⟨o, rfl⟩ := ne_none_iff_exists'.mp hsome
    obtain ⟨hsuffix, hparts⟩ := h.forgivingParts_ne (not_not.mp horigin) o
    exact ⟨hsuffix, .inl ⟨hnames, hparts⟩⟩

theorem subtree_text (origin : Option EntityPath) (p : EntityPath) :
    substituteVariables (p.display cls ++ subtreeSuffix) (ofOrigin cls origin) ≠ subtreeSuffix ∧
      (forgivingParts (pathText (ofOrigin cls origin) (p.display cls ++ subtreeSuffix)) = p.parts ↔
        ReadsInRules cls origin p.parts) := by
  have hne : p.display cls ++ subtreeSuffix ≠ subtreeSuffix := by
    obtain ⟨s, hs⟩ := display_eq_cons cls p
    intro heq
    have hlength := congrArg List.length heq
    rw [hs, length_append, length_cons] at hlength
    omega
  obtain ⟨hsub, hcases⟩ := (Carries.display p).subtree.pathText_cases hne origin
  refine ⟨hsub, ?_⟩
  rcases hcases with ⟨hnames, hparts⟩ | ⟨hnames, htext⟩
  · exact iff_of_false hparts fun h => hnames h.noVariable
  · rw [htext, stripSuffix_append, getD_some, forgivingParts_display_iff]
    exact ⟨fun h => ⟨h.1, h.2, hnames⟩, fun h => ⟨h.nonempty, h.printable⟩⟩

theorem not_subtreeSuffix_display (p : EntityPath) : ¬ subtreeSuffix <:+ p.display cls := by
  rw [display]
  split_ifs with hroot
  · decide
  · exact not_subtreeSuffix_slashed (append_nil _).symm

include hcls

theorem single_text (origin : Option EntityPath) (p : EntityPath) :
    EntityPathRule.includeSubtree (trim (p.display cls)) = false ∧
      substituteVariables (trim (p.display cls)) (ofOrigin cls origin) ≠ subtreeSuffix ∧
      (forgivingParts (pathText (ofOrigin cls origin) (trim (p.display cls))) = p.parts ↔
        ReadsInRules cls origin p.parts ∧ ¬ EndsInSpace p.parts) := by
  -- the text that the variables are put in, and what is read of it if none is
  obtain ⟨t, ht, hcarries, hsuffix, hread⟩ : ∃ t, trim (p.display cls) = t ∧ Carries cls p.parts t ∧
      ¬ subtreeSuffix <:+ t ∧ (forgivingParts t = p.parts ↔
        ((∀ part ∈ p.parts, part ≠ "") ∧ Printable cls p.parts) ∧ ¬ EndsInSpace p.parts) := by
    by_cases hspace : EndsInSpace p.parts
    · obtain ⟨front, q, x, hparts, hq⟩ := id hspace
      obtain ⟨hslashed, htrim⟩ := @trim_display_space cls p front q x hparts hq
      refine ⟨_, htrim, .trimmed hslashed, not_subtreeSuffix_slashed hslashed, iff_of_false ?_ fun h => h.2 hspace⟩
      rw [hparts]
      exact forgivingParts_broken hq (.inl ⟨rfl, by decide⟩)
    · refine ⟨_, trim_display hcls hspace, .display p, not_subtreeSuffix_display p, ?_⟩
      rw [forgivingParts_display_iff]
      exact (and_iff_left hspace).symm
  rw [ht]
  obtain ⟨hsub, hcases⟩ := hcarries.pathText_cases (fun heq => hsuffix (heq ▸ suffix_refl _)) origin
  refine ⟨Bool.eq_false_iff.mpr fun h => hsuffix (isSuffixOf_iff_suffix.mp h), hsub, ?_⟩
  rcases hcases with ⟨hnames, hparts⟩ | ⟨hnames, htext⟩
  · exact iff_of_false hparts fun h => hnames h.1.noVariable
  · rw [htext, stripSuffix_of_not_suffix hsuffix, getD_none, hread]
    exact and_congr_left' ⟨fun h => ⟨h.1, h.2, hnames⟩, fun h => ⟨h.nonempty, h.printable⟩⟩

end EntityPath

/-! ## Which filters match their path -/

/-- What the table has for a hash is the path, or where it has nothing the text of that hash is read as the path. -/
def GivesPath (cache : EntityPath.ForgivingParseCache) (hash : UInt64) (path : EntityPath) (reads : Prop) : Prop :=
  match cache.lookup hash with
  | some cached => cached = path
  | none => reads

open EntityPath EntityPathSubs ResolvedEntityPathRule

theorem parseForgiving_eq_iff {hash : Text → UInt64} {cache : ForgivingParseCache} {t : Text} {p : EntityPath}
    {reads : Prop} (h : forgivingParts t = p.parts ↔ reads) :
    (EntityPath.parseForgiving hash cache t).1 = p ↔ GivesPath cache (hash t) p reads := by
  rw [EntityPath.parseForgiving, GivesPath, ← h]
  cases cache.lookup (hash t) with
  | some cached => rfl
  | none => exact ⟨fun heq => congrArg EntityPath.parts heq, fun heq => eq_of_parts heq⟩

def singleText (cls : CharClass) (origin : Option EntityPath) (p : EntityPath) : Text :=
  pathText (ofOrigin cls origin) (EntityPathRule.new (EntityPathRule.exactEntity cls p))

def subtreeText (cls : CharClass) (origin : Option EntityPath) (p : EntityPath) : Text :=
  pathText (ofOrigin cls origin) (EntityPathRule.new (EntityPathRule.includingEntitySubtree cls p))

section

variable [NaturalOrder] {cls : CharClass} {parse : Text → EntityPath} {origin : Option EntityPath} {p : EntityPath}

theorem singleEntityFilter_matches
    (h : substituteVariables (trim (p.display cls)) (ofOrigin cls origin) ≠ subtreeSuffix)
    (hinclude : EntityPathRule.includeSubtree (trim (p.display cls)) = false) (q : EntityPath) :
    ((EntityPathFilter.singleEntityFilter cls p).resolveForgiving parse (ofOrigin cls origin)).matchesPath q =
      true ↔ q = parse (singleText cls origin p) := by
  have honly := resolveForgiving_isOnly parse (ofOrigin cls origin)
    (exactEntity cls p)
  have hrule : ResolvedEntityPathRule.parseForgiving parse (ofOrigin cls origin) (exactEntity cls p) =
      ⟨parse (singleText cls origin p), false⟩ :=
    (parseForgiving_eq h).trans (congrArg (ResolvedEntityPathRule.mk _) hinclude)
  rw [hrule] at honly
  exact honly.matchesPath_exact

theorem subtreeEntityFilter_matches
    (h : substituteVariables (p.display cls ++ subtreeSuffix) (ofOrigin cls origin) ≠ subtreeSuffix)
    (q : EntityPath) :
    ((EntityPathFilter.subtreeEntityFilter cls p).resolveForgiving parse (ofOrigin cls origin)).matchesPath q =
      true ↔ ResolvedEntityPathFilter.InSubtree (parse (subtreeText cls origin p)) q := by
  have honly := resolveForgiving_isOnly parse (ofOrigin cls origin)
    (includingEntitySubtree cls p)
  have hrule : ResolvedEntityPathRule.parseForgiving parse (ofOrigin cls origin)
      (includingEntitySubtree cls p) = ⟨parse (subtreeText cls origin p), true⟩ := by
    have htrim : EntityPathRule.new (includingEntitySubtree cls p) = p.display cls ++ subtreeSuffix :=
      trim_display_subtree p
    rw [parseForgiving_eq (by rwa [htrim]), subtreeText, htrim]
    exact congrArg _ (includingEntitySubtree_includeSubtree cls p)
  rw [hrule] at honly
  exact honly.matchesPath_subtree

end

/-- A filter that is built from a path matches that path, and one that is built from a subtree that subtree, exactly
if the table has the path for the text of the rule, or has nothing and the path is read back from that text. -/
theorem pathFilters_match_iff [NaturalOrder] {cls : CharClass}
    (hcls : ∀ c, cls.isAlphanumeric c = true → isWhitespace c = false) (hash : Text → UInt64)
    (cache : ForgivingParseCache) (origin : Option EntityPath) (p : EntityPath) :
    ((∀ q, ((EntityPathFilter.singleEntityFilter cls p).resolveForgiving
          (fun t => (EntityPath.parseForgiving hash cache t).1) (ofOrigin cls origin)).matchesPath q = true ↔ q = p) ↔
        GivesPath cache (hash (singleText cls origin p)) p
          (ReadsInRules cls origin p.parts ∧ ¬ EndsInSpace p.parts)) ∧
      ((∀ q, ((EntityPathFilter.subtreeEntityFilter cls p).resolveForgiving
          (fun t => (EntityPath.parseForgiving hash cache t).1) (ofOrigin cls origin)).matchesPath q = true ↔
            ResolvedEntityPathFilter.InSubtree p q) ↔
        GivesPath cache (hash (subtreeText cls origin p)) p (ReadsInRules cls origin p.parts)) := by
  constructor
  · obtain ⟨hinclude, hsub, hreads⟩ := single_text hcls origin p
    refine Iff.trans ?_ (parseForgiving_eq_iff hreads)
    simp only [singleEntityFilter_matches hsub hinclude]
    refine ⟨fun h => (h _).mp rfl, fun h q => ?_⟩
    exact iff_of_eq (congrArg (q = ·) h)
  · obtain ⟨hsub, hreads⟩ := @subtree_text cls origin p
    have htext : subtreeText cls origin p = pathText (ofOrigin cls origin) (p.display cls ++ subtreeSuffix) :=
      congrArg (pathText (ofOrigin cls origin)) (trim_display_subtree p)
    rw [← htext] at hreads
    rw [← parseForgiving_eq_iff hreads]
    simp only [subtreeEntityFilter_matches hsub]
    exact ⟨eq_of_inSubtree, fun h q => by rw [h]⟩

theorem asciiOnly_not_whitespace (c : Char) (h : CharClass.asciiOnly.isAlphanumeric c = true) :
    isWhitespace c = false := by
  have hranges : ((decide (c.val ≥ 'A'.val ∧ c.val ≤ 'Z'.val) ||
      (decide (c.val ≥ 'a'.val) && decide (c.val ≤ 'z'.val))) ||
      (decide (c.val ≥ '0'.val) && decide (c.val ≤ '9'.val))) = true := h
  have hnat : c.toNat = c.val.toNat := rfl
  simp only [Bool.or_eq_true, Bool.and_eq_true, decide_eq_true_eq, ge_iff_le, UInt32.le_iff_toNat_le,
    ← hnat] at hranges
  simp only [isWhitespace, Bool.or_eq_false_iff, Bool.and_eq_false_iff, decide_eq_false_iff_not,
    beq_eq_false_iff_ne]
  simp at hranges
  omega

theorem pathFilters_match_iff_camera :
    (∀ c, CharClass.asciiOnly.isAlphanumeric c = true → isWhitespace c = false) ∧
      ∀ q, @ResolvedEntityPathFilter.matchesPath alphabetical
        (@EntityPathFilter.resolveForgiving alphabetical (EntityPathFilter.singleEntityFilter .asciiOnly ⟨["camera"]⟩)
          (fun t => (EntityPath.parseForgiving (fun _ => 0) ∅ t).1) (ofOrigin .asciiOnly (some ⟨["world"]⟩))) q =
            true ↔ q = ⟨["camera"]⟩ := by
  refine ⟨asciiOnly_not_whitespace, (@pathFilters_match_iff alphabetical .asciiOnly asciiOnly_not_whitespace
    (fun _ => 0) ∅ (some ⟨["world"]⟩) ⟨["camera"]⟩).1.mpr ⟨⟨by simp, ?_, fun _ => ?_⟩, ?_⟩⟩
  · refine printable_singleton.mpr fun c hc => .inl ?_
    have hascii : ∀ c ∈ "camera".toList, c.toNat < 0x10000 := by simp
    exact hascii c hc
  · intro hnames
    obtain ⟨part, hpart, hoccurs⟩ := hnames
    rw [mem_singleton.mp hpart] at hoccurs
    exact absurd (hoccurs.subset mem_cons_self) (by decide)
  · intro hspace
    obtain ⟨front, q, x, hparts, hq⟩ := hspace
    have hlast : some "camera" = some q := by simpa using congrArg List.getLast? hparts
    have hend := congrArg List.getLast? ((congrArg String.toList (some.inj hlast)).trans hq)
    rw [List.getLast?_concat] at hend
    revert hend
    decide

/-- The filter for the entity `a ` does not match it: its text is trimmed. And the one for the subtree of `$origin`
is not for that subtree where the origin is put in. -/
theorem trailingSpace_not_matched :
    @ResolvedEntityPathFilter.matchesPath alphabetical
        (@EntityPathFilter.resolveForgiving alphabetical (EntityPathFilter.singleEntityFilter .asciiOnly ⟨["a "]⟩)
          (fun t => (EntityPath.parseForgiving (fun _ => 0) ∅ t).1) EntityPathSubs.empty) ⟨["a "]⟩ = false ∧
      ¬ ∀ q, @ResolvedEntityPathFilter.matchesPath alphabetical
        (@EntityPathFilter.resolveForgiving alphabetical
          (EntityPathFilter.subtreeEntityFilter .asciiOnly ⟨["$origin"]⟩)
          (fun t => (EntityPath.parseForgiving (fun _ => 0) ∅ t).1)
          (EntityPathSubs.newWithOrigin .asciiOnly ⟨["world"]⟩)) q = true ↔
        ResolvedEntityPathFilter.InSubtree ⟨["$origin"]⟩ q := by
  constructor
  · have hspace : EndsInSpace ["a "] := ⟨[], "a ", ['a'], rfl, by decide⟩
    obtain ⟨hinclude, hsub, hreads⟩ := single_text asciiOnly_not_whitespace none ⟨["a "]⟩
    refine Bool.eq_false_iff.mpr fun hmatch => ?_
    have hself := (@singleEntityFilter_matches alphabetical _ _ none _ hsub hinclude _).mp hmatch
    exact (hreads.mp (congrArg EntityPath.parts hself.symm)).2 hspace
  · obtain ⟨hsub, hreads⟩ := @subtree_text .asciiOnly (some ⟨["world"]⟩) ⟨["$origin"]⟩
    intro hmatch
    have hself := eq_of_inSubtree fun q =>
      (@subtreeEntityFilter_matches alphabetical _ _ (some ⟨["world"]⟩) _ hsub q).symm.trans (hmatch q)
    have hkept := hreads.mp ?_
    · refine hkept.noVariable (some_ne_none _) ⟨"$origin", mem_singleton.mpr rfl, ?_⟩
      exact infix_refl _
    · have htext : subtreeText .asciiOnly (some ⟨["world"]⟩) ⟨["$origin"]⟩ =
          pathText (ofOrigin .asciiOnly (some ⟨["world"]⟩))
            (display .asciiOnly ⟨["$origin"]⟩ ++ subtreeSuffix) :=
        congrArg (pathText _) (trim_display_subtree _)
      exact congrArg EntityPath.parts hself

end Dalaran
