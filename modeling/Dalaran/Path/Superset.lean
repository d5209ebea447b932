import Mathlib.Data.Fintype.EquivFin
import Dalaran.Path.Filter

/-
  What a positive answer of `is_superset_of` is worth.

  The answer compares the rules of each filter with the other filter at the
  paths of the rules only. That says nothing about what is below a subtree the
  filter leaves out when the other filter leaves out no more than the path
  itself. Apart from that it is sound (`isSupersetOf_sound_iff`).
-/

namespace Dalaran

open List Bool OrdMap ResolvedEntityPathRule

/-! ## Specificity -/

theorem prefix_lt {α : Type} [LinearOrder α] {s t : List α} (h : s <+: t) (hne : s ≠ t) : s < t := by
  induction s generalizing t with
  | nil =>
    cases t with
    | nil => exact absurd rfl hne
    | cons a t => exact nil_lt_cons a t
  | cons a s ih =>
    cases t with
    | nil => simp at h
    | cons b t =>
      obtain ⟨rfl, hstart⟩ := cons_prefix_cons.mp h
      exact cons_lt_cons_self.mpr (ih hstart fun heq => hne (congrArg _ heq))

namespace ResolvedEntityPathRule

/-- How specific the rule is among those of one line of descent. -/
def rank (r : ResolvedEntityPathRule) : Nat := 2 * r.resolvedPath.parts.length + (if r.includeSubtree then 0 else 1)

variable {r : ResolvedEntityPathRule}

theorem matchesPath_iff {p : EntityPath} :
    r.matchesPath p = true ↔
      r.resolvedPath.parts <+: p.parts ∧ (r.includeSubtree = false → p = r.resolvedPath) := by
  rw [matchesPath]
  cases hsubtree : r.includeSubtree with
  | true => simp [EntityPath.startsWith]
  | false =>
    simp only [false_eq_true, if_false, decide_eq_true_eq, forall_const]
    exact ⟨fun heq => ⟨heq ▸ prefix_refl _, heq⟩, fun h => h.2⟩

variable [NaturalOrder]

variable {s : ResolvedEntityPathRule}

theorem lt_of_path_lt (h : r.resolvedPath < s.resolvedPath) : r < s :=
  Prod.Lex.toLex_lt_toLex.mpr (.inl h)

theorem le_of_rank_le {p : EntityPath} (hr : r.matchesPath p = true) (hs : s.matchesPath p = true)
    (h : r.rank ≤ s.rank) : r ≤ s := by
  obtain ⟨hrp, -⟩ := matchesPath_iff.mp hr
  obtain ⟨hsp, -⟩ := matchesPath_iff.mp hs
  have hlength : r.resolvedPath.parts.length ≤ s.resolvedPath.parts.length := by
    simp only [rank] at h
    split_ifs at h <;> omega
  have hstart : r.resolvedPath.parts <+: s.resolvedPath.parts := prefix_of_prefix_length_le hrp hsp hlength
  by_cases heq : r.resolvedPath = s.resolvedPath
  · have hsubtree : (!r.includeSubtree) ≤ (!s.includeSubtree) := by
      simp only [rank, heq] at h
      cases hrs : r.includeSubtree <;> cases hss : s.includeSubtree <;> simp_all
    exact Prod.Lex.toLex_le_toLex.mpr (.inr ⟨heq, hsubtree⟩)
  · refine (lt_of_path_lt ?_).le
    refine prefix_lt (hstart.map partKey) fun hkey => heq ?_
    exact EntityPath.key_injective hkey

theorem le_iff_rank_le {p : EntityPath} (hr : r.matchesPath p = true)
    (hs : s.matchesPath p = true) : r ≤ s ↔ r.rank ≤ s.rank := by
  refine ⟨fun h => ?_, le_of_rank_le hr hs⟩
  by_contra hrank
  have heq : r = s := le_antisymm h (le_of_rank_le hs hr (Nat.le_of_lt (Nat.lt_of_not_le hrank)))
  exact hrank (heq ▸ le_rfl)

end ResolvedEntityPathRule

namespace ResolvedEntityPathFilter

variable [NaturalOrder]

variable {f : ResolvedEntityPathFilter} {p : EntityPath}

theorem lastMatch_eq_some_iff {e : ResolvedEntityPathRule × RuleEffect} :
    f.lastMatch p = some e ↔ e ∈ f.rules.entries ∧ e.1.matchesPath p = true ∧
      ∀ d ∈ f.rules.entries, d.1.matchesPath p = true → d.1.rank ≤ e.1.rank := by
  rw [lastMatch, findLast_eq_some_iff]
  refine and_congr_right fun _ => and_congr_right fun hmatch => forall₂_congr fun d _ => ?_
  refine forall_congr' fun hd => ?_
  exact le_iff_rank_le hd hmatch

theorem matchesPath_eq_true_iff : f.matchesPath p = true ↔ ∃ r, f.lastMatch p = some (r, .includes) := by
  rw [matchesPath, mostSpecificMatch]
  cases hlast : f.lastMatch p with
  | none => simp
  | some e =>
    obtain ⟨r, effect⟩ := e
    cases effect <;> simp

variable {other self : ResolvedEntityPathFilter}

theorem isSupersetOf_iff :
    self.isSupersetOf other = true ↔
      (∀ o, (o, RuleEffect.includes) ∈ other.rules.entries → ∃ s, self.lastMatch o.resolvedPath = some (s, .includes) ∧
        (o.includeSubtree = true → s.includeSubtree = true)) ∧
      ∀ s, (s, RuleEffect.excludes) ∈ self.rules.entries → ∀ o, other.lastMatch s.resolvedPath ≠ some (o, .includes) := by
  rw [isSupersetOf, and_eq_true, all_eq_true, all_eq_true]
  refine and_congr ?_ ?_
  · constructor
    · intro h o ho
      have hcovers := h _ ho
      simp only [covers] at hcovers
      split at hcovers
      · next s heq =>
        refine ⟨s, heq, fun hsubtree => ?_⟩
        simpa [hsubtree] using hcovers
      · cases hcovers
      · cases hcovers
    · intro h e he
      obtain ⟨o, effect⟩ := e
      cases effect with
      | excludes => rfl
      | includes =>
        obtain ⟨s, heq, hsubtree⟩ := h o he
        simp only [covers, heq]
        cases ho : o.includeSubtree with
        | false => rfl
        | true => simp [hsubtree ho]
  · constructor
    · intro h s hs o heq
      have hspares := h _ hs
      simp [spares, heq] at hspares
    · intro h e he
      obtain ⟨s, effect⟩ := e
      cases effect with
      | includes => rfl
      | excludes =>
        simp only [spares]
        split
        · next o heq => exact absurd heq (h s he o)
        · rfl
        · rfl

/-! ## What the answer misses -/

def lastSubtree (f : ResolvedEntityPathFilter) (path : EntityPath) : Option (ResolvedEntityPathRule × RuleEffect) :=
  f.rules.findLast fun rule => rule.includeSubtree && path.startsWith rule.resolvedPath

/-- No subtree that the first filter excludes is, below its root, included by the second. -/
def SparesSubtrees (self other : ResolvedEntityPathFilter) : Prop :=
  ∀ s, (s, RuleEffect.excludes) ∈ self.rules.entries → s.includeSubtree = true →
    ∀ o, other.lastSubtree s.resolvedPath ≠ some (o, .includes)

/-! ## A fresh child -/

def child (p : EntityPath) (part : String) : EntityPath := ⟨p.parts ++ [part]⟩

omit [NaturalOrder] in
theorem matchesPath_child {r : ResolvedEntityPathRule} {part : String} (h : part ∉ r.resolvedPath.parts) :
    r.matchesPath (child p part) = (r.includeSubtree && p.startsWith r.resolvedPath) := by
  have hwhole : r.resolvedPath.parts ≠ p.parts ++ [part] := by
    intro heq
    rw [heq] at h
    exact h (by simp)
  have hstart : r.resolvedPath.parts <+: p.parts ++ [part] ↔ r.resolvedPath.parts <+: p.parts := by
    rw [prefix_concat_iff]
    exact or_iff_right hwhole
  rw [ResolvedEntityPathRule.matchesPath]
  cases r.includeSubtree with
  | true =>
    simp only [if_true, EntityPath.startsWith, Bool.true_and]
    rw [Bool.eq_iff_iff, isPrefixOf_iff_prefix, isPrefixOf_iff_prefix]
    exact hstart
  | false =>
    simp only [false_eq_true, if_false, Bool.false_and, decide_eq_false_iff_not]
    intro heq
    exact hwhole (congrArg EntityPath.parts heq).symm

theorem lastMatch_child {part : String} (h : ∀ e ∈ f.rules.entries, part ∉ e.1.resolvedPath.parts) :
    f.lastMatch (child p part) = f.lastSubtree p :=
  findLast_congr fun e he => matchesPath_child (h e he)

omit [NaturalOrder] in
theorem exists_fresh (names : List String) : ∃ part, part ∉ names := by
  obtain ⟨part, hpart⟩ := Infinite.exists_notMem_finset names.toFinset
  exact ⟨part, fun hmem => hpart (mem_toFinset.mpr hmem)⟩

theorem lastSubtree_self {s : ResolvedEntityPathRule} {effect : RuleEffect} (hmem : (s, effect) ∈ f.rules.entries)
    (hsubtree : s.includeSubtree = true) :
    f.lastSubtree s.resolvedPath = some (s, effect) := by
  have hself : s.matchesPath s.resolvedPath = true :=
    matchesPath_iff.mpr ⟨prefix_refl _, fun _ => rfl⟩
  rw [lastSubtree, findLast_eq_some_iff]
  refine ⟨hmem, by simp [hsubtree, EntityPath.startsWith], fun d _ hd => ?_⟩
  rw [and_eq_true] at hd
  have hstart : d.1.resolvedPath.parts <+: s.resolvedPath.parts := isPrefixOf_iff_prefix.mp hd.2
  have hmatch : d.1.matchesPath s.resolvedPath = true := by
    refine matchesPath_iff.mpr ⟨hstart, fun hexact => ?_⟩
    rw [hd.1] at hexact
    cases hexact
  apply le_of_rank_le hmatch hself
  have hlength := hstart.length_le
  simp only [ResolvedEntityPathRule.rank, hd.1, hsubtree, if_true]
  omega

/-- If the first filter matches what the second does, then it excludes no subtree that the second
includes below its root: a fresh child of the root would be included by the second alone. -/
theorem sparesSubtrees_of_superset
    (h : ∀ p, other.matchesPath p = true → self.matchesPath p = true) : SparesSubtrees self other := by
  intro s hs hsubtree o hlast
  obtain ⟨part, hfresh⟩ := exists_fresh
    ((self.rules.entries ++ other.rules.entries).flatMap fun e => e.1.resolvedPath.parts)
  have hpart : ∀ e ∈ self.rules.entries ++ other.rules.entries, part ∉ e.1.resolvedPath.parts :=
    fun e he hmem => hfresh (mem_flatMap.mpr ⟨e, he, hmem⟩)
  have hother : other.matchesPath (child s.resolvedPath part) = true := by
    refine matchesPath_eq_true_iff.mpr ⟨o, ?_⟩
    rw [lastMatch_child fun e he => hpart e (mem_append_right _ he), hlast]
  obtain ⟨r, hr⟩ := matchesPath_eq_true_iff.mp (h _ hother)
  rw [lastMatch_child fun e he => hpart e (mem_append_left _ he), lastSubtree_self hs hsubtree] at hr
  cases hr

/-! ## What the answer is worth -/

variable {q : EntityPath}

theorem lastMatch_unique {d e : ResolvedEntityPathRule × RuleEffect} (hd : f.lastMatch p = some d)
    (he : f.lastMatch q = some e) (hdq : d.1.matchesPath q = true) (hep : e.1.matchesPath p = true) : d = e := by
  obtain ⟨hdmem, hdp, hdlast⟩ := lastMatch_eq_some_iff.mp hd
  obtain ⟨hemem, heq, helast⟩ := lastMatch_eq_some_iff.mp he
  have hle : d.1 ≤ e.1 := le_of_rank_le hdp hep (helast d hdmem hdq)
  have hge : e.1 ≤ d.1 := le_of_rank_le hep hdp (hdlast e hemem hep)
  have hrule : d.1 = e.1 := le_antisymm hle hge
  have heffect : d.2 = e.2 := by
    refine @OrdMap.value_unique _ _ _ f.rules d.1 d.2 e.2 hdmem ?_
    rw [hrule]
    exact hemem
  exact Prod.ext hrule heffect

theorem superset_of_sparesSubtrees (hsuper : self.isSupersetOf other = true) (h : SparesSubtrees self other)
    (p : EntityPath) (hp : other.matchesPath p = true) :
    self.matchesPath p = true := by
  obtain ⟨hincludes, hexcludes⟩ := isSupersetOf_iff.mp hsuper
  obtain ⟨q, hq⟩ := matchesPath_eq_true_iff.mp hp
  obtain ⟨hqmem, hqp, hqlast⟩ := lastMatch_eq_some_iff.mp hq
  obtain ⟨hqstart, hqexact⟩ := matchesPath_iff.mp hqp
  obtain ⟨s, hs, hsubtree⟩ := hincludes q hqmem
  cases hqsub : q.includeSubtree with
  | false =>
    rw [← hqexact hqsub] at hs
    exact matchesPath_eq_true_iff.mpr ⟨s, hs⟩
  | true =>
    obtain ⟨hsmem, hsq, hslast⟩ := lastMatch_eq_some_iff.mp hs
    have hsp : s.matchesPath p = true := by
      refine matchesPath_iff.mpr
        ⟨(matchesPath_iff.mp hsq).1.trans hqstart, fun hexact => ?_⟩
      rw [hsubtree hqsub] at hexact
      cases hexact
    -- Some rule here decides the path. Suppose it excludes.
    cases hr : self.lastMatch p with
    | none =>
      have hnone := findLast_eq_none_iff.mp hr _ hsmem
      rw [hsp] at hnone
      cases hnone
    | some e =>
      obtain ⟨r, effect⟩ := e
      cases effect with
      | includes => exact matchesPath_eq_true_iff.mpr ⟨r, hr⟩
      | excludes =>
        exfalso
        obtain ⟨hrmem, hrp, -⟩ := lastMatch_eq_some_iff.mp hr
        obtain ⟨hrstart, hrexact⟩ := matchesPath_iff.mp hrp
        -- It does not match the other rule's path, which is decided by an inclusion, so it lies below it.
        have hrq : r.matchesPath q.resolvedPath ≠ true := by
          intro hrq
          have heq := lastMatch_unique hr hs hrq hsp
          cases (Prod.mk.inj heq).2
        have hqr : q.resolvedPath.parts <+: r.resolvedPath.parts := by
          refine ( prefix_or_prefix_of_prefix hqstart hrstart).resolve_right fun hrqstart => hrq ?_
          refine matchesPath_iff.mpr ⟨hrqstart, fun hexact => ?_⟩
          have hpr : p = r.resolvedPath := hrexact hexact
          have hparts : q.resolvedPath.parts = r.resolvedPath.parts := by
            rw [hpr] at hqstart
            exact hqstart.eq_of_length_le hrqstart.length_le
          obtain ⟨⟨parts⟩⟩ := q
          obtain ⟨⟨parts'⟩⟩ := r
          exact congrArg EntityPath.mk hparts
        cases hrsub : r.includeSubtree with
        | false =>
          rw [hrexact hrsub] at hq
          exact hexcludes r hrmem q hq
        | true =>
          -- So the other filter's last rule for the subtree excludes, and would decide the path there.
          have hqcovers : (q.includeSubtree && r.resolvedPath.startsWith q.resolvedPath) = true := by
            rw [hqsub, Bool.true_and]
            exact isPrefixOf_iff_prefix.mpr hqr
          cases hu : other.lastSubtree r.resolvedPath with
          | none =>
            have hnone := findLast_eq_none_iff.mp hu _ hqmem
            rw [hqcovers] at hnone
            cases hnone
          | some u =>
            obtain ⟨u, effect⟩ := u
            cases effect with
            | includes => exact h r hrmem hrsub u hu
            | excludes =>
              obtain ⟨humem, hucovers, hulast⟩ := findLast_eq_some_iff.mp hu
              rw [and_eq_true] at hucovers
              have hup : u.matchesPath p = true := by
                refine matchesPath_iff.mpr
                  ⟨( isPrefixOf_iff_prefix.mp hucovers.2).trans hrstart, fun hexact => ?_⟩
                rw [hucovers.1] at hexact
                cases hexact
              have hle : u ≤ q := le_of_rank_le hup hqp (hqlast _ humem hup)
              have hge : q ≤ u := hulast _ hqmem hqcovers
              have heq : u = q := le_antisymm hle hge
              subst heq
              cases value_unique humem hqmem

/-- Where the answer is yes, the filter matches what the other does exactly if it excludes no subtree
that the other includes below its root. -/
theorem isSupersetOf_sound_iff (self other : ResolvedEntityPathFilter) (h : self.isSupersetOf other = true) :
    (∀ p, other.matchesPath p = true → self.matchesPath p = true) ↔ SparesSubtrees self other :=
  ⟨sparesSubtrees_of_superset, superset_of_sparesSubtrees h⟩

end ResolvedEntityPathFilter

/-! ## A filter that is no superset -/

namespace ResolvedEntityPathFilter

def withoutSubtree : @ResolvedEntityPathFilter alphabetical :=
  @ResolvedEntityPathFilter.mk alphabetical (@OrdMap.ofList _ _ (@ResolvedEntityPathRule.ruleOrder alphabetical)
    [(⟨⟨["a"]⟩, true⟩, .includes), (⟨⟨["a", "b"]⟩, true⟩, .excludes), (⟨⟨["__properties"]⟩, true⟩, .excludes)])

def withoutEntity : @ResolvedEntityPathFilter alphabetical :=
  @ResolvedEntityPathFilter.mk alphabetical (@OrdMap.ofList _ _ (@ResolvedEntityPathRule.ruleOrder alphabetical)
    [(⟨⟨["a"]⟩, true⟩, .includes), (⟨⟨["a", "b"]⟩, false⟩, .excludes), (⟨⟨["__properties"]⟩, true⟩, .excludes)])

theorem isSupersetOf_sound_iff_withoutSubtree :
    @isSupersetOf alphabetical withoutSubtree withoutEntity = true ∧
      ((∀ p, @matchesPath alphabetical withoutEntity p = true → @matchesPath alphabetical withoutSubtree p = true) ↔
        @SparesSubtrees alphabetical withoutSubtree withoutEntity) :=
  ⟨by decide, @isSupersetOf_sound_iff alphabetical withoutSubtree withoutEntity (by decide)⟩

/-- Below `/a/b` the one is no superset of the other, though it says so. -/
theorem withoutSubtree_not_superset :
    @isSupersetOf alphabetical withoutSubtree withoutEntity = true ∧
      @matchesPath alphabetical withoutEntity ⟨["a", "b", "c"]⟩ = true ∧
      @matchesPath alphabetical withoutSubtree ⟨["a", "b", "c"]⟩ = false := by
  decide

end ResolvedEntityPathFilter

end Dalaran
