import Dalaran.Path.FilterText
import Dalaran.Path.Superset

/-
  Which rule of a text decides a path.

  The rules of a text that resolve to one expression are collected in the order of
  their spellings, so the one spelled last in the alphabet is kept, with the effect
  it was last written with (`mem_resolveForgiving`). Where that is the effect of the
  rule of the expression that is written last, a path is decided by the most
  specific of the rules that match it, and of several for one expression by the last
  (`matchesPath_iff_decidedBy`). The rule that leaves the properties out counts as
  written in front unless the text has its own.
-/

namespace Dalaran

open OrdMap ResolvedEntityPathFilter List ResolvedEntityPathRule EntityPath EntityPathPart

/-! ## What a text says -/

def resolvedRules (parse : Text → EntityPath) (env : EntityPathSubs) (written : List (EntityPathRule × RuleEffect)) :
    List (ResolvedEntityPathRule × RuleEffect) :=
  written.map fun e => (ResolvedEntityPathRule.parseForgiving parse env e.1, e.2)

/-- With the rule for the properties in front, unless there is one. -/
def withProperties (rules : List (ResolvedEntityPathRule × RuleEffect)) :
    List (ResolvedEntityPathRule × RuleEffect) :=
  if rules.any (fun e => e.1 = ResolvedEntityPathRule.properties) then rules
  else (ResolvedEntityPathRule.properties, .excludes) :: rules

/-- The rule matches the path, and no rule that does is more specific. -/
def MostSpecific (rules : List (ResolvedEntityPathRule × RuleEffect)) (path : EntityPath)
    (r : ResolvedEntityPathRule) : Prop :=
  (∃ effect, (r, effect) ∈ rules) ∧ r.matchesPath path = true ∧
    ∀ d ∈ rules, d.1.matchesPath path = true → d.1.rank ≤ r.rank

/-- The path is decided with the effect: by the most specific expression, as it is last written. -/
def DecidedBy (rules : List (ResolvedEntityPathRule × RuleEffect)) (path : EntityPath) (effect : RuleEffect) : Prop :=
  ∃ r, MostSpecific rules path r ∧ OrdMap.LastOf rules r effect

/-! ## What is kept of it -/

section

variable (parse : Text → EntityPath) (env : EntityPathSubs) (written : List (EntityPathRule × RuleEffect))

/-- Of the spellings of the expression the last in the alphabet is last written with the effect. -/
def LastSpelled (r : ResolvedEntityPathRule) (effect : RuleEffect) : Prop :=
  ∃ spelling, ResolvedEntityPathRule.parseForgiving parse env spelling = r ∧ OrdMap.LastOf written spelling effect ∧
    ∀ d ∈ written, ResolvedEntityPathRule.parseForgiving parse env d.1 = r → d.1 ≤ spelling

/-- The expression is last written with the effect that its last spelling is last written with. -/
def LastSpellingWins (r : ResolvedEntityPathRule) : Prop :=
  ∀ effect effect', LastSpelled parse env written r effect →
    OrdMap.LastOf (resolvedRules parse env written) r effect' → effect = effect'

variable {parse env written}

variable {r : ResolvedEntityPathRule} {effect : RuleEffect}

theorem mem_resolvedRules :
    (r, effect) ∈ resolvedRules parse env written ↔
      ∃ spelling, ResolvedEntityPathRule.parseForgiving parse env spelling = r ∧ (spelling, effect) ∈ written := by
  rw [resolvedRules, mem_map]
  constructor
  · rintro ⟨e, he, heq⟩
    obtain ⟨rfl, rfl⟩ := Prod.mk.inj heq
    exact ⟨e.1, rfl, he⟩
  · rintro ⟨spelling, rfl, hmem⟩
    exact ⟨_, hmem, rfl⟩

theorem mem_withProperties {rules : List (ResolvedEntityPathRule × RuleEffect)} :
    (∃ effect, (r, effect) ∈ withProperties rules) ↔
      (∃ effect, (r, effect) ∈ rules) ∨ r = ResolvedEntityPathRule.properties := by
  rw [withProperties]
  split_ifs with hany
  · refine ⟨.inl, fun h => h.elim id fun hr => ?_⟩
    obtain ⟨d, hd, heq⟩ := any_eq_true.mp hany
    have heq : d.1 = properties := of_decide_eq_true heq
    exact ⟨d.2, by rw [hr, ← heq]; exact hd⟩
  · simp [exists_or, or_comm]

theorem lastOf_withProperties {rules : List (ResolvedEntityPathRule × RuleEffect)} :
    OrdMap.LastOf (withProperties rules) r .includes ↔ OrdMap.LastOf rules r .includes := by
  rw [withProperties]
  split_ifs with hany
  · rfl
  · constructor
    · rintro ⟨front, back, heq, hback⟩
      cases front with
      | nil => cases (cons.inj heq).1
      | cons d front => exact ⟨front, back, (cons.inj heq).2, hback⟩
    · rintro ⟨front, back, rfl, hback⟩
      exact ⟨_ :: front, back, rfl, hback⟩

theorem LastSpelled.mem
    (h : LastSpelled parse env written r effect) : (r, effect) ∈ resolvedRules parse env written := by
  obtain ⟨spelling, hr, hlast, -⟩ := h
  exact mem_resolvedRules.mpr ⟨spelling, hr, hlast.mem⟩

variable [NaturalOrder]

theorem mem_collected :
    (r, effect) ∈ (OrdMap.ofList ((OrdMap.ofList written).entries.map fun e =>
        (ResolvedEntityPathRule.parseForgiving parse env e.1, e.2))).entries ↔
      LastSpelled parse env written r effect := by
  rw [mem_ofList_map]
  refine exists_congr fun spelling => and_congr_right fun _ => and_congr mem_ofList_iff_lastOf ?_
  constructor
  · intro h d hd hr
    obtain ⟨w, hw⟩ := exists_lastOf hd
    exact h (d.1, w) (mem_ofList_iff_lastOf.mpr hw) hr
  · intro h d hd hr
    exact h d (mem_ofList_iff_lastOf.mp hd).mem hr

theorem exists_lastSpelled
    (h : (r, effect) ∈ resolvedRules parse env written) : ∃ w, LastSpelled parse env written r w := by
  obtain ⟨spelling, rfl, hmem⟩ := mem_resolvedRules.mp h
  obtain ⟨w, hw⟩ := exists_lastOf hmem
  have hcollected := mem_map_of_mem (f := fun e : EntityPathRule × RuleEffect =>
    (parseForgiving parse env e.1, e.2)) (mem_ofList_iff_lastOf.mpr hw)
  obtain ⟨w', hw'⟩ := exists_lastOf hcollected
  exact ⟨w', mem_collected.mp (mem_ofList_iff_lastOf.mpr hw')⟩

theorem mem_resolveForgiving :
    (r, effect) ∈ ((EntityPathFilter.mk (.ofList written)).resolveForgiving parse env).rules.entries ↔
      LastSpelled parse env written r effect ∨
        ((r, effect) = (ResolvedEntityPathRule.properties, .excludes) ∧
          ∀ w, ¬ LastSpelled parse env written ResolvedEntityPathRule.properties w) := by
  rw [EntityPathFilter.resolveForgiving, mem_orInsert, mem_collected]
  simp only [mem_collected]

theorem key_resolveForgiving :
    (∃ effect, (r, effect) ∈ ((EntityPathFilter.mk (.ofList written)).resolveForgiving parse env).rules.entries) ↔
      ∃ effect, (r, effect) ∈ withProperties (resolvedRules parse env written) := by
  rw [mem_withProperties]
  constructor
  · rintro ⟨effect, hmem⟩
    rcases mem_resolveForgiving.mp hmem with hspelled | ⟨heq, -⟩
    · exact .inl ⟨effect, hspelled.mem⟩
    · exact .inr (Prod.mk.inj heq).1
  · intro h
    by_cases hspelled : ∃ w, LastSpelled parse env written r w
    · obtain ⟨w, hw⟩ := hspelled
      exact ⟨w, mem_resolveForgiving.mpr (.inl hw)⟩
    · rcases h with ⟨effect, hmem⟩ | rfl
      · exact absurd (exists_lastSpelled hmem) hspelled
      · exact ⟨.excludes, mem_resolveForgiving.mpr (.inr ⟨rfl, not_exists.mp hspelled⟩)⟩

theorem mostSpecific_iff {path : EntityPath} :
    MostSpecific (withProperties (resolvedRules parse env written)) path r ↔
      MostSpecific ((EntityPathFilter.mk (.ofList written)).resolveForgiving parse env).rules.entries path r := by
  have hrules : ∀ s, (∃ effect, (s, effect) ∈ withProperties (resolvedRules parse env written)) ↔
      ∃ effect, (s, effect) ∈ ((EntityPathFilter.mk (.ofList written)).resolveForgiving parse env).rules.entries :=
    fun s => key_resolveForgiving.symm
  refine and_congr (hrules r) (and_congr_right fun _ => ⟨fun h d hd hmatch => ?_, fun h d hd hmatch => ?_⟩)
  · obtain ⟨effect, he⟩ := (hrules d.1).mpr ⟨d.2, hd⟩
    exact h (d.1, effect) he hmatch
  · obtain ⟨effect, he⟩ := (hrules d.1).mp ⟨d.2, hd⟩
    exact h (d.1, effect) he hmatch

end

/-! ## Which rule decides -/

/-- Where the last spelling of the expression that decides a path has the effect it is last written
with, the path matches exactly if the rules of the text, with the default for the properties, decide
that it is included. -/
theorem matchesPath_iff_decidedBy [NaturalOrder] (parse : Text → EntityPath) (env : EntityPathSubs) (text : Text)
    (path : EntityPath)
    (hspelling : ∀ r, MostSpecific (withProperties
        (resolvedRules parse env (writtenRules (splitWhitespaceSmart text)))) path r →
      LastSpellingWins parse env (writtenRules (splitWhitespaceSmart text)) r) :
    ((EntityPathFilter.parseForgiving text).resolveForgiving parse env).matchesPath path = true ↔
      DecidedBy (withProperties (resolvedRules parse env (writtenRules (splitWhitespaceSmart text)))) path
        .includes := by
  rw [EntityPathFilter.parseForgiving, EntityPathFilter.fromQueryExpressions, matchesPath_eq_true_iff]
  generalize writtenRules (splitWhitespaceSmart text) = written at hspelling ⊢
  constructor
  · rintro ⟨r, hlast⟩
    obtain ⟨hmem, hmatch, hgreatest⟩ := lastMatch_eq_some_iff.mp hlast
    have hspecific := mostSpecific_iff.mpr ⟨⟨.includes, hmem⟩, hmatch, hgreatest⟩
    refine ⟨r, hspecific, ?_⟩
    rcases mem_resolveForgiving.mp hmem with hspelled | ⟨heq, -⟩
    · obtain ⟨effect, hwritten⟩ := exists_lastOf hspelled.mem
      rw [← hspelling r hspecific .includes effect hspelled hwritten] at hwritten
      exact lastOf_withProperties.mpr hwritten
    · cases (Prod.mk.inj heq).2
  · rintro ⟨r, hspecific, hwritten⟩
    have hwritten := lastOf_withProperties.mp hwritten
    obtain ⟨effect, hspelled⟩ := exists_lastSpelled hwritten.mem
    rw [hspelling r hspecific effect .includes hspelled hwritten] at hspelled
    obtain ⟨-, hmatch, hgreatest⟩ := mostSpecific_iff.mp hspecific
    exact ⟨r, lastMatch_eq_some_iff.mpr
      ⟨mem_resolveForgiving.mpr (.inl hspelled), hmatch, hgreatest⟩⟩

def spelledTwice : Text := ['-', ' ', '/', '*', '*', '\n', '-', ' ', '/', 'w', '\n', '+', ' ', 'w']

theorem writtenRules_spelledTwice : writtenRules (splitWhitespaceSmart spelledTwice) =
    [(['/', '*', '*'], .excludes), (['/', 'w'], .excludes), (['w'], .includes)] := by
  have hsplit : splitWhitespaceSmart spelledTwice =
      [['-', ' ', '/', '*', '*'], ['-', ' ', '/', 'w'], ['+', ' ', 'w']] := by
    unfold spelledTwice
    simp [splitWhitespaceSmart, scanRule, isAsciiWhitespace]
  rw [hsplit]
  decide

theorem readForgiving_w : EntityPath.readForgiving ['w'] = ⟨["w"]⟩ ∧ EntityPath.readForgiving ['/', 'w'] = ⟨["w"]⟩ := by
  have htoken : tokenizeEntityPath ['w'] = [['w']] ∧ tokenizeEntityPath ['/', 'w'] = [['/'], ['w']] := by
    simp [tokenizeEntityPath, tokenizeBy, entityPathSeparators, Tokens.tokenize, Tokens.scan]
  have hpart : (parseForgivingWithWarning ['w']).1 = "w" := by
    simp [parseForgivingWithWarning, unescapeForgiving, pushWith]
  unfold readForgiving
  rw [htoken.1, htoken.2]
  simp [hpart]

theorem resolvedRules_spelledTwice :
    resolvedRules EntityPath.readForgiving [] (writtenRules (splitWhitespaceSmart spelledTwice)) =
      [(⟨⟨[]⟩, true⟩, .excludes), (⟨⟨["w"]⟩, false⟩, .excludes), (⟨⟨["w"]⟩, false⟩, .includes)] := by
  rw [writtenRules_spelledTwice]
  show [_, ((⟨readForgiving ['/', 'w'], false⟩, .excludes) : ResolvedEntityPathRule × RuleEffect),
    (⟨readForgiving ['w'], false⟩, .includes)] = _
  rw [readForgiving_w.1, readForgiving_w.2]
  rfl

theorem lastSpellingWins_spelledTwice (r : ResolvedEntityPathRule) :
    LastSpellingWins EntityPath.readForgiving [] (writtenRules (splitWhitespaceSmart spelledTwice)) r := by
  intro effect effect' hspelled hlast
  have hmem := hspelled.mem
  obtain ⟨spelling, hr, hwritten, hgreatest⟩ := hspelled
  let := alphabetical
  have hlast := mem_ofList_iff_lastOf.mpr hlast
  rw [resolvedRules_spelledTwice] at hlast hmem
  rw [writtenRules_spelledTwice] at hwritten hgreatest
  have hkept : (r, effect') ∈ [((⟨⟨[]⟩, true⟩, .excludes) : ResolvedEntityPathRule × RuleEffect),
      (⟨⟨["w"]⟩, false⟩, .includes)] := hlast
  have hw : parseForgiving readForgiving [] ['w'] = ⟨⟨["w"]⟩, false⟩ := by
    show (⟨readForgiving ['w'], false⟩ : ResolvedEntityPathRule) = _
    rw [readForgiving_w.1]
  simp only [mem_cons, not_mem_nil, or_false, Prod.mk.injEq] at hmem hkept
  obtain ⟨rfl, rfl⟩ | ⟨rfl, rfl⟩ | ⟨rfl, rfl⟩ := hmem
  · have heq : effect' = .excludes := by simpa using hkept
    exact heq.symm
  · -- `w` comes after every spelling that excludes
    have hle := hgreatest (['w'], .includes) (by decide) hw
    have hspelling := hwritten.mem
    simp only [mem_cons, not_mem_nil, or_false, Prod.mk.injEq, reduceCtorEq, and_true, and_false] at hspelling
    rcases hspelling with rfl | rfl <;> exact absurd hle (by decide)
  · have heq : effect' = .includes := by simpa using hkept
    exact heq.symm

/-- At `/w` the more specific of the two expressions decides, and of its two spellings the last. -/
theorem matchesPath_iff_decidedBy_spelledTwice :
    (∀ r, MostSpecific (withProperties (resolvedRules EntityPath.readForgiving []
          (writtenRules (splitWhitespaceSmart spelledTwice)))) ⟨["w"]⟩ r →
        LastSpellingWins EntityPath.readForgiving [] (writtenRules (splitWhitespaceSmart spelledTwice)) r) ∧
      (@ResolvedEntityPathFilter.matchesPath alphabetical (@EntityPathFilter.resolveForgiving alphabetical
          (EntityPathFilter.parseForgiving spelledTwice) EntityPath.readForgiving []) ⟨["w"]⟩ = true ↔
        DecidedBy (withProperties (resolvedRules EntityPath.readForgiving []
          (writtenRules (splitWhitespaceSmart spelledTwice)))) ⟨["w"]⟩ .includes) ∧
      DecidedBy (withProperties (resolvedRules EntityPath.readForgiving []
        (writtenRules (splitWhitespaceSmart spelledTwice)))) ⟨["w"]⟩ .includes := by
  have hwins := fun r => fun _ : MostSpecific (withProperties (resolvedRules readForgiving []
    (writtenRules (splitWhitespaceSmart spelledTwice)))) ⟨["w"]⟩ r => lastSpellingWins_spelledTwice r
  refine ⟨hwins, @matchesPath_iff_decidedBy alphabetical readForgiving [] spelledTwice ⟨["w"]⟩ hwins, ?_⟩
  rw [resolvedRules_spelledTwice]
  refine ⟨⟨⟨["w"]⟩, false⟩, ⟨⟨.includes, by decide⟩, by decide, ?_⟩, [_, _, _], [], rfl, fun d hd => absurd hd not_mem_nil⟩
  decide
theorem writtenRules_everything :
    writtenRules (splitWhitespaceSmart ['+', ' ', '/', '*', '*']) = [(['/', '*', '*'], .includes)] := by
  have hsplit : splitWhitespaceSmart ['+', ' ', '/', '*', '*'] = [['+', ' ', '/', '*', '*']] := by
    simp [scanRule, isAsciiWhitespace, splitWhitespaceSmart]
  rw [hsplit]
  decide

/-- The properties are left out though the one rule of the text, `+ /**`, matches them and includes them. -/
theorem properties_left_out :
    resolvedRules EntityPath.readForgiving [] (writtenRules (splitWhitespaceSmart ['+', ' ', '/', '*', '*'])) =
        [(⟨⟨[]⟩, true⟩, .includes)] ∧
      ResolvedEntityPathRule.matchesPath ⟨⟨[]⟩, true⟩ ⟨["__properties"]⟩ = true ∧
      @ResolvedEntityPathFilter.matchesPath alphabetical (@EntityPathFilter.resolveForgiving alphabetical
        (EntityPathFilter.parseForgiving ['+', ' ', '/', '*', '*']) EntityPath.readForgiving [])
        ⟨["__properties"]⟩ = false := by
  refine ⟨?_, by decide, ?_⟩
  · rw [writtenRules_everything]
    rfl
  · rw [EntityPathFilter.parseForgiving, EntityPathFilter.fromQueryExpressions, writtenRules_everything]
    decide

end Dalaran
