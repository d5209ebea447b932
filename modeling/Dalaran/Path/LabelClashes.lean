import Dalaran.Path.Misread
import Dalaran.Path.ShortNames
import Dalaran.Path.Subtree

/-
  When short names clash.

  A label is the text of an end of a path: of its last parts, or the root's. If no
  two ends have the same text, an entity that is lengthened comes to a label that
  nothing has yet (`Climbing.not_clash`). If two do, there is a collection of ends
  in which one is lost (`eq_of_fullText`).
-/

namespace Dalaran

open List ShortenedEntity Assoc

namespace EntityPath

/-! ## Ends of paths -/

def endOf (p : EntityPath) (n : Nat) : EntityPath := ⟨(p.parts.reverse.take n).reverse⟩

def fullText (p : EntityPath) : Text := (ShortenedEntity.mk p p.parts.length).uiString

theorem length_endOf (p : EntityPath) (n : Nat) : (p.endOf n).parts.length = min n p.parts.length := by
  rw [endOf, length_reverse, length_take, length_reverse]

variable {p : EntityPath}

theorem endOf_of_le {n : Nat} (h : p.parts.length ≤ n) : p.endOf n = p := by
  rw [endOf, take_of_length_le (by rwa [length_reverse]), reverse_reverse]

theorem endOf_endOf (p : EntityPath) (n k : Nat) : (p.endOf n).endOf k = p.endOf (min k n) := by
  rw [endOf, endOf, reverse_reverse, take_take, endOf]

theorem fullText_eq (p : EntityPath) :
    p.fullText = if p.parts = [] then ['/'] else List.intercalate ['/'] (p.parts.map String.toList) := by
  have hall : (p.parts.reverse.take p.parts.length).reverse = p.parts := by
    rw [take_of_length_le (by rw [length_reverse]), reverse_reverse]
  rw [fullText, ShortenedEntity.uiString]
  simp only [hall]

theorem uiString_eq_fullText {n : Nat} (hn : 0 < n) : (ShortenedEntity.mk p n).uiString = (p.endOf n).fullText := by
  have hroot : (p.endOf n).parts = [] ↔ p.parts = [] := by
    rw [← length_eq_zero_iff, ← length_eq_zero_iff, length_endOf]
    omega
  rw [fullText_eq]
  simp only [hroot]
  rfl

theorem endOf_succ {n : Nat} (h : n < p.parts.length) : ∃ q, (p.endOf (n + 1)).parts = q :: (p.endOf n).parts := by
  have hlength : n < p.parts.reverse.length := by rwa [length_reverse]
  refine ⟨p.parts.reverse[n], ?_⟩
  rw [endOf, endOf, take_succ_eq_append_getElem hlength, reverse_append]
  rfl

theorem lt_length_uiString {n : Nat} (hn : 0 < n) (h : n < p.parts.length) :
    (ShortenedEntity.mk p n).uiString.length < (ShortenedEntity.mk p (n + 1)).uiString.length := by
  have hroot : p.parts ≠ [] := ne_nil_of_length_pos (Nat.zero_lt_of_lt h)
  obtain ⟨q, hq⟩ := endOf_succ h
  have hne : (p.endOf n).parts ≠ [] := by
    rw [← length_pos_iff, length_endOf]
    omega
  have hui : ∀ k, (ShortenedEntity.mk p k).uiString =
      List.intercalate ['/'] ((p.endOf k).parts.map String.toList) := fun k => if_neg hroot
  rw [hui, hui, hq, map_cons, intercalate_cons_of_ne_nil (by simpa using hne)]
  simp only [length_append, length_singleton]
  omega

theorem uiString_longer_iff {x : ShortenedEntity} (hx : 0 < x.numPart) :
    x.longer.uiString = x.uiString ↔ x.entity.parts.length ≤ x.numPart := by
  refine ⟨fun heq => ?_, uiString_longer_of_le⟩
  by_contra hlt
  have hlength := lt_length_uiString hx (Nat.lt_of_not_le hlt)
  exact absurd (congrArg List.length heq) hlength.ne'

theorem uiString_of_le {x : ShortenedEntity} (h : x.entity.parts.length ≤ x.numPart) :
    x.uiString = x.entity.fullText := by
  rw [fullText, ShortenedEntity.uiString, ShortenedEntity.uiString,
    take_of_length_le (by rwa [length_reverse]), take_of_length_le (by rw [length_reverse])]

def IsEndIn (es : List EntityPath) (q : EntityPath) : Prop := ∃ p ∈ es, ∃ n, 0 < n ∧ q = p.endOf n

/-- No two ends of paths have the same text. -/
def EndsDistinct (es : List EntityPath) : Prop :=
  ∀ q q', IsEndIn es q → IsEndIn es q' → q.fullText = q'.fullText → q = q'

end EntityPath

/-! ## Ends of different texts -/

namespace Labels

open EntityPath

/-- Whether labels of the entities are only the same for the same end. -/
def EndsApart (U : EntityPath → Prop) : Prop :=
  ∀ e e' n n', U e → U e' → 0 < n → 0 < n' →
    (ShortenedEntity.mk e n).uiString = (ShortenedEntity.mk e' n').uiString → e.endOf n = e'.endOf n'

/-- Whether the shorter labels of an entity are known to be bad. -/
def Below (s : Labels) (x : ShortenedEntity) : Prop :=
  ∀ k, 0 < k → k < x.numPart → (ShortenedEntity.mk x.entity k).uiString ∈ s.knownBadLabels

/-- What the entities that have a label left behind on their way to it: all shorter labels are bad, and theirs is not
unless they have no part left. A label is bad only if the shorter ones are. -/
structure Climbed (U : EntityPath → Prop) (s : Labels) : Prop where
  keyed : Keyed s.strToEntities
  mem : ∀ l x, s.strToEntities.lookup l = some x → U x.entity
  pos : ∀ l x, s.strToEntities.lookup l = some x → 0 < x.numPart
  below : ∀ l x, s.strToEntities.lookup l = some x → s.Below x
  above : ∀ l x, s.strToEntities.lookup l = some x → x.numPart < x.entity.parts.length → l ∉ s.knownBadLabels
  closed : ∀ e, U e → ∀ k, 0 < k → k < e.parts.length → (ShortenedEntity.mk e (k + 1)).uiString ∈ s.knownBadLabels →
    (ShortenedEntity.mk e k).uiString ∈ s.knownBadLabels

structure Climbing (U : EntityPath → Prop) (s : Labels) (x : ShortenedEntity) : Prop where
  climbed : Climbed U s
  fresh : ¬ Holds s.strToEntities x.entity
  mem : U x.entity
  pos : 0 < x.numPart
  below : s.Below x

variable {U : EntityPath → Prop} {s s' : Labels} {x x' y : ShortenedEntity} {l : Text}

theorem Climbed.not_overtaken (hU : EndsApart U) (h : Climbed U s) : ¬ Overtaken s.strToEntities l y := by
  intro hover
  obtain ⟨existing, hexisting, hne, hy⟩ := hover
  have hpos := h.pos l existing hexisting
  have hkey := h.keyed.key l existing hexisting
  have hlt : existing.numPart < existing.entity.parts.length := by
    by_contra hle
    exact hne ((uiString_longer_of_le (Nat.le_of_not_lt hle)).trans hkey)
  -- what has the label ends like the entity, so it passed the shorter one
  have hends : y.entity.endOf y.numPart = existing.entity.endOf (existing.numPart + 1) :=
    hU _ _ _ _ (h.mem _ y hy) (h.mem l existing hexisting) (h.pos _ y hy) (Nat.succ_pos _) (h.keyed.key _ y hy)
  have hlength := congrArg (fun q => q.parts.length) hends
  simp only [length_endOf] at hlength
  have hpassed := h.below _ y hy existing.numPart hpos (by omega)
  have hshort : y.entity.endOf existing.numPart = existing.entity.endOf existing.numPart := by
    have hcut := congrArg (fun q => q.endOf existing.numPart) hends
    simp only [endOf_endOf] at hcut
    rwa [min_eq_left (by omega), min_eq_left (by omega)] at hcut
  rw [uiString_eq_fullText hpos, hshort, ← uiString_eq_fullText hpos] at hpassed
  exact h.above l existing hexisting hlt (hkey ▸ hpassed)

theorem Climbing.not_clash (hU : EndsApart U) (h : Climbing U s x) : ¬ s.Clash x := by
  intro hclash
  rcases hclash with ⟨y, hy⟩ | ⟨hlast, existing, hexisting, hnone⟩
  · exact h.climbed.not_overtaken hU hy
  · have hpos := h.climbed.pos _ existing hexisting
    have hkey := h.climbed.keyed.key _ existing hexisting
    have hends := hU _ _ _ _ (h.climbed.mem _ existing hexisting) h.mem hpos h.pos hkey
    rw [endOf_of_le ((uiString_longer_iff hpos).mp (hnone.trans hkey.symm)),
      endOf_of_le ((uiString_longer_iff h.pos).mp hlast)] at hends
    exact h.fresh ⟨_, existing, hexisting, hends⟩

theorem lookup_lengthen {m : Assoc Text ShortenedEntity} {k : Text} (h : (lengthen m l).lookup k = some y) :
    (k ≠ l ∧ m.lookup k = some y) ∨
      ∃ existing, m.lookup l = some existing ∧ k = existing.longer.uiString ∧ y = existing.longer := by
  unfold lengthen at h
  split at h
  · next existing hexisting =>
    rw [lookup_insert_ite] at h
    split_ifs at h with heq
    · exact .inr ⟨existing, hexisting, heq, (Option.some.inj h).symm⟩
    · rw [lookup_erase_ite] at h
      split_ifs at h with hne
      exact .inl ⟨hne, h⟩
  · next hnone =>
    refine .inl ⟨?_, h⟩
    rintro rfl
    rw [hnone] at h
    cases h

theorem Below.mono {s t : Labels} (h : s.Below x) (hsub : s.knownBadLabels ⊆ t.knownBadLabels) : t.Below x :=
  fun k hk hlt => hsub (h k hk hlt)

theorem Below.longer (h : s.Below x) (hx : x.uiString ∈ s.knownBadLabels) : s.Below x.longer := by
  intro k hk hlt
  rcases (Nat.lt_succ_iff.mp hlt).lt_or_eq with hlt | rfl
  · exact h k hk hlt
  · exact hx

theorem Climbing.afterConflict (hU : EndsApart U) (h : Climbing U s x) :
    Climbing U (s.afterConflict x.uiString) x.longer := by
  have hsub : s.knownBadLabels ⊆ (s.afterConflict x.uiString).knownBadLabels := Finset.subset_insert _ _
  have hself : x.uiString ∈ (s.afterConflict x.uiString).knownBadLabels := Finset.mem_insert_self _ _
  have hbelow : (s.afterConflict x.uiString).Below x.longer := (h.below.mono hsub).longer hself
  have hlabels : Climbed U (s.afterConflict x.uiString) := by
    refine ⟨h.climbed.keyed.lengthen _, fun k y hy => ?_, fun k y hy => ?_, fun k y hy => ?_, fun k y hy hlt => ?_,
      fun e he k hk hlt hbad => ?_⟩
    · rcases lookup_lengthen hy with ⟨-, hy⟩ | ⟨existing, hexisting, -, rfl⟩
      · exact h.climbed.mem k y hy
      · exact h.climbed.mem _ existing hexisting
    · rcases lookup_lengthen hy with ⟨-, hy⟩ | ⟨existing, -, -, rfl⟩
      · exact h.climbed.pos k y hy
      · exact Nat.succ_pos _
    · rcases lookup_lengthen hy with ⟨-, hy⟩ | ⟨existing, hexisting, -, rfl⟩
      · exact (h.climbed.below k y hy).mono hsub
      · refine ((h.climbed.below _ existing hexisting).mono hsub).longer ?_
        rw [h.climbed.keyed.key _ existing hexisting]
        exact hself
    · rcases lookup_lengthen hy with ⟨hne, hy⟩ | ⟨existing, hexisting, rfl, rfl⟩
      · exact fun hmem => (Finset.mem_insert.mp hmem).elim hne (h.climbed.above k y hy hlt)
      · -- a bad label would have a bad one below it, which is that of the entity in the way
        have hpos := h.climbed.pos _ existing hexisting
        have hkey := h.climbed.keyed.key _ existing hexisting
        have hshort : existing.numPart < existing.entity.parts.length := Nat.lt_of_succ_lt hlt
        intro hmem
        rcases Finset.mem_insert.mp hmem with heq | hbad
        · have hlength := (uiString_longer_iff hpos).mp (heq.trans hkey.symm)
          omega
        · have hbelow := h.climbed.closed _ (h.climbed.mem _ existing hexisting) _ hpos hshort hbad
          exact h.climbed.above _ existing hexisting hshort (hkey ▸ hbelow)
    · rcases Finset.mem_insert.mp hbad with heq | hbad
      · have hends := hU _ _ _ _ he h.mem (Nat.succ_pos k) h.pos heq
        have hlength := congrArg (fun q => q.parts.length) hends
        simp only [length_endOf] at hlength
        have hcut := congrArg (fun q => q.endOf k) hends
        simp only [endOf_endOf] at hcut
        rw [min_eq_left (by omega), min_eq_left (by omega)] at hcut
        have hpassed := h.below k hk (by omega)
        rw [uiString_eq_fullText hk, ← hcut, ← uiString_eq_fullText hk] at hpassed
        exact hsub hpassed
      · exact hsub (h.climbed.closed e he k hk hlt hbad)
  exact ⟨hlabels, not_holds_lengthen h.climbed.keyed h.fresh, h.mem, Nat.succ_pos _, hbelow⟩

theorem Climbing.reaches (hU : EndsApart U) (hreach : Reaches s x s' x') (h : Climbing U s x) : Climbing U s' x' := by
  induction hreach with
  | refl s x => exact h
  | head _ _ _ ih => exact ih (h.afterConflict hU)

theorem Climbing.insert (h : Climbing U s x) (hfree : x.uiString ∉ s.knownBadLabels ∨
    x.entity.parts.length ≤ x.numPart) :
    Climbed U { s with strToEntities := s.strToEntities.insert x.uiString x } := by
  refine ⟨h.climbed.keyed.insert h.fresh, fun k y hy => ?_, fun k y hy => ?_, fun k y hy => ?_,
    fun k y hy hlt => ?_, h.climbed.closed⟩
  all_goals
    rw [lookup_insert_ite] at hy
    split_ifs at hy with heq
  · rw [← Option.some.inj hy]
    exact h.mem
  · exact h.climbed.mem k y hy
  · rw [← Option.some.inj hy]
    exact h.pos
  · exact h.climbed.pos k y hy
  · rw [← Option.some.inj hy]
    exact h.below
  · exact h.climbed.below k y hy
  · rw [← Option.some.inj hy] at hlt
    rw [heq]
    exact hfree.resolve_right (Nat.not_le_of_lt hlt)
  · exact h.climbed.above k y hy hlt

theorem Climbing.place (hU : EndsApart U) (h : Climbing U s x) : Climbed U (s.place x) := by
  induction s, x using disambiguate.induct with
  | case1 s x hconflict hlast =>
    have hnext := h.afterConflict hU
    have hparts : x.longer.entity.parts.length ≤ x.longer.numPart :=
      Nat.le_succ_of_le ((uiString_longer_iff h.pos).mp hlast)
    rw [place_of_last hconflict hlast]
    exact hnext.insert (.inr hparts)
  | case2 s x hconflict hnext ih =>
    rw [place_of_next hconflict hnext]
    exact ih (h.afterConflict hU)
  | case3 s x hfree =>
    rw [place_of_free (Bool.eq_false_iff.mpr hfree)]
    refine h.insert (.inl fun hbad => hfree ?_)
    rw [conflicts, decide_eq_true hbad, Bool.or_true]

theorem climbed_empty (U : EntityPath → Prop) : Climbed U empty := by
  refine ⟨keyed_empty, fun l x h => ?_, fun l x h => ?_, fun l x h => ?_, fun l x h => ?_, fun e _ k _ _ h => ?_⟩
  · cases h
  · cases h
  · cases h
  · cases h
  · exact absurd h (Finset.notMem_empty _)

variable {es : List EntityPath}

theorem Climbed.start {e : EntityPath} (h : Climbed U (ofEntities es)) (hnodup : es.Nodup) (hmem : e ∉ es)
    (he : U e) : Climbing U (ofEntities es) ⟨e, 1⟩ := by
  refine ⟨h, fun hholds => hmem (mem_of_holds_ofEntities hnodup hholds), he, Nat.one_pos, fun k hk hlt => ?_⟩
  exact absurd (Nat.lt_of_lt_of_le hlt (Nat.succ_le_of_lt hk)) (Nat.lt_irrefl _)

theorem climbed_ofEntities (hU : EndsApart U) (hnodup : es.Nodup) (hes : ∀ e ∈ es, U e) :
    Climbed U (ofEntities es) := by
  induction es using reverseRecOn with
  | nil => exact climbed_empty U
  | append_singleton es a ih =>
    obtain ⟨hes', -, hdisjoint⟩ := nodup_append.mp hnodup
    have hmem : a ∉ es := fun ha => hdisjoint a ha a (mem_singleton.mpr rfl) rfl
    have hclimbed := ih hes' fun e he => hes e (mem_append_left _ he)
    rw [ofEntities_concat]
    exact (hclimbed.start hes' hmem (hes a (mem_append_right _ (mem_singleton.mpr rfl)))).place hU

theorem not_clash_of_endsApart (hU : EndsApart U) (hnodup : es.Nodup) (hes : ∀ e ∈ es, U e)
    (hrounds : Rounds es s x) : ¬ s.Clash x := by
  obtain ⟨front, e, back, rfl, hreach⟩ := hrounds
  obtain ⟨hfront, -, hdisjoint⟩ := nodup_append.mp hnodup
  have hclimbed := climbed_ofEntities hU hfront fun e he => hes e (mem_append_left _ he)
  have hmem : e ∉ front := fun he => hdisjoint e he e mem_cons_self rfl
  have hstart := hclimbed.start hfront hmem (hes e (mem_append_right _ mem_cons_self))
  exact (hstart.reaches hU hreach).not_clash hU

/-! ## Ends of the same text -/

structure Full (s : Labels) (es : List EntityPath) : Prop where
  full : ∀ l y, s.strToEntities.lookup l = some y → l = y.entity.fullText ∧ y.entity.parts.length ≤ y.numPart
  taken : ∀ e ∈ es, ∃ y, s.strToEntities.lookup e.fullText = some y

theorem Full.lengthen (h : Full s es) (l : Text) : Full (s.afterConflict l) es := by
  have hsame : ∀ existing, s.strToEntities.lookup l = some existing → existing.longer.uiString = l := by
    intro existing hexisting
    obtain ⟨rfl, hparts⟩ := h.full l existing hexisting
    exact uiString_of_le (x := existing.longer) (Nat.le_succ_of_le hparts)
  constructor
  · intro k y hy
    rcases lookup_lengthen hy with ⟨-, hy⟩ | ⟨existing, hexisting, rfl, rfl⟩
    · exact h.full k y hy
    · obtain ⟨hl, hparts⟩ := h.full l existing hexisting
      exact ⟨(hsame existing hexisting).trans hl, Nat.le_succ_of_le hparts⟩
  · intro e he
    obtain ⟨y, hy⟩ := h.taken e he
    rw [afterConflict, Labels.lengthen]
    split
    · next existing hexisting =>
      rw [hsame existing hexisting, lookup_insert_ite, lookup_erase_ite]
      split_ifs
      · exact ⟨_, rfl⟩
      · exact ⟨y, hy⟩
    · exact ⟨y, hy⟩

theorem Full.insert (h : Full s es) (hparts : x.entity.parts.length ≤ x.numPart) :
    Full { s with strToEntities := s.strToEntities.insert x.uiString x } (es ++ [x.entity]) := by
  have htext : x.uiString = x.entity.fullText := uiString_of_le hparts
  constructor
  · intro k y hy
    rw [lookup_insert_ite] at hy
    split_ifs at hy with heq
    · rw [← Option.some.inj hy, heq]
      exact ⟨htext, hparts⟩
    · exact h.full k y hy
  · intro e he
    rw [lookup_insert_ite]
    split_ifs with heq
    · exact ⟨x, rfl⟩
    · rcases mem_append.mp he with he | he
      · exact h.taken e he
      · rw [mem_singleton.mp he, htext] at heq
        exact absurd rfl heq

theorem Full.place (h : Full s es) (hx : 0 < x.numPart)
    (hends : ∀ k, x.numPart ≤ k → k < x.entity.parts.length → x.entity.endOf k ∈ es) :
    Full (s.place x) (es ++ [x.entity]) := by
  induction s, x using disambiguate.induct with
  | case1 s x hconflict hlast =>
    rw [place_of_last hconflict hlast]
    exact (h.lengthen _).insert (Nat.le_succ_of_le ((uiString_longer_iff hx).mp hlast))
  | case2 s x hconflict hnext ih =>
    rw [place_of_next hconflict hnext]
    exact ih (h.lengthen _) (Nat.succ_pos _) fun k hk => hends k (Nat.le_of_succ_le hk)
  | case3 s x hfree =>
    rw [place_of_free (Bool.eq_false_iff.mpr hfree)]
    refine h.insert (Nat.le_of_not_lt fun hlt => hfree ?_)
    obtain ⟨y, hy⟩ := h.taken _ (hends x.numPart (le_refl _) hlt)
    rw [← uiString_eq_fullText hx] at hy
    rw [conflicts, hy]
    rfl

/-- Every path comes after its ends. -/
def EndsFirst (es : List EntityPath) : Prop :=
  ∀ front e back, es = front ++ e :: back → ∀ k, 0 < k → k < e.parts.length → e.endOf k ∈ front

theorem full_ofEntities (h : EndsFirst es) : Full (ofEntities es) es := by
  induction es using reverseRecOn with
  | nil =>
    constructor
    · intro l y hy
      cases hy
    · exact fun e he => absurd he not_mem_nil
  | append_singleton es a ih =>
    rw [ofEntities_concat]
    have hes : EndsFirst es := fun front e back hsplit => h front e (back ++ [a]) (by rw [hsplit]; simp)
    exact (ih hes).place (x := ⟨a, 1⟩) Nat.one_pos fun k hk => h es a [] rfl k hk

end Labels

namespace EntityPath

open Labels

variable {es : List EntityPath}

theorem lookup_shortNames_full (hnodup : es.Nodup) (h : EndsFirst es) {e : EntityPath} {label : Text}
    (hlabel : (shortNamesWithDisambiguation es).lookup e = some label) : label = e.fullText := by
  obtain ⟨x, hx, rfl⟩ := (lookup_shortNames hnodup).mp hlabel
  exact ((full_ofEntities h).full label x hx).1

theorem eq_of_fullText {es : List EntityPath} (hnodup : es.Nodup) (h : EndsFirst es) (hall : Disambiguates es)
    {q q' : EntityPath} (hq : q ∈ es) (hq' : q' ∈ es) (htext : q.fullText = q'.fullText) : q = q' := by
  obtain ⟨label, hlabel⟩ := hall.1 q hq
  obtain ⟨label', hlabel'⟩ := hall.1 q' hq'
  have heq : label = label' :=
    (lookup_shortNames_full hnodup h hlabel).trans (htext.trans (lookup_shortNames_full hnodup h hlabel').symm)
  rw [← heq] at hlabel'
  exact hall.2 q q' label hlabel hlabel'

/-- The ends of the paths, shorter ones first. -/
def sortedEnds (es : List EntityPath) : List EntityPath :=
  (es.flatMap fun p => (List.range (p.parts.length + 1)).map fun n => p.endOf (n + 1)).dedup.insertionSort
    fun q r => q.parts.length ≤ r.parts.length

theorem sortedEnds_nodup (es : List EntityPath) : (sortedEnds es).Nodup :=
  (perm_insertionSort _ _).nodup_iff.mpr (nodup_dedup _)

theorem mem_sortedEnds {q : EntityPath} : q ∈ sortedEnds es ↔ IsEndIn es q := by
  rw [sortedEnds, mem_insertionSort, List.mem_dedup, mem_flatMap]
  refine exists_congr fun p => and_congr_right fun _ => ?_
  constructor
  · intro hmem
    obtain ⟨n, -, rfl⟩ := mem_map.mp hmem
    exact ⟨n + 1, Nat.succ_pos n, rfl⟩
  · intro hend
    obtain ⟨n, hn, rfl⟩ := hend
    refine mem_map.mpr ⟨min (n - 1) p.parts.length, mem_range.mpr (by omega), ?_⟩
    rcases Nat.le_total (n - 1) p.parts.length with hle | hle
    · rw [min_eq_left hle, Nat.sub_add_cancel hn]
    · rw [min_eq_right hle, endOf_of_le (Nat.le_succ _), endOf_of_le (by omega)]

theorem endsFirst_sortedEnds (es : List EntityPath) : EndsFirst (sortedEnds es) := by
  intro front e back hsplit k hk hlt
  have he : IsEndIn es e := mem_sortedEnds.mp (hsplit ▸ mem_append_right front mem_cons_self)
  obtain ⟨p, hp, n, hn, rfl⟩ := he
  have hend : (p.endOf n).endOf k ∈ sortedEnds es := by
    refine mem_sortedEnds.mpr ⟨p, hp, min k n, by omega, ?_⟩
    exact endOf_endOf p n k
  have hshorter : ((p.endOf n).endOf k).parts.length < (p.endOf n).parts.length := by
    rw [length_endOf]
    omega
  have hsorted : (sortedEnds es).Pairwise fun q r => q.parts.length ≤ r.parts.length :=
    pairwise_insertionSort _ _
  rw [hsplit] at hend hsorted
  rcases mem_append.mp hend with hfront | hrest
  · exact hfront
  · -- what follows is not shorter
    have hback := (pairwise_append.mp hsorted).2.1
    rcases mem_cons.mp hrest with heq | hmem
    · exact absurd (congrArg (fun q => q.parts.length) heq) hshorter.ne
    · exact absurd ((pairwise_cons.mp hback).1 _ hmem) (Nat.not_le_of_lt hshorter)

/-! ## Which collections are labelled -/

theorem isEndIn_self {p : EntityPath} (h : p ∈ es) : IsEndIn es p :=
  ⟨p, h, p.parts.length + 1, Nat.succ_pos _, (endOf_of_le (Nat.le_succ _)).symm⟩

theorem isEndIn_endOf {q : EntityPath} (h : IsEndIn es q) {n : Nat} (hn : 0 < n) : IsEndIn es (q.endOf n) := by
  obtain ⟨p, hp, k, hk, rfl⟩ := h
  exact ⟨p, hp, min n k, by omega, endOf_endOf p k n⟩

theorem endsApart_of_endsDistinct (h : EndsDistinct es) : EndsApart (IsEndIn es) := by
  intro e e' n n' he he' hn hn' htext
  rw [uiString_eq_fullText hn, uiString_eq_fullText hn'] at htext
  exact h _ _ (isEndIn_endOf he hn) (isEndIn_endOf he' hn') htext

theorem endsDistinct_of_plain (h : ∀ p ∈ es, ∀ part ∈ p.parts, part ≠ "" ∧ '/' ∉ part.toList) : EndsDistinct es := by
  have hparts : ∀ q, IsEndIn es q → ∀ part ∈ q.parts, part ≠ "" ∧ '/' ∉ part.toList := by
    intro q hq part hpart
    obtain ⟨p, hp, n, -, rfl⟩ := hq
    exact h p hp part (mem_reverse.mp (mem_of_mem_take (mem_reverse.mp hpart)))
  have hsplit : ∀ q, IsEndIn es q → q.fullText.splitOn '/' =
      if q.parts = [] then [[], []] else q.parts.map String.toList := by
    intro q hq
    rw [fullText_eq]
    split_ifs with hroot
    · decide
    · refine splitOn_intercalate '/' (fun l hl => ?_) (by simpa using hroot)
      obtain ⟨part, hpart, rfl⟩ := mem_map.mp hl
      exact (hparts q hq part hpart).2
  have hnotRoot : ∀ q, IsEndIn es q → q.parts.map String.toList ≠ [[], []] := by
    intro q hq heq
    have hmem : [] ∈ q.parts.map String.toList := by
      rw [heq]
      exact mem_cons_self
    obtain ⟨part, hpart, hempty⟩ := mem_map.mp hmem
    exact toList_ne_nil (hparts q hq part hpart).1 hempty
  intro q q' hq hq' htext
  have hlists := congrArg (fun t => t.splitOn '/') htext
  simp only [hsplit q hq, hsplit q' hq'] at hlists
  split_ifs at hlists with hroot hroot' hroot'
  · exact EntityPath.eq_of_parts (hroot.trans hroot'.symm)
  · exact absurd hlists.symm (hnotRoot q' hq')
  · exact absurd hlists (hnotRoot q hq)
  · exact EntityPath.eq_of_parts (map_injective_iff.mpr (fun a b => String.toList_inj.mp) hlists)

/-- Of different paths each gets a label, and no two the same, exactly if no round clashes. For all collections of
ends of some paths this is so exactly if no two of these ends have the same text. -/
theorem disambiguates_iff {es : List EntityPath} (hnodup : es.Nodup) :
    (Disambiguates es ↔ ∀ s x, Rounds es s x → ¬ s.Clash x) ∧
      (EndsDistinct es ↔ ∀ es' : List EntityPath, es'.Nodup → (∀ p ∈ es', IsEndIn es p) → Disambiguates es') := by
  refine ⟨(disambiguates_iff_holds hnodup).trans (holds_all_iff hnodup), ?_⟩
  constructor
  · intro h es' hnodup' hends
    rw [disambiguates_iff_holds hnodup', holds_all_iff hnodup']
    exact fun s x hrounds => not_clash_of_endsApart (endsApart_of_endsDistinct h) hnodup' hends hrounds
  · intro h q q' hq hq' htext
    have hall := h (sortedEnds es) (sortedEnds_nodup es) fun p hp => mem_sortedEnds.mp hp
    exact eq_of_fullText (sortedEnds_nodup es) (endsFirst_sortedEnds es) hall (mem_sortedEnds.mpr hq)
      (mem_sortedEnds.mpr hq') htext

theorem disambiguates_iff_cameras :
    [EntityPath.mk ["left", "camera"], ⟨["right", "camera"]⟩].Nodup ∧
      Disambiguates [⟨["left", "camera"]⟩, ⟨["right", "camera"]⟩] := by
  have hplain : ∀ p ∈ [EntityPath.mk ["left", "camera"], ⟨["right", "camera"]⟩], ∀ part ∈ p.parts,
      part ≠ "" ∧ '/' ∉ part.toList := by decide
  exact ⟨by decide, (disambiguates_iff (by decide)).2.mp (endsDistinct_of_plain hplain) _ (by decide)
    fun p hp => isEndIn_self hp⟩

/-- The part `a/b` and the parts `a` and `b` have the same text, and only one of the paths gets it. -/
theorem slash_not_disambiguates :
    [EntityPath.mk ["b"], ⟨["a/b"]⟩, ⟨["a", "b"]⟩].Nodup ∧ ¬ Disambiguates [⟨["b"]⟩, ⟨["a/b"]⟩, ⟨["a", "b"]⟩] := by
  refine ⟨by decide, fun h => ?_⟩
  have hfirst : EndsFirst [⟨["b"]⟩, ⟨["a/b"]⟩, ⟨["a", "b"]⟩] := by
    intro front e back hsplit k hk hlt
    rcases front with _ | ⟨a, _ | ⟨b, _ | ⟨c, front⟩⟩⟩
    · obtain rfl := (cons.inj hsplit).1
      exact absurd hk (by simpa using hlt)
    · obtain rfl := (cons.inj (cons.inj hsplit).2).1
      exact absurd hk (by simpa using hlt)
    · obtain ⟨rfl, hrest⟩ := cons.inj hsplit
      obtain ⟨rfl, hlast⟩ := cons.inj hrest
      obtain rfl := (cons.inj hlast).1
      obtain rfl : k = 1 := by
        rw [length_cons, length_singleton] at hlt
        omega
      decide
    · simp at hsplit
  have heq := @eq_of_fullText _ (by decide) hfirst h ⟨["a/b"]⟩ ⟨["a", "b"]⟩ (by decide) (by decide)
  revert heq
  decide

end EntityPath

end Dalaran
