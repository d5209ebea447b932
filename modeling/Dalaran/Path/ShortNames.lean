import Mathlib.Data.Finset.Basic
import Dalaran.Path.ParsePath

/-
  Short names for a collection of entities (`entity_path.rs`).

  An entity is labelled by its last part. When a label is already in use, the entity
  that has it and the one that comes up for it both go on to one part more, and the
  label is not used again. The new label of the former is not looked up first: what
  has it is dropped from the map (`holds_all_iff`).

  Correspondence (Rust ↔ Lean):
    the loop over the labels of one entity ↔ `Labels.disambiguate`
-/

namespace Dalaran

open List Assoc

/-! ## The code -/

/-- An entity, and how many parts from the end its short name has. -/
structure ShortenedEntity where
  entity : EntityPath
  numPart : Nat
  deriving DecidableEq

namespace ShortenedEntity

def uiString (s : ShortenedEntity) : Text :=
  if s.entity.parts = [] then ['/']
  else List.intercalate ['/'] ((s.entity.parts.reverse.take s.numPart).reverse.map String.toList)

def longer (s : ShortenedEntity) : ShortenedEntity := { s with numPart := s.numPart + 1 }

@[simp] theorem longer_entity (s : ShortenedEntity) : s.longer.entity = s.entity := rfl

@[simp] theorem longer_numPart (s : ShortenedEntity) : s.longer.numPart = s.numPart + 1 := rfl

theorem uiString_longer_of_le {s : ShortenedEntity} (h : s.entity.parts.length ≤ s.numPart) :
    s.longer.uiString = s.uiString := by
  have hlength : s.entity.parts.reverse.length ≤ s.numPart := by rwa [length_reverse]
  rw [uiString, uiString, longer_entity, longer_numPart, take_of_length_le hlength,
    take_of_length_le (Nat.le_succ_of_le hlength)]

end ShortenedEntity

structure Labels where
  strToEntities : Assoc Text ShortenedEntity
  knownBadLabels : Finset Text

namespace Labels

def empty : Labels := ⟨∅, ∅⟩

def conflicts (s : Labels) (label : Text) : Bool :=
  (s.strToEntities.lookup label).isSome || label ∈ s.knownBadLabels

/-- The entity that has the label goes on to its next one. -/
def lengthen (strToEntities : Assoc Text ShortenedEntity) (label : Text) : Assoc Text ShortenedEntity :=
  match strToEntities.lookup label with
  | some existing => (strToEntities.erase label).insert existing.longer.uiString existing.longer
  | none => strToEntities

/-- What is done about a conflict, but for the entity at hand. -/
def afterConflict (s : Labels) (label : Text) : Labels :=
  ⟨lengthen s.strToEntities label, insert label s.knownBadLabels⟩

/-- The loop over the labels of an entity. It ends where there is no conflict, or no part left. -/
def disambiguate (s : Labels) (shortened : ShortenedEntity) : Labels × ShortenedEntity :=
  if s.conflicts shortened.uiString then
    if shortened.longer.uiString = shortened.uiString then (s.afterConflict shortened.uiString, shortened.longer)
    else disambiguate (s.afterConflict shortened.uiString) shortened.longer
  else (s, shortened)
termination_by shortened.entity.parts.length - shortened.numPart
decreasing_by
  have hlt : ¬ shortened.entity.parts.length ≤ shortened.numPart := fun hle =>
    absurd (ShortenedEntity.uiString_longer_of_le hle) ‹_›
  rw [ShortenedEntity.longer_entity, ShortenedEntity.longer_numPart]
  omega

/-- The loop, and putting the entity in under the label it ends with. -/
def place (s : Labels) (shortened : ShortenedEntity) : Labels :=
  let (s, shortened) := s.disambiguate shortened
  { s with strToEntities := s.strToEntities.insert shortened.uiString shortened }

def ofEntities (entities : List EntityPath) : Labels :=
  entities.foldl (fun s entity => s.place ⟨entity, 1⟩) empty

end Labels

def EntityPath.shortNamesWithDisambiguation (entities : List EntityPath) : Assoc EntityPath Text :=
  Assoc.ofList ((Assoc.toList (Labels.ofEntities entities).strToEntities).map fun e => (e.2.entity, e.1))

/-! ## Which entities have a label -/

namespace Labels

def Holds (m : Assoc Text ShortenedEntity) (e : EntityPath) : Prop := ∃ l x, m.lookup l = some x ∧ x.entity = e

/-- Every entity is under its label, and no entity under two. -/
structure Keyed (m : Assoc Text ShortenedEntity) : Prop where
  key : ∀ l x, m.lookup l = some x → x.uiString = l
  unique : ∀ l l' x x', m.lookup l = some x → m.lookup l' = some x' → x.entity = x'.entity → l = l'

variable {m : Assoc Text ShortenedEntity} {x y : ShortenedEntity} {l : Text} {e : EntityPath}

theorem keyed_empty : Keyed ∅ := by
  constructor
  · intro l x h
    cases h
  · intro l l' x x' h
    cases h

theorem Keyed.insert (h : Keyed m) (hx : ¬ Holds m x.entity) : Keyed (m.insert x.uiString x) := by
  constructor
  · intro l y hy
    rw [lookup_insert_ite] at hy
    split_ifs at hy with heq
    · rw [← Option.some.inj hy, heq]
    · exact h.key l y hy
  · intro l l' y y' hy hy' hentity
    rw [lookup_insert_ite] at hy hy'
    split_ifs at hy hy' with heq heq' heq'
    · rw [heq, heq']
    · refine absurd ⟨l', y', hy', ?_⟩ hx
      rw [← hentity, Option.some.inj hy]
    · refine absurd ⟨l, y, hy, ?_⟩ hx
      rw [hentity, Option.some.inj hy']
    · exact h.unique l l' y y' hy hy' hentity

theorem Keyed.erase (h : Keyed m) (l : Text) : Keyed (m.erase l) := by
  have hsub : ∀ k y, (m.erase l).lookup k = some y → m.lookup k = some y := by
    intro k y hy
    rw [lookup_erase_ite] at hy
    split_ifs at hy
    exact hy
  exact ⟨fun k y hy => h.key k y (hsub k y hy),
    fun k k' y y' hy hy' hentity => h.unique k k' y y' (hsub k y hy) (hsub k' y' hy') hentity⟩

theorem Keyed.holds_insert (h : Keyed m) :
    Holds (m.insert x.uiString x) e ↔
      e = x.entity ∨ Holds m e ∧ ∀ y, m.lookup x.uiString = some y → e ≠ y.entity := by
  constructor
  · intro hholds
    obtain ⟨l, z, hz, rfl⟩ := hholds
    rw [lookup_insert_ite] at hz
    split_ifs at hz with heq
    · exact .inl (congrArg ShortenedEntity.entity (Option.some.inj hz).symm)
    · exact .inr ⟨⟨l, z, hz, rfl⟩, fun y hy hentity => heq (h.unique _ _ _ _ hz hy hentity)⟩
  · intro hholds
    rcases hholds with rfl | ⟨⟨l, z, hz, rfl⟩, hother⟩
    · exact ⟨x.uiString, x, AList.lookup_insert _, rfl⟩
    · refine ⟨l, z, ?_, rfl⟩
      rw [lookup_insert_ite, if_neg, hz]
      rintro rfl
      exact hother z hz rfl

theorem Keyed.holds_erase (h : Keyed m) (hx : m.lookup l = some x) :
    Holds (m.erase l) e ↔ Holds m e ∧ e ≠ x.entity := by
  constructor
  · intro hholds
    obtain ⟨k, z, hz, rfl⟩ := hholds
    rw [lookup_erase_ite] at hz
    split_ifs at hz with heq
    exact ⟨⟨k, z, hz, rfl⟩, fun hentity => heq (h.unique _ _ _ _ hz hx hentity)⟩
  · intro hholds
    obtain ⟨⟨k, z, hz, rfl⟩, hne⟩ := hholds
    refine ⟨k, z, ?_, rfl⟩
    rw [lookup_erase_ite, if_neg, hz]
    rintro rfl
    rw [hx] at hz
    exact hne (congrArg ShortenedEntity.entity (Option.some.inj hz).symm)

/-- The next label of the entity that has this one is that of another. -/
def Overtaken (m : Assoc Text ShortenedEntity) (label : Text) (y : ShortenedEntity) : Prop :=
  ∃ existing, m.lookup label = some existing ∧ existing.longer.uiString ≠ label ∧
    m.lookup existing.longer.uiString = some y

theorem Keyed.lengthen (h : Keyed m) (l : Text) : Keyed (lengthen m l) := by
  unfold Labels.lengthen
  split
  · next existing hexisting =>
    refine (h.erase l).insert fun hholds => ?_
    exact ((h.holds_erase hexisting).mp hholds).2 rfl
  · exact h

theorem Keyed.holds_lengthen (h : Keyed m) :
    Holds (Labels.lengthen m l) e ↔ Holds m e ∧ ∀ y, Overtaken m l y → e ≠ y.entity := by
  unfold Labels.lengthen
  split
  · next existing hexisting =>
    rw [(h.erase l).holds_insert, h.holds_erase hexisting]
    have hlookup : ∀ y, (m.erase l).lookup existing.longer.uiString = some y ↔ Overtaken m l y := by
      intro y
      rw [lookup_erase_ite]
      constructor
      · intro hy
        split_ifs at hy with heq
        exact ⟨existing, hexisting, heq, hy⟩
      · intro hy
        obtain ⟨z, hz, hne, hy⟩ := hy
        obtain rfl := Option.mem_unique hexisting hz
        rw [if_neg hne, hy]
    simp only [hlookup]
    have hself : ∀ y, Overtaken m l y → existing.entity ≠ y.entity := by
      intro y hy hentity
      obtain ⟨z, hz, hne, hy⟩ := hy
      obtain rfl := Option.mem_unique hexisting hz
      exact hne (h.unique _ _ _ _ hexisting hy hentity).symm
    by_cases heq : e = existing.entity
    · subst heq
      exact iff_of_true (.inl rfl) ⟨⟨l, existing, hexisting, rfl⟩, hself⟩
    · rw [and_iff_left heq]
      exact or_iff_right heq
  · next hnone =>
    refine (and_iff_left fun y hy => ?_).symm
    obtain ⟨existing, hexisting, -⟩ := hy
    rw [hnone] at hexisting
    cases hexisting

/-! ## One entity -/

/-- The rounds of the loop. -/
inductive Reaches : Labels → ShortenedEntity → Labels → ShortenedEntity → Prop
  | refl (s : Labels) (x : ShortenedEntity) : Reaches s x s x
  | head {s s' : Labels} {x x' : ShortenedEntity} (hconflict : s.conflicts x.uiString = true)
      (hnext : x.longer.uiString ≠ x.uiString) (h : Reaches (s.afterConflict x.uiString) x.longer s' x') :
      Reaches s x s' x'

/-- A round that costs an entity its label: the longer label of the one in the way is that of another, or neither it
nor the one at hand has a part left. -/
def Clash (s : Labels) (x : ShortenedEntity) : Prop :=
  (∃ y, Overtaken s.strToEntities x.uiString y) ∨
    x.longer.uiString = x.uiString ∧
      ∃ existing, s.strToEntities.lookup x.uiString = some existing ∧ existing.longer.uiString = x.uiString

variable {s s' : Labels} {x' : ShortenedEntity}

theorem place_of_free (h : s.conflicts x.uiString = false) :
    s.place x = { s with strToEntities := s.strToEntities.insert x.uiString x } := by
  rw [place, disambiguate, h]
  rfl

theorem place_of_last (h : s.conflicts x.uiString = true) (hlast : x.longer.uiString = x.uiString) :
    s.place x = { s.afterConflict x.uiString with
      strToEntities := (s.afterConflict x.uiString).strToEntities.insert x.longer.uiString x.longer } := by
  rw [place, disambiguate, if_pos h, if_pos hlast]

theorem strToEntities_place_of_last (h : s.conflicts x.uiString = true) (hlast : x.longer.uiString = x.uiString) :
    (s.place x).strToEntities = (lengthen s.strToEntities x.uiString).insert x.longer.uiString x.longer :=
  congrArg strToEntities (place_of_last h hlast)

theorem place_of_next (h : s.conflicts x.uiString = true) (hnext : x.longer.uiString ≠ x.uiString) :
    s.place x = (s.afterConflict x.uiString).place x.longer := by
  rw [place, disambiguate, if_pos h, if_neg hnext]
  rfl

theorem Overtaken.conflicts (h : Overtaken s.strToEntities l y) : s.conflicts l = true := by
  obtain ⟨existing, hexisting, -⟩ := h
  rw [Labels.conflicts, hexisting]
  rfl

theorem Clash.conflicts (h : s.Clash x) : s.conflicts x.uiString = true := by
  rcases h with ⟨y, hy⟩ | ⟨-, existing, hexisting, -⟩
  · exact hy.conflicts
  · rw [Labels.conflicts, hexisting]
    rfl

theorem not_holds_lengthen (hk : Keyed m) (hx : ¬ Holds m e) : ¬ Holds (lengthen m l) e :=
  fun h => hx (hk.holds_lengthen.mp h).1

theorem place_spec (hk : Keyed s.strToEntities) (hx : ¬ Holds s.strToEntities x.entity) :
    Keyed (s.place x).strToEntities ∧ Holds (s.place x).strToEntities x.entity ∧
      ∀ e, Holds (s.place x).strToEntities e → e = x.entity ∨ Holds s.strToEntities e := by
  induction s, x using disambiguate.induct with
  | case1 s x hconflict hlast =>
    have hlengthen := not_holds_lengthen (l := x.uiString) hk hx
    rw [strToEntities_place_of_last hconflict hlast]
    refine ⟨(hk.lengthen _).insert hlengthen, (hk.lengthen _).holds_insert.mpr (.inl rfl), fun e he => ?_⟩
    exact ((hk.lengthen _).holds_insert.mp he).imp_right fun h => (hk.holds_lengthen.mp h.1).1
  | case2 s x hconflict hnext ih =>
    rw [place_of_next hconflict hnext]
    obtain ⟨hkeyed, hin, honly⟩ := ih (hk.lengthen _) (not_holds_lengthen hk hx)
    exact ⟨hkeyed, hin, fun e he => (honly e he).imp_right fun h => (hk.holds_lengthen.mp h).1⟩
  | case3 s x hfree =>
    rw [place_of_free (Bool.eq_false_iff.mpr hfree)]
    exact ⟨hk.insert hx, hk.holds_insert.mpr (.inl rfl), fun e he => (hk.holds_insert.mp he).imp_right And.left⟩

theorem place_keeps (hk : Keyed s.strToEntities) (hx : ¬ Holds s.strToEntities x.entity)
    (hclash : ∀ s' x', Reaches s x s' x' → ¬ s'.Clash x') (he : Holds s.strToEntities e) :
    Holds (s.place x).strToEntities e := by
  induction s, x using disambiguate.induct with
  | case1 s x hconflict hlast =>
    obtain ⟨hover, hparts⟩ := not_or.mp (hclash s x (.refl s x))
    rw [strToEntities_place_of_last hconflict hlast, (hk.lengthen _).holds_insert, hk.holds_lengthen]
    refine .inr ⟨⟨he, fun y hy => absurd ⟨y, hy⟩ hover⟩, fun y hy => ?_⟩
    -- the one in the way has gone on to another label
    rw [hlast, lengthen] at hy
    split at hy
    · next existing hexisting =>
      have hne : existing.longer.uiString ≠ x.uiString := fun heq => hparts ⟨hlast, existing, hexisting, heq⟩
      rw [lookup_insert_ite, if_neg (Ne.symm hne), lookup_erase_ite, if_pos rfl] at hy
      cases hy
    · next hnone =>
      rw [hnone] at hy
      cases hy
  | case2 s x hconflict hnext ih =>
    rw [place_of_next hconflict hnext]
    refine ih (hk.lengthen _) (not_holds_lengthen hk hx) (fun s' x' h => hclash s' x' (.head hconflict hnext h)) ?_
    refine hk.holds_lengthen.mpr ⟨he, fun y hy => ?_⟩
    exact absurd (.inl ⟨y, hy⟩) (hclash s x (.refl s x))
  | case3 s x hfree =>
    rw [place_of_free (Bool.eq_false_iff.mpr hfree), hk.holds_insert]
    refine .inr ⟨he, fun y hy => ?_⟩
    rw [Labels.conflicts, hy] at hfree
    exact absurd rfl hfree

theorem place_loses (hreach : Reaches s x s' x') (hclash : s'.Clash x') (hk : Keyed s.strToEntities)
    (hx : ¬ Holds s.strToEntities x.entity) :
    ∃ e, Holds s.strToEntities e ∧ ¬ Holds (s.place x).strToEntities e := by
  induction hreach with
  | refl s x =>
    have hconflict := hclash.conflicts
    rcases hclash with ⟨y, hy⟩ | ⟨hlast, existing, hexisting, hnone⟩
    · have hholds : Holds s.strToEntities y.entity := by
        obtain ⟨existing, -, -, hy⟩ := hy
        exact ⟨_, y, hy, rfl⟩
      have hlost : ¬ Holds (lengthen s.strToEntities x.uiString) y.entity := fun h =>
        (hk.holds_lengthen.mp h).2 y hy rfl
      have hne : y.entity ≠ x.entity := fun heq => hx (heq ▸ hholds)
      refine ⟨y.entity, hholds, fun h => ?_⟩
      by_cases hlast : x.longer.uiString = x.uiString
      · rw [strToEntities_place_of_last hconflict hlast, (hk.lengthen _).holds_insert] at h
        exact h.elim hne fun h => hlost h.1
      · rw [place_of_next hconflict hlast] at h
        have honly := (place_spec (s := s.afterConflict x.uiString) (x := x.longer) (hk.lengthen _)
          (not_holds_lengthen hk hx)).2.2 _ h
        exact honly.elim hne hlost
    · have hholds : Holds s.strToEntities existing.entity := ⟨_, existing, hexisting, rfl⟩
      refine ⟨existing.entity, hholds, fun h => ?_⟩
      rw [strToEntities_place_of_last hconflict hlast, (hk.lengthen _).holds_insert] at h
      rcases h with heq | ⟨-, hother⟩
      · exact hx (heq ▸ hholds)
      · refine hother existing.longer ?_ rfl
        rw [hlast, lengthen, hexisting]
        simp [hnone]
  | head hconflict hnext _ ih =>
    rw [place_of_next hconflict hnext]
    obtain ⟨e, he, hlost⟩ := ih hclash (hk.lengthen _) (not_holds_lengthen hk hx)
    exact ⟨e, (hk.holds_lengthen.mp he).1, hlost⟩

/-! ## All entities -/

theorem ofEntities_concat (es : List EntityPath) (e : EntityPath) :
    ofEntities (es ++ [e]) = (ofEntities es).place ⟨e, 1⟩ := by
  rw [ofEntities, foldl_append]
  rfl

variable {es : List EntityPath}

theorem foldl_place_spec (hk : Keyed s.strToEntities) (hnodup : es.Nodup)
    (hfresh : ∀ e ∈ es, ¬ Holds s.strToEntities e) :
    Keyed (es.foldl (fun s e => s.place ⟨e, 1⟩) s).strToEntities ∧
      ∀ e, Holds (es.foldl (fun s e => s.place ⟨e, 1⟩) s).strToEntities e → e ∈ es ∨ Holds s.strToEntities e := by
  induction es generalizing s with
  | nil => exact ⟨hk, fun e he => .inr he⟩
  | cons a es ih =>
    obtain ⟨hnotMem, hnodup⟩ := nodup_cons.mp hnodup
    obtain ⟨hfreshHead, hfresh⟩ := forall_mem_cons.mp hfresh
    obtain ⟨hkeyed, -, honly⟩ := place_spec (s := s) (x := ⟨a, 1⟩) hk hfreshHead
    have hfreshRest : ∀ e ∈ es, ¬ Holds (s.place ⟨a, 1⟩).strToEntities e := by
      intro e he hholds
      rcases honly e hholds with rfl | hholds
      · exact hnotMem he
      · exact hfresh e he hholds
    obtain ⟨hkeyedRest, honlyRest⟩ := ih hkeyed hnodup hfreshRest
    refine ⟨hkeyedRest, fun e he => ?_⟩
    rcases honlyRest e he with he | he
    · exact .inl (mem_cons_of_mem a he)
    · rcases honly e he with rfl | he
      · exact .inl mem_cons_self
      · exact .inr he

theorem not_holds_empty (e : EntityPath) : ¬ Holds empty.strToEntities e := by
  intro h
  obtain ⟨l, x, hx, -⟩ := h
  cases hx

theorem ofEntities_keyed (hnodup : es.Nodup) : Keyed (ofEntities es).strToEntities :=
  (foldl_place_spec keyed_empty hnodup fun e _ => not_holds_empty e).1

theorem mem_of_holds_ofEntities (hnodup : es.Nodup) (h : Holds (ofEntities es).strToEntities e) : e ∈ es :=
  ((foldl_place_spec keyed_empty hnodup fun e _ => not_holds_empty e).2 e h).resolve_right (not_holds_empty e)

/-- The rounds that the loops go through for a collection. -/
def Rounds (es : List EntityPath) (s : Labels) (x : ShortenedEntity) : Prop :=
  ∃ front e back, es = front ++ e :: back ∧ Reaches (ofEntities front) ⟨e, 1⟩ s x

theorem holds_of_not_clash (hnodup : es.Nodup) (h : ∀ s x, Rounds es s x → ¬ s.Clash x) :
    ∀ e ∈ es, Holds (ofEntities es).strToEntities e := by
  induction es using reverseRecOn with
  | nil => exact fun e he => absurd he not_mem_nil
  | append_singleton es a ih =>
    have hsplit : es.Nodup ∧ a ∉ es := by
      rw [nodup_append] at hnodup
      exact ⟨hnodup.1, fun ha => hnodup.2.2 a ha a (mem_singleton.mpr rfl) rfl⟩
    have hfresh : ¬ Holds (ofEntities es).strToEntities a := fun hholds =>
      hsplit.2 (mem_of_holds_ofEntities hsplit.1 hholds)
    have hkeyed := ofEntities_keyed hsplit.1
    have hrest : ∀ e ∈ es, Holds (ofEntities es).strToEntities e := by
      refine ih hsplit.1 fun s x hrounds => h s x ?_
      obtain ⟨front, e, back, rfl, hreach⟩ := hrounds
      exact ⟨front, e, back ++ [a], by simp, hreach⟩
    intro e he
    rw [ofEntities_concat]
    rcases mem_append.mp he with he | he
    · exact place_keeps hkeyed hfresh (fun s x hreach => h s x ⟨es, a, [], rfl, hreach⟩) (hrest e he)
    · rw [mem_singleton.mp he]
      exact (place_spec (x := ⟨a, 1⟩) hkeyed hfresh).2.1

theorem exists_not_holds_of_clash (hnodup : es.Nodup) (hrounds : Rounds es s x)
    (hclash : s.Clash x) : ∃ e ∈ es, ¬ Holds (ofEntities es).strToEntities e := by
  obtain ⟨front, a, back, rfl, hreach⟩ := hrounds
  obtain ⟨hfront, hcons, hdisjoint⟩ := nodup_append.mp hnodup
  obtain ⟨hnotMem, hback⟩ := nodup_cons.mp hcons
  have hkeyed := ofEntities_keyed hfront
  have hfresh : ∀ e ∈ a :: back, ¬ Holds (ofEntities front).strToEntities e := fun e he hholds =>
    hdisjoint e (mem_of_holds_ofEntities hfront hholds) e he rfl
  obtain ⟨e, he, hlost⟩ := place_loses (x := ⟨a, 1⟩) hreach hclash hkeyed (hfresh a mem_cons_self)
  have hmem := mem_of_holds_ofEntities hfront he
  obtain ⟨hkeyedPlace, -, honly⟩ := place_spec (x := ⟨a, 1⟩) hkeyed (hfresh a mem_cons_self)
  have hfreshBack : ∀ e ∈ back, ¬ Holds ((ofEntities front).place ⟨a, 1⟩).strToEntities e := by
    intro e he hholds
    rcases honly e hholds with rfl | hholds
    · exact hnotMem he
    · exact hfresh e (mem_cons_of_mem a he) hholds
  refine ⟨e, mem_append_left _ hmem, fun hholds => ?_⟩
  have hfold : ofEntities (front ++ a :: back) =
      back.foldl (fun s e => s.place ⟨e, 1⟩) ((ofEntities front).place ⟨a, 1⟩) := by
    rw [ofEntities, foldl_append, foldl_cons, ← ofEntities]
  rw [hfold] at hholds
  rcases (foldl_place_spec hkeyedPlace hback hfreshBack).2 e hholds with hin | hin
  · exact hdisjoint e hmem e (mem_cons_of_mem a hin) rfl
  · exact hlost hin

theorem holds_all_iff (hnodup : es.Nodup) :
    (∀ e ∈ es, Holds (ofEntities es).strToEntities e) ↔ ∀ s x, Rounds es s x → ¬ s.Clash x := by
  refine ⟨fun h s x hrounds hclash => ?_, holds_of_not_clash hnodup⟩
  obtain ⟨e, he, hlost⟩ := exists_not_holds_of_clash hnodup hrounds hclash
  exact hlost (h e he)

end Labels

namespace EntityPath

open Labels

/-- Every entity has a short name, and no two have the same. -/
def Disambiguates (es : List EntityPath) : Prop :=
  (∀ e ∈ es, ∃ label, (shortNamesWithDisambiguation es).lookup e = some label) ∧
    ∀ e e' label, (shortNamesWithDisambiguation es).lookup e = some label →
      (shortNamesWithDisambiguation es).lookup e' = some label → e = e'

theorem lookup_shortNames {es : List EntityPath} (hnodup : es.Nodup) {e : EntityPath} {label : Text} :
    (shortNamesWithDisambiguation es).lookup e = some label ↔
      ∃ x, (ofEntities es).strToEntities.lookup label = some x ∧ x.entity = e := by
  have hkeyed := ofEntities_keyed hnodup
  have hkeys : ((Assoc.toList (ofEntities es).strToEntities).map fun e => (e.2.entity, e.1)).map Prod.fst =
      (Assoc.toList (ofEntities es).strToEntities).map fun e => e.2.entity := by
    rw [map_map]
    rfl
  have hentities : ((Assoc.toList (ofEntities es).strToEntities).map fun e => e.2.entity).Nodup := by
    have hfst : (Assoc.toList (ofEntities es).strToEntities).Nodup :=
      Nodup.of_map _ (toList_fst_nodup _)
    refine Nodup.map_on (fun a ha b hb hentity => ?_) hfst
    have ha := mem_toList.mp ha
    have hb := mem_toList.mp hb
    have hlabel := hkeyed.unique a.1 b.1 a.2 b.2 ha hb hentity
    refine Prod.ext hlabel ?_
    rw [← hlabel, ha] at hb
    exact Option.some.inj hb
  rw [shortNamesWithDisambiguation, lookup_ofList (by rwa [hkeys])]
  simp only [mem_map, Prod.mk.injEq, Prod.exists, mem_toList]
  constructor
  · intro h
    obtain ⟨l, x, hx, hentity, rfl⟩ := h
    exact ⟨x, hx, hentity⟩
  · intro h
    obtain ⟨x, hx, hentity⟩ := h
    exact ⟨label, x, hx, hentity, rfl⟩

theorem disambiguates_iff_holds {es : List EntityPath} (hnodup : es.Nodup) :
    Disambiguates es ↔ ∀ e ∈ es, Holds (ofEntities es).strToEntities e := by
  simp only [Disambiguates, lookup_shortNames hnodup, Holds]
  refine and_iff_left fun e e' label he he' => ?_
  obtain ⟨x, hx, rfl⟩ := he
  obtain ⟨x', hx', rfl⟩ := he'
  rw [Option.mem_unique hx hx']

end EntityPath

end Dalaran
