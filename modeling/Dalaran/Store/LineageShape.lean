import Mathlib.Algebra.Order.BigOperators.Group.List
import Mathlib.Algebra.Order.Group.Nat
import Mathlib.Logic.Relation
import Dalaran.Store.RefCount

/-
  The shape of lineages: splits and compactions do not mix.

  `Ancestry` is the lineage seen as a graph: the direct lineage of every id, and
  nothing of the reference counts. It is `Shaped` if

    1. the source of a split is neither split nor compacted itself;
    2. no source of a compaction is the result of a split;
    3. sources rank below what was made of them, so the recursion over ancestors
       ends.

  An id becomes a root (`Shaped.of_roots`), or new ids come in on top of old ones
  (`Shaped.derive`); so every reachable store is shaped (`Reachable.shaped`).

  Correspondence (Rust ↔ Lean):
    `descends_from_a_split`, debug build ↔ `descendsFromASplitChecked`
    `descends_from_a_split`, release build ↔ `descendsFromASplit` in `Store/Lineage`
-/

namespace Dalaran

open List Option ChunkStore LineageDroppingCtx

/-- The direct lineage of every id. -/
abbrev Ancestry := ChunkId → Option ChunkDirectLineage

namespace Ancestry

variable {a b : Ancestry} {x y : ChunkId}

def Source (a : Ancestry) (x y : ChunkId) : Prop := ∃ l, a x = some l ∧ y ∈ l.referencedChunks

def Ancestor (a : Ancestry) : ChunkId → ChunkId → Prop := Relation.ReflTransGen a.Source

def IsSplit (a : Ancestry) (x : ChunkId) : Prop := ∃ source siblings, a x = some (.splitFrom source siblings)

def IsCompaction (a : Ancestry) (x : ChunkId) : Prop := ∃ sources, a x = some (.compactedFrom sources)

structure Shaped (a : Ancestry) : Prop where
  split : ∀ x source siblings, a x = some (.splitFrom source siblings) →
    ¬ a.IsSplit source ∧ ¬ a.IsCompaction source
  compacted : ∀ x sources, a x = some (.compactedFrom sources) → ∀ y ∈ sources, ¬ a.IsSplit y
  ranked : ∃ rank : ChunkId → Nat, ∀ x y, a.Source x y → rank y < rank x

/-! ## Ancestors of a shaped lineage -/

theorem Source.isSplit_or_isCompaction (h : a.Source x y) : a.IsSplit x ∨ a.IsCompaction x := by
  obtain ⟨l, hl, hy⟩ := h
  cases l with
  | splitFrom source siblings => exact .inl ⟨source, siblings, hl⟩
  | compactedFrom sources => exact .inr ⟨sources, hl⟩
  | rootFromManifest isStatic => cases hy
  | volatile => cases hy

theorem Shaped.not_isSplit (h : a.Shaped) (hx : ¬ a.IsSplit x) (hxy : a.Ancestor x y) : ¬ a.IsSplit y := by
  induction hxy with
  | refl => exact hx
  | @tail z w _ hstep ih =>
    obtain ⟨sources, hz⟩ := hstep.isSplit_or_isCompaction.resolve_left ih
    obtain ⟨l, hl, hw⟩ := hstep
    rw [hz] at hl
    cases hl
    exact h.compacted z sources hz w hw

theorem Shaped.ancestor_of_isSplit (h : a.Shaped) (hx : a.IsSplit x) (hxy : a.Ancestor x y) :
    y = x ∨ ¬ a.IsSplit y ∧ ¬ a.IsCompaction y := by
  induction hxy with
  | refl => exact .inl rfl
  | @tail z w _ hstep ih =>
    rcases ih with rfl | ⟨hsplit, hcompaction⟩
    · obtain ⟨source, siblings, hz⟩ := hx
      obtain ⟨l, hl, hw⟩ := hstep
      rw [hz] at hl
      cases hl
      obtain rfl := mem_singleton.mp hw
      exact .inr (h.split z w siblings hz)
    · exact absurd hstep.isSplit_or_isCompaction (not_or.mpr ⟨hsplit, hcompaction⟩)

theorem Shaped.unmixed (h : a.Shaped) (x : ChunkId) :
    ¬ ((∃ y, a.Ancestor x y ∧ a.IsSplit y) ∧ ∃ y, a.Ancestor x y ∧ a.IsCompaction y) := by
  rintro ⟨⟨y, hxy, hy⟩, z, hxz, hz⟩
  by_cases hx : a.IsSplit x
  · rcases h.ancestor_of_isSplit hx hxz with rfl | ⟨-, hcompaction⟩
    · obtain ⟨source, siblings, hsplit⟩ := hx
      obtain ⟨sources, hcompacted⟩ := hz
      rw [hsplit] at hcompacted
      simp at hcompacted
    · exact hcompaction hz
  · exact h.not_isSplit hx hxy hy

/-! ## Changes of a shaped lineage -/

theorem Shaped.of_roots (h : a.Shaped)
    (hb : ∀ x l, b x = some l → l = .volatile ∨ (∃ isStatic, l = .rootFromManifest isStatic) ∨ a x = some l) :
    b.Shaped := by
  have hsplit : ∀ {x}, b.IsSplit x → a.IsSplit x := by
    intro x hx
    obtain ⟨source, siblings, hx⟩ := hx
    rcases hb x _ hx with h1 | ⟨_, h1⟩ | h1
    · cases h1
    · cases h1
    · exact ⟨source, siblings, h1⟩
  have hcompaction : ∀ {x}, b.IsCompaction x → a.IsCompaction x := by
    intro x hx
    obtain ⟨sources, hx⟩ := hx
    rcases hb x _ hx with h1 | ⟨_, h1⟩ | h1
    · cases h1
    · cases h1
    · exact ⟨sources, h1⟩
  have hsource : ∀ {x y}, b.Source x y → a.Source x y := by
    intro x y hxy
    obtain ⟨l, hl, hy⟩ := hxy
    rcases hb x l hl with rfl | ⟨_, rfl⟩ | h1
    · cases hy
    · cases hy
    · exact ⟨l, h1, hy⟩
  obtain ⟨rank, hrank⟩ := h.ranked
  refine ⟨fun x source siblings hx => ?_, fun x sources hx y hy => ?_, rank, fun x y hxy => hrank x y (hsource hxy)⟩
  · rcases hb x _ hx with h1 | ⟨_, h1⟩ | h1
    · cases h1
    · cases h1
    · obtain ⟨h2, h3⟩ := h.split x source siblings h1
      exact ⟨mt hsplit h2, mt hcompaction h3⟩
  · rcases hb x _ hx with h1 | ⟨_, h1⟩ | h1
    · cases h1
    · cases h1
    · exact mt hsplit (h.compacted x sources h1 y hy)

/-- A lineage on top of old ids: a split of a root, or a compaction of chunks that are no pieces. -/
def Derivable (a : Ancestry) (new : ChunkId → Prop) : ChunkDirectLineage → Prop
  | .splitFrom source _ => ¬ new source ∧ ¬ a.IsSplit source ∧ ¬ a.IsCompaction source
  | .compactedFrom sources => ∀ y ∈ sources, ¬ new y ∧ ¬ a.IsSplit y
  | .rootFromManifest _ => True
  | .volatile => True

theorem Derivable.not_new {new : ChunkId → Prop} {l : ChunkDirectLineage} (h : a.Derivable new l)
    (hy : y ∈ l.referencedChunks) : ¬ new y := by
  cases l with
  | splitFrom source siblings =>
    obtain rfl := mem_singleton.mp hy
    exact h.1
  | compactedFrom sources => exact (h y hy).1
  | rootFromManifest isStatic => cases hy
  | volatile => cases hy

theorem Shaped.derive (h : a.Shaped) {new : ChunkId → Prop}
    (hb : ∀ x l, b x = some l → a x = some l ∨ new x ∧ a.Derivable new l)
    (hnew : ∀ x, new x → a x = none ∧ ∀ y, ¬ a.Source y x) : b.Shaped := by
  classical
  have hold : ∀ {x}, ¬ new x → ∀ l, b x = some l → a x = some l :=
    fun hx l hl => (hb _ l hl).resolve_right fun h' => hx h'.1
  have hsplit : ∀ {x}, ¬ new x → b.IsSplit x → a.IsSplit x :=
    fun hx ⟨source, siblings, hl⟩ => ⟨source, siblings, hold hx _ hl⟩
  have hcompaction : ∀ {x}, ¬ new x → b.IsCompaction x → a.IsCompaction x :=
    fun hx ⟨sources, hl⟩ => ⟨sources, hold hx _ hl⟩
  obtain ⟨rank, hrank⟩ := h.ranked
  refine ⟨fun x source siblings hx => ?_, fun x sources hx y hy => ?_, ?_⟩
  · rcases hb x _ hx with hx | ⟨-, hsource, h1, h2⟩
    · have hsource : ¬ new source := fun hs => (hnew source hs).2 x ⟨_, hx, mem_singleton_self _⟩
      obtain ⟨h1, h2⟩ := h.split x source siblings hx
      exact ⟨mt (hsplit hsource) h1, mt (hcompaction hsource) h2⟩
    · exact ⟨mt (hsplit hsource) h1, mt (hcompaction hsource) h2⟩
  · rcases hb x _ hx with hx | ⟨-, hl⟩
    · have hold' : ¬ new y := fun hs => (hnew y hs).2 x ⟨_, hx, hy⟩
      exact mt (hsplit hold') (h.compacted x sources hx y hy)
    · obtain ⟨hold', h1⟩ := hl y hy
      exact mt (hsplit hold') h1
  · -- a new id ranks above the sum of its sources
    let above (l : ChunkDirectLineage) : Nat := (l.referencedChunks.map rank).sum + 1
    refine ⟨fun x => if new x then (b x).elim 0 above else rank x, fun x y hxy => ?_⟩
    obtain ⟨l, hl, hy⟩ := hxy
    rcases hb x l hl with hx | ⟨hx, hderivable⟩
    · have hxold : ¬ new x := fun hs => by simp [(hnew x hs).1] at hx
      have hyold : ¬ new y := fun hs => (hnew y hs).2 x ⟨l, hx, hy⟩
      simp only [hxold, hyold, if_false]
      exact hrank x y ⟨l, hx, hy⟩
    · have hyold : ¬ new y := hderivable.not_new hy
      simp only [hx, hyold, if_true, if_false, hl, elim_some]
      exact Nat.lt_succ_of_le (single_le_sum (by simp) _ (mem_map_of_mem hy))

end Ancestry

/-! ## The debug build's recursion -/

namespace LineageDroppingCtx

variable {ctx : LineageDroppingCtx}

/-- Debug builds recurse through compactions, and fail on a split above one; `none` is a failed
assertion, or a recursion that is not over yet. -/
def descendsFromASplitChecked (ctx : LineageDroppingCtx) : Nat → ChunkId → Bool → Option Bool
  | 0, _, _ => none
  | fuel + 1, id, compactionFound =>
    match ctx.directLineage id with
    | some (.splitFrom ..) => if compactionFound then none else some true
    | some (.compactedFrom sources) =>
      sources.anyM fun source => descendsFromASplitChecked ctx fuel source true
    | _ => some false

theorem anyM_eq_false {α : Type} {p : α → Option Bool} : ∀ {l : List α}, (∀ x ∈ l, p x = some false) →
    l.anyM p = some false
  | [], _ => rfl
  | x :: l, h => by
    have ih := anyM_eq_false (l := l) fun y hy => h y (mem_cons_of_mem _ hy)
    simp [List.anyM, h x mem_cons_self, ih]

theorem descendsFromASplit_iff {id : ChunkId} :
    ctx.descendsFromASplit id = true ↔ Ancestry.IsSplit ctx.directLineage id := by
  unfold descendsFromASplit Ancestry.IsSplit
  cases hl : ctx.directLineage id with
  | none => simp
  | some l => cases l <;> simp

theorem descendsFromASplitChecked_of_not_isSplit (h : Ancestry.Shaped ctx.directLineage)
    {rank : ChunkId → Nat} (hrank : ∀ x y, Ancestry.Source ctx.directLineage x y → rank y < rank x) :
    ∀ {fuel : Nat} {id : ChunkId} (compactionFound : Bool), rank id < fuel →
      ¬ Ancestry.IsSplit ctx.directLineage id →
      ctx.descendsFromASplitChecked fuel id compactionFound = some false
  | 0, _, _, hfuel, _ => absurd hfuel (Nat.not_lt_zero _)
  | fuel + 1, id, compactionFound, hfuel, hid => by
    unfold descendsFromASplitChecked
    cases hl : ctx.directLineage id with
    | none => rfl
    | some l =>
      cases l with
      | splitFrom source siblings => exact absurd ⟨source, siblings, hl⟩ hid
      | compactedFrom sources =>
        refine anyM_eq_false fun source hsource => ?_
        have hlt := hrank id source ⟨_, hl, hsource⟩
        exact descendsFromASplitChecked_of_not_isSplit h hrank true (by omega)
          (h.compacted id sources hl source hsource)
      | rootFromManifest isStatic => rfl
      | volatile => rfl

theorem descendsFromASplitChecked_eq (h : Ancestry.Shaped ctx.directLineage) (id : ChunkId) :
    ∃ n, ∀ fuel, n ≤ fuel → ctx.descendsFromASplitChecked fuel id false = some (ctx.descendsFromASplit id) := by
  obtain ⟨rank, hrank⟩ := h.ranked
  refine ⟨rank id + 1, fun fuel hfuel => ?_⟩
  cases hsplit : ctx.descendsFromASplit id with
  | true =>
    obtain ⟨source, siblings, hl⟩ := descendsFromASplit_iff.mp hsplit
    obtain ⟨n, rfl⟩ : ∃ n, fuel = n + 1 := ⟨fuel - 1, by omega⟩
    simp [descendsFromASplitChecked, hl]
  | false =>
    refine descendsFromASplitChecked_of_not_isSplit h hrank false (by omega) fun hid => ?_
    rw [descendsFromASplit_iff.mpr hid] at hsplit
    cases hsplit

theorem isRootChunk_iff {id : ChunkId} : ctx.isRootChunk id = true ↔
    ¬ Ancestry.IsSplit ctx.directLineage id ∧ ¬ Ancestry.IsCompaction ctx.directLineage id := by
  unfold isRootChunk Ancestry.IsSplit Ancestry.IsCompaction
  cases hl : ctx.directLineage id with
  | none => simp
  | some l => cases l <;> simp

end LineageDroppingCtx

/-! ## Every reachable store is shaped -/

namespace ChunkStore

open LineageDroppingCtx

variable {st st' : ChunkStore} {c : Chunk}

theorem Recedes.shaped (h : Recedes st st') (hst : Ancestry.Shaped st.directLineage) :
    Ancestry.Shaped st'.directLineage := by
  refine hst.of_roots fun x lineage hx => .inr (.inr ?_)
  obtain ⟨l', hl', rfl⟩ := map_eq_some_iff.mp hx
  obtain ⟨l, hl, heq, -⟩ := h.lineage.entry x l' hl'
  exact map_eq_some_iff.mpr ⟨l, hl, heq.symm⟩

theorem prepared_directLineage (habsent : st.physical c.id = none) {x : ChunkId}
    {lineage : ChunkDirectLineage} (h : (st.prepared c).directLineage x = some lineage) :
    lineage = .volatile ∨ st.directLineage x = some lineage := by
  have h' := (insertLineageIfMissing_directLineage (st.cleanUp c).1.toLineageDroppingCtx c.id x
    .volatile).symm.trans h
  split at h'
  · exact .inl (some.inj h').symm
  · obtain ⟨l, hl, rfl⟩ := map_eq_some_iff.mp h'
    obtain ⟨l₀, hl₀, heq, -⟩ := (cleanUp_lineage habsent).1 _ _ hl
    exact .inr (map_eq_some_iff.mpr ⟨l₀, hl₀, heq.symm⟩)

theorem prepared_isRootChunk (hacc : st.Accepts c) (habsent : st.physical c.id = none) :
    (st.prepared c).isRootChunk c.id = true := by
  have hroot := isRootChunk_iff.mp hacc.1
  refine isRootChunk_iff.mpr ⟨fun ⟨source, siblings, h⟩ => ?_, fun ⟨sources, h⟩ => ?_⟩
  · rcases prepared_directLineage habsent h with h' | h'
    · cases h'
    · exact hroot.1 ⟨source, siblings, h'⟩
  · rcases prepared_directLineage habsent h with h' | h'
    · cases h'
    · exact hroot.2 ⟨sources, h'⟩

theorem NewLineage.derivable {env : Env} (hroot : st.isRootChunk c.id = true)
    (hnew : ∀ j, st.physical (env.newId j) = none ∧ env.newId j ≠ c.id) {lineage : ChunkDirectLineage}
    (h : NewLineage st c lineage) :
    Ancestry.Derivable st.directLineage (fun x => ∃ j, x = env.newId j) lineage := by
  have hc : ¬ ∃ j, c.id = env.newId j := fun ⟨j, hj⟩ => (hnew j).2 hj.symm
  obtain ⟨hsplit, hcompaction⟩ := isRootChunk_iff.mp hroot
  cases h with
  | piece siblings => exact ⟨hc, hsplit, hcompaction⟩
  | @merge elected helected hne hpiece =>
    intro x hx
    rcases (mem_compactionSources hne).mp hx with rfl | rfl
    · exact ⟨hc, hsplit⟩
    · refine ⟨fun ⟨j, hj⟩ => ?_, fun h => ?_⟩
      · rw [hj, (hnew j).1] at helected
        cases helected
      · rw [descendsFromASplit_iff.mpr h] at hpiece
        cases hpiece

theorem insertChunk_shaped {env : Env} {c : ValidChunk} (hv : st.catalog.Sound)
    (h : Ancestry.Shaped st.directLineage) (hfresh : Fresh env st c.toChunk) :
    Ancestry.Shaped (insertChunk env st c.toChunk).1.directLineage := by
  refine insertChunk_elim h fun hacc => ?_
  obtain ⟨hins, -⟩ := insertChunk_cases hv c.wf hfresh hacc
  obtain ⟨-, habsent, -⟩ := sound_of_earlyReturn c.wf hacc.2
  have hav := available_prepared hv habsent hfresh
  have hprepared : Ancestry.Shaped (st.prepared c.toChunk).directLineage :=
    h.of_roots fun x l hl => (prepared_directLineage habsent hl).imp_right .inr
  refine @Ancestry.Shaped.derive _ _ hprepared (fun x => ∃ j, x = env.newId j) (fun x lineage hx => ?_) ?_
  · obtain ⟨l, hl, rfl⟩ := map_eq_some_iff.mp hx
    rcases hins.entry_cases hv habsent hfresh hl with ⟨l₀, hl₀, heq⟩ | ⟨hid, hlineage⟩
    · exact .inl (map_eq_some_iff.mpr ⟨l₀, hl₀, heq.symm⟩)
    · exact .inr ⟨hid, hlineage.derivable (prepared_isRootChunk hacc habsent)
        fun j => ⟨(hav j).physical, (hfresh j).2⟩⟩
  · rintro x ⟨j, rfl⟩
    refine ⟨congrArg (Option.map _) (hav j).entry, fun y ⟨lineage, hlineage, hmem⟩ => ?_⟩
    rcases prepared_directLineage habsent hlineage with rfl | hold
    · cases hmem
    · obtain ⟨l, hl, rfl⟩ := map_eq_some_iff.mp hold
      exact (hfresh j).1 (.referenced hl hmem)

end ChunkStore

theorem Op.run_shaped {st : ChunkStore} {op : Op} (hv : st.catalog.Sound)
    (h : Ancestry.Shaped st.directLineage) (hop : op.Possible st) :
    Ancestry.Shaped (op.run st).directLineage := by
  cases op with
  | insertDlrManifest manifest =>
    refine h.of_roots fun x lineage hx => ?_
    obtain ⟨l, hl, rfl⟩ := map_eq_some_iff.mp hx
    have hl' := (insertDlrManifest_entry st manifest x).symm.trans hl
    split at hl'
    · cases hl'
      exact .inr (.inl ⟨false, rfl⟩)
    · split at hl'
      · cases hl'
        exact .inr (.inl ⟨true, rfl⟩)
      · exact .inr (.inr (map_eq_some_iff.mpr ⟨l, hl', rfl⟩))
  | insertChunk env c => exact insertChunk_shaped hv h hop
  | gc options clock => exact (gc_recedes st options clock).shaped h
  | removeChunksShallow chunks budget reason => exact (removeChunksShallow_recedes ..).shaped h
  | removeChunksDeep chunks reason => exact (removeChunksDeep_recedes ..).shaped h
  | dropEntityPath e =>
    refine h.of_roots fun x lineage hx => .inr (.inr ?_)
    rw [← hx]
    exact (congrFun (congrArg directLineage (dropEntityPath_frame st e).1) x).symm

namespace ChunkStore

variable {st : ChunkStore}

theorem Reachable.shaped {allowed : ChunkStore → Op → Prop} (h : Reachable allowed st) :
    Ancestry.Shaped st.directLineage := by
  induction h with
  | new config =>
    refine ⟨fun x _ _ h => ?_, fun x _ h => ?_, fun _ => 0, fun x y h => ?_⟩
    · simp [directLineage, ChunkStore.new] at h
    · simp [directLineage, ChunkStore.new] at h
    · obtain ⟨l, h, -⟩ := h
      simp [directLineage, ChunkStore.new] at h
  | step hst hop _ ih => exact Op.run_shaped hst.sound ih hop

/-- The lineage of every reachable store: nothing has both a split and a compaction among its
ancestors, no split has a split for a source, and the recursion of debug builds ends, keeps its
assertions and finds what release builds find. -/
theorem reachable_lineage_unmixed (h : Reachable (fun _ _ => True) st) (id : ChunkId) :
    ¬ ((∃ y, Ancestry.Ancestor st.directLineage id y ∧ Ancestry.IsSplit st.directLineage y) ∧
        ∃ y, Ancestry.Ancestor st.directLineage id y ∧ Ancestry.IsCompaction st.directLineage y) ∧
      (∀ source siblings, st.directLineage id = some (.splitFrom source siblings) →
        ¬ Ancestry.IsSplit st.directLineage source) ∧
      ∃ n, ∀ fuel, n ≤ fuel → st.descendsFromASplitChecked fuel id false = some (st.descendsFromASplit id) :=
  ⟨h.shaped.unmixed id, fun source siblings hl => (h.shaped.split id source siblings hl).1,
    descendsFromASplitChecked_eq h.shaped id⟩

def splitStore : ChunkStore :=
  (Op.insertChunk (.countingFrom 100) interleavedChunk).run (.new ⟨0, 2, 0⟩)

/-- The first piece descends from a split, in debug builds too. -/
theorem splitStore_lineage_unmixed : splitStore.descendsFromASplit 100 = true ∧
    ∃ n, ∀ fuel, n ≤ fuel → splitStore.descendsFromASplitChecked fuel 100 false =
      some (splitStore.descendsFromASplit 100) :=
  ⟨by decide, (@reachable_lineage_unmixed splitStore
    (.step (.new _) fresh_countingFrom trivial) 100).2.2⟩

end ChunkStore

end Dalaran
