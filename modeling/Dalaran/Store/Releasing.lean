import Dalaran.Store.LineageShape

/-
  What one dropped reference releases.

  `Released held ctx x` is the least set of entries that nothing else keeps: no
  manifest remembers `x`, no chunk of its split is physical, and whatever names one
  of them as a source is released too. `dropLineageReference_removes` says that a
  drop removes exactly these entries. An entry that nothing kept before (`Waiting`)
  is waiting for its chunk: it stays, with its sources.

  On a lineage without cycles the same entries are those that cannot be reached
  (`Kept`) from a physical chunk, an entry of a manifest or a waiting entry, along
  sources and from one piece of a split to another.
-/

namespace Dalaran

open List Option AList

namespace LineageDroppingCtx

variable {ctx ctx' ctx'' : LineageDroppingCtx} {held : ChunkId → Nat} {pend : ChunkId → Prop}
  {id x y : ChunkId} {l l' : TrackedDirectChunkLineage} {ops : List LineageOp}

/-! ## Released entries -/

/-- An entry that nothing keeps, and that is there: its chunk is yet to come. -/
def Waiting (ctx : LineageDroppingCtx) (x : ChunkId) : Prop :=
  ∃ l, ctx.entry x = some l ∧ l.refCount = 0 ∧ l.descendsFromManifest = false ∧
    ∀ s ∈ l.lineage.siblings, ctx.isReferenced s = false

/-- An entry that only released entries refer to, and no piece of its split is kept otherwise. -/
inductive Released (held : ChunkId → Nat) (ctx : LineageDroppingCtx) : ChunkId → Prop
  | intro {x : ChunkId} {l : TrackedDirectChunkLineage} (entry : ctx.entry x = some l)
    (manifest : l.descendsFromManifest = false) (waiting : ¬ ctx.Waiting x)
    (physical : ∀ s, s = x ∨ s ∈ l.lineage.siblings → held s = 0)
    (references : ∀ s, s = x ∨ s ∈ l.lineage.siblings → ∀ y ly, ctx.entry y = some ly →
      s ∈ ly.lineage.referencedChunks → Released held ctx y) : Released held ctx x

theorem Tracked.waiting (h : Tracked held pend ctx) : Tracked held ctx.Waiting ctx := by
  refine ⟨h.count, h.closed, fun x l hl h0 => ?_, h.twins, h.own, h.siblings⟩
  by_cases hmanifest : l.descendsFromManifest = true
  · exact .inr (.inl hmanifest)
  · by_cases hsibling : ∃ s ∈ l.lineage.siblings, ctx.isReferenced s = true
    · exact .inr (.inr hsibling)
    · refine .inl ⟨l, hl, h0, by simpa using hmanifest, fun s hs => ?_⟩
      by_contra href
      exact hsibling ⟨s, hs, by simpa using href⟩

theorem Draining.unreferenced (h : Draining held pend ctx ops) (hl : ctx.entry x = some l) (h0 : l.refCount = 0) :
    held x = 0 ∧ ∀ y ly, ctx.entry y = some ly → x ∉ ly.lineage.referencedChunks := by
  have hcount := h.count x l hl
  refine ⟨by omega, fun y ly hly hmem => ?_⟩
  have hpos := references_pos_iff.mpr ⟨y, ly, hly, hmem⟩
  omega

/-! ## The keys of an entry -/

/-- What the maps besides the entries record of an id. -/
def records (ctx : LineageDroppingCtx) (x : ChunkId) : Option ChunkId × Bool × Option (List ChunkId) :=
  (ctx.leakyCompactions.lookup x, decide (x ∈ ctx.splitOnIngest), ctx.danglingSplits.lookup x)

/-- The entries shrink, and the keys of an entry go with it, and only then. -/
structure KeysFollow (ctx ctx' : LineageDroppingCtx) : Prop where
  absent : ∀ x, ctx.entry x = none → ctx'.entry x = none
  gone : ∀ x, (ctx.entry x).isSome → ctx'.entry x = none → ctx'.records x = (none, false, none)
  kept : ∀ x, ctx.entry x = none ∨ (ctx'.entry x).isSome → ctx'.records x = ctx.records x

theorem KeysFollow.refl (ctx : LineageDroppingCtx) : KeysFollow ctx ctx := by
  refine ⟨fun _ h => h, fun x hx hgone => ?_, fun _ _ => rfl⟩
  simp [hgone] at hx

theorem KeysFollow.trans (h₁ : KeysFollow ctx ctx') (h₂ : KeysFollow ctx' ctx'') : KeysFollow ctx ctx'' := by
  refine ⟨fun x hx => h₂.absent x (h₁.absent x hx), fun x hx hgone => ?_, fun x hx => ?_⟩
  · cases hx' : ctx'.entry x with
    | none => exact (h₂.kept x (.inl hx')).trans (h₁.gone x hx hx')
    | some l => exact h₂.gone x (by simp [hx']) hgone
  · cases hx' : ctx'.entry x with
    | none =>
      have hnone : ctx.entry x = none := by
        refine hx.resolve_right fun hsome => ?_
        simp [h₂.absent x hx'] at hsome
      exact (h₂.kept x (.inl hx')).trans (h₁.kept x (.inl hnone))
    | some l =>
      have hsome : (ctx''.entry x).isSome := by
        refine hx.resolve_left fun hnone => ?_
        simp [h₁.absent x hnone] at hx'
      exact (h₂.kept x (.inr hsome)).trans (h₁.kept x (.inr (by simp [hx'])))

theorem setEntry_keysFollow (hl : ctx.entry id = some l) (l' : TrackedDirectChunkLineage) :
    KeysFollow ctx (ctx.setEntry id l') := by
  have hentry : ∀ x, (ctx.setEntry id l').entry x = none ↔ ctx.entry x = none := by
    intro x
    by_cases hx : x = id
    · simp [hx, hl]
    · simp [hx]
  refine ⟨fun x hx => (hentry x).mpr hx, fun x hx hgone => ?_, fun _ _ => rfl⟩
  simp [(hentry x).mp hgone] at hx

theorem eraseEntry_keysFollow (hl : ctx.entry id = some l) : KeysFollow ctx (ctx.eraseEntry id) := by
  have herased : (ctx.eraseEntry id).records id = (none, false, none) := by
    simp [records, eraseEntry, OrdSet.mem_erase]
  have hother : ∀ x, x ≠ id → (ctx.eraseEntry id).records x = ctx.records x := by
    intro x hx
    simp [records, eraseEntry, OrdSet.mem_erase, hx]
  refine ⟨fun x hx => ?_, fun x hx hgone => ?_, fun x hx => hother x ?_⟩
  · simp [hx]
  · by_cases hid : x = id
    · exact hid ▸ herased
    · rw [eraseEntry_entry, if_neg hid] at hgone
      simp [hgone] at hx
  · rintro rfl
    simp [hl] at hx

theorem dropStep_keysFollow (ctx : LineageDroppingCtx) (op : LineageOp) : KeysFollow ctx (ctx.dropStep op).1 := by
  cases op with
  | dropRef id =>
    cases hl : ctx.entry id with
    | none =>
      rw [dropStep_of_none (.inl rfl) hl]
      exact .refl ctx
    | some l =>
      rw [dropStep_dropRef hl]
      exact setEntry_keysFollow hl _
  | remove id =>
    cases hl : ctx.entry id with
    | none =>
      rw [dropStep_of_none (.inr rfl) hl]
      exact .refl ctx
    | some l =>
      rw [dropStep_remove hl]
      exact eraseEntry_keysFollow hl

/-! ## A step of the cascade -/

/-- What a run from `ctx` has done when it is at `ctx'`: the counts fell, and what is gone, or about to
be removed, was to be released. -/
structure Releasing (held : ChunkId → Nat) (ctx ctx' : LineageDroppingCtx) (ops : List LineageOp) : Prop where
  drains : Draining held ctx.Waiting ctx' ops
  keys : KeysFollow ctx ctx'
  lowers : ∀ x l', ctx'.entry x = some l' → ∃ l, ctx.entry x = some l ∧ l'.lineage = l.lineage ∧
    l'.descendsFromManifest = l.descendsFromManifest ∧ l'.refCount ≤ l.refCount
  waiting : ∀ x, .remove x ∈ ops → ¬ ctx.Waiting x
  released : ∀ x, (ctx.entry x).isSome → ctx'.entry x = none → Released held ctx x

theorem Releasing.dropStep_dropRef (h : Releasing held ctx ctx' (.dropRef id :: ops))
    (htwins : ∀ x l y l', ctx.entry x = some l → ctx.entry y = some l' → y ∈ l.lineage.siblings → Twins x l y l')
    (hid : ctx'.entry id = some l') :
    Releasing held ctx (ctx'.dropStep (.dropRef id)).1 ((ctx'.dropStep (.dropRef id)).2 ++ ops) := by
  have hdrains := h.drains.dropStep
  have hkeys := h.keys.trans (dropStep_keysFollow ctx' (.dropRef id))
  have hcount := h.drains.count id l' hid
  rw [count_cons_self] at hcount
  obtain ⟨l, hl, hlineage, -, hle⟩ := h.lowers id l' hid
  have hentry : ∀ x, (ctx'.setEntry id (lose l')).entry x = if x = id then some (lose l') else ctx'.entry x :=
    fun x => setEntry_entry ctx' id x (lose l')
  rw [LineageDroppingCtx.dropStep_dropRef hid] at hdrains hkeys ⊢
  refine ⟨hdrains, hkeys, fun x lx hlx => ?_, fun x hx => ?_, fun x hx hgone => ?_⟩
  · rw [hentry] at hlx
    split at hlx
    · next heq =>
      cases hlx
      obtain ⟨l₀, hl₀, hlin, hmanifest, hle₀⟩ := h.lowers id l' hid
      exact ⟨l₀, heq ▸ hl₀, hlin, hmanifest, (Nat.sub_le _ _).trans hle₀⟩
    · exact h.lowers x lx hlx
  · rcases mem_append.mp hx with hpushed | hx
    · have hgroup : x = id ∨ x ∈ l.lineage.siblings := by
        rw [← hlineage]
        split at hpushed
        · cases hpushed
        · simpa using hpushed
      intro ⟨lx, hlx, hzero, _, hunreferenced⟩
      rcases hgroup with rfl | hsibling
      · obtain rfl : l = lx := mem_unique hl hlx
        omega
      · -- the lowered entry was a referenced piece of the split
        have hback := ((htwins id l x lx hl hlx hsibling).group id).mp (.inl rfl)
        rcases hback with heq | hback
        · subst heq
          obtain rfl : l = lx := mem_unique hl hlx
          omega
        · have href : ctx.isReferenced id = true := isReferenced_iff.mpr ⟨l, hl, by omega⟩
          rw [hunreferenced id hback] at href
          cases href
    · exact h.waiting x (mem_cons_of_mem _ hx)
  · rw [hentry] at hgone
    split at hgone
    · cases hgone
    · exact h.released x hx hgone

theorem Releasing.released_of_remove (h : Releasing held ctx ctx' (.remove id :: ops))
    (hsiblings : ∀ x l, ctx.entry x = some l → ∀ s ∈ l.lineage.siblings, (ctx.entry s).isSome)
    (hid : ctx'.entry id = some l') : Released held ctx id := by
  obtain ⟨l, hl, hlineage, hmanifest, -⟩ := h.lowers id l' hid
  obtain ⟨hzero, hforgotten⟩ := h.drains.doomed id l' mem_cons_self hid
  -- every piece of the split is gone already, or has no references left
  have hgroup : ∀ s, s = id ∨ s ∈ l.lineage.siblings → held s = 0 ∧
      ∀ y ly, ctx.entry y = some ly → s ∈ ly.lineage.referencedChunks → Released held ctx y := by
    intro s hs
    have hunreferenced : ∀ ls, ctx'.entry s = some ls → ls.refCount = 0 → held s = 0 ∧
        ∀ y ly, ctx.entry y = some ly → s ∈ ly.lineage.referencedChunks → Released held ctx y := by
      intro ls hls h0
      obtain ⟨hheld, hnames⟩ := h.drains.unreferenced hls h0
      refine ⟨hheld, fun y ly hly hmem => h.released y (by simp [hly]) ?_⟩
      by_contra hsome
      obtain ⟨ly', hly'⟩ := ne_none_iff_exists'.mp hsome
      obtain ⟨ly₀, hly₀, hlin, -⟩ := h.lowers y ly' hly'
      obtain rfl : ly = ly₀ := mem_unique hly hly₀
      exact hnames y ly' hly' (hlin ▸ hmem)
    rcases hs with rfl | hs
    · exact hunreferenced l' hid hzero
    · cases hls : ctx'.entry s with
      | none =>
        obtain ⟨-, -, -, hheld, hrefs⟩ := h.released s (hsiblings id l hl s hs) hls
        exact ⟨hheld s (.inl rfl), hrefs s (.inl rfl)⟩
      | some ls =>
        have hmem := h.drains.whole id l' mem_cons_self hid s (hlineage ▸ hs) (by simp [hls])
        exact hunreferenced ls hls (h.drains.doomed s ls hmem hls).1
  exact .intro hl (hmanifest ▸ hforgotten) (h.waiting id mem_cons_self) (fun s hs => (hgroup s hs).1)
    fun s hs => (hgroup s hs).2

theorem Releasing.dropStep_remove (h : Releasing held ctx ctx' (.remove id :: ops))
    (hsiblings : ∀ x l, ctx.entry x = some l → ∀ s ∈ l.lineage.siblings, (ctx.entry s).isSome)
    (hid : ctx'.entry id = some l') :
    Releasing held ctx (ctx'.dropStep (.remove id)).1 ((ctx'.dropStep (.remove id)).2 ++ ops) := by
  have hdrains := h.drains.dropStep
  have hkeys := h.keys.trans (dropStep_keysFollow ctx' (.remove id))
  rw [LineageDroppingCtx.dropStep_remove hid] at hdrains hkeys ⊢
  refine ⟨hdrains, hkeys, fun x lx hlx => ?_, fun x hx => ?_, fun x hx hgone => ?_⟩
  · rw [eraseEntry_entry] at hlx
    split at hlx
    · cases hlx
    · exact h.lowers x lx hlx
  · refine h.waiting x (mem_cons_of_mem _ ?_)
    simpa using hx
  · rw [eraseEntry_entry] at hgone
    split at hgone
    · next heq => exact heq ▸ h.released_of_remove hsiblings hid
    · exact h.released x hx hgone

theorem Releasing.dropStep_of_none {op : LineageOp} (h : Releasing held ctx ctx' (op :: ops))
    (hop : op = .dropRef id ∨ op = .remove id) (hid : ctx'.entry id = none) : Releasing held ctx ctx' ops :=
  ⟨h.drains.dropStep_of_none hop hid, h.keys, h.lowers, fun x hx => h.waiting x (mem_cons_of_mem _ hx), h.released⟩

theorem Releasing.dropStep {op : LineageOp} (htracked : Tracked (fun x => held x + if x = y then 1 else 0) pend ctx)
    (h : Releasing held ctx ctx' (op :: ops)) :
    Releasing held ctx (ctx'.dropStep op).1 ((ctx'.dropStep op).2 ++ ops) := by
  cases op with
  | dropRef id =>
    cases hid : ctx'.entry id with
    | none =>
      rw [LineageDroppingCtx.dropStep_of_none (.inl rfl) hid]
      exact h.dropStep_of_none (.inl rfl) hid
    | some l => exact h.dropStep_dropRef htracked.twins hid
  | remove id =>
    cases hid : ctx'.entry id with
    | none =>
      rw [LineageDroppingCtx.dropStep_of_none (.inr rfl) hid]
      exact h.dropStep_of_none (.inr rfl) hid
    | some l => exact h.dropStep_remove htracked.siblings hid

/-! ## The whole cascade -/

theorem dropLineageReference_terminates (ctx : LineageDroppingCtx) (id : ChunkId) :
    (Worklist.run dropStep ctx.dropFuel ctx [.dropRef id]).2 = [] := by
  refine (Worklist.run_invariant (fun (ctx' : LineageDroppingCtx) (_ : List LineageOp) => ctx'.opWeight ≤ ctx.opWeight)
    (potential ctx.opWeight) (fun ctx' op ops hw => ?_) ctx.dropFuel ctx [.dropRef id] le_rfl ?_).2
  · exact ⟨(dropStep_siblings ctx' op).trans hw, dropStep_potential hw op ops⟩
  · unfold potential dropFuel
    simp [LineageOp.cost, Nat.mul_add]

theorem Tracked.releasing (h : Tracked (fun x => held x + if x = id then 1 else 0) pend ctx) :
    Releasing held ctx (ctx.dropLineageReference id) [] := by
  refine (Worklist.run_invariant
    (fun (ctx' : LineageDroppingCtx) (ops : List LineageOp) => Releasing held ctx ctx' ops ∧ ctx'.opWeight ≤ ctx.opWeight)
    (potential ctx.opWeight) (fun ctx' op ops ⟨hrel, hw⟩ => ?_) ctx.dropFuel ctx [.dropRef id] ⟨?_, le_rfl⟩ ?_).1.1
  · exact ⟨⟨hrel.dropStep h, (dropStep_siblings ctx' op).trans hw⟩, dropStep_potential hw op ops⟩
  · refine ⟨h.waiting.draining, .refl ctx, fun x l hl => ⟨l, hl, rfl, rfl, le_rfl⟩, fun x hx => ?_, fun x hx hgone => ?_⟩
    · simp at hx
    · simp [hgone] at hx
  · unfold potential dropFuel
    simp [LineageOp.cost, Nat.mul_add]

theorem Releasing.gone_of_released (h : Releasing held ctx ctx' []) (hx : Released held ctx x) :
    ctx'.entry x = none := by
  induction hx with
  | @intro x l hl hmanifest hwaiting hphysical hreferences ih =>
    have htracked := h.drains.tracked
    by_contra hsome
    obtain ⟨l', hl'⟩ := ne_none_iff_exists'.mp hsome
    obtain ⟨l₀, hl₀, hlineage, hmanifest', -⟩ := h.lowers x l' hl'
    obtain rfl : l = l₀ := mem_unique hl hl₀
    -- no piece of the split has a reference left
    have hcount : ∀ s, s = x ∨ s ∈ l.lineage.siblings → ∀ ls, ctx'.entry s = some ls → ls.refCount = 0 := by
      intro s hs ls hls
      rw [htracked.count s ls hls, hphysical s hs, Nat.zero_add]
      by_contra hpos
      obtain ⟨y, ly, hly, hmem⟩ := references_pos_iff.mp (Nat.pos_of_ne_zero hpos)
      obtain ⟨ly₀, hly₀, hlin, -⟩ := h.lowers y ly hly
      have hnone := ih s hs y ly₀ hly₀ (hlin ▸ hmem)
      rw [hly] at hnone
      cases hnone
    rcases htracked.zero x l' hl' (hcount x (.inl rfl) l' hl') with hwaits | hremembered | ⟨s, hs, href⟩
    · exact hwaiting hwaits
    · rw [hmanifest', hmanifest] at hremembered
      cases hremembered
    · obtain ⟨ls, hls, hpos⟩ := isReferenced_iff.mp href
      have hzero := hcount s (.inr (hlineage ▸ hs)) ls hls
      omega

/-! ## What can be reached -/

inductive Kept (held : ChunkId → Nat) (ctx : LineageDroppingCtx) : ChunkId → Prop
  | physical {x : ChunkId} (h : 0 < held x) : Kept held ctx x
  | manifest {x : ChunkId} {l : TrackedDirectChunkLineage} (hl : ctx.entry x = some l)
    (h : l.descendsFromManifest = true) : Kept held ctx x
  | waiting {x : ChunkId} (h : ctx.Waiting x) : Kept held ctx x
  | source {x y : ChunkId} {l : TrackedDirectChunkLineage} (hl : ctx.entry y = some l)
    (hx : x ∈ l.lineage.referencedChunks) (h : Kept held ctx y) : Kept held ctx x
  | sibling {x s : ChunkId} {l : TrackedDirectChunkLineage} (hl : ctx.entry x = some l)
    (hs : s ∈ l.lineage.siblings) (h : Kept held ctx s) : Kept held ctx x

/-- The lineage has no cycles: what names an entry, or a piece of its split, as a source is newer. -/
def Ranked (ctx : LineageDroppingCtx) : Prop :=
  ∃ rank : ChunkId → Nat, ∀ y ly x lx s, ctx.entry y = some ly → ctx.entry x = some lx →
    s ∈ ly.lineage.referencedChunks → s = x ∨ s ∈ lx.lineage.siblings → rank x < rank y

theorem Releasing.isSome_of_kept (h : Releasing held ctx ctx' [])
    (htwins : ∀ x l y l', ctx.entry x = some l → ctx.entry y = some l' → y ∈ l.lineage.siblings → Twins x l y l')
    (hsiblings : ∀ x l, ctx.entry x = some l → ∀ s ∈ l.lineage.siblings, (ctx.entry s).isSome)
    (hx : Kept held ctx x) : (ctx.entry x).isSome → (ctx'.entry x).isSome := by
  have htracked := h.drains.tracked
  have hstays : ∀ x, (ctx.entry x).isSome → ¬ Released held ctx x → (ctx'.entry x).isSome := by
    intro x hsome hnot
    by_contra hnone
    exact hnot (h.released x hsome (by simpa using hnone))
  -- the entry of a kept id is the same lineage after the drop
  have hsame : ∀ {y ly}, ctx.entry y = some ly → (ctx'.entry y).isSome →
      ∃ ly', ctx'.entry y = some ly' ∧ ly'.lineage = ly.lineage := by
    intro y ly hly hsome
    obtain ⟨ly', hly'⟩ := isSome_iff_exists.mp hsome
    obtain ⟨ly₀, hly₀, hlineage, -⟩ := h.lowers y ly' hly'
    obtain rfl : ly = ly₀ := mem_unique hly hly₀
    exact ⟨ly', hly', hlineage⟩
  induction hx with
  | @physical x hheld => exact fun _ => htracked.closed x (by omega)
  | @manifest x l hl hmanifest =>
    refine fun hsome => hstays x hsome fun ⟨hl₀, hforgotten, _, _, _⟩ => ?_
    cases hl.symm.trans hl₀
    rw [hmanifest] at hforgotten
    cases hforgotten
  | @waiting x hwaiting =>
    exact fun hsome => hstays x hsome fun ⟨_, _, hnotWaiting, _, _⟩ => hnotWaiting hwaiting
  | @source x y l hl hmem _ ih =>
    obtain ⟨l', hl', hlineage⟩ := hsame hl (ih (by simp [hl]))
    have hpos := references_pos_iff.mpr ⟨y, l', hl', hlineage ▸ hmem⟩
    exact fun _ => htracked.closed x (by omega)
  | @sibling x s l hl hs _ ih =>
    obtain ⟨ls, hls⟩ := isSome_iff_exists.mp (hsiblings x l hl s hs)
    obtain ⟨ls', hls', hlineage⟩ := hsame hls (ih (by simp [hls]))
    rcases ((htwins x l s ls hl hls hs).group x).mp (.inl rfl) with rfl | hback
    · exact fun _ => by simp [hls']
    · exact fun _ => htracked.siblings s ls' hls' x (hlineage ▸ hback)

theorem Releasing.kept_of_isSome (h : Releasing held ctx ctx' []) (hranked : ctx.Ranked)
    (hsome : (ctx'.entry x).isSome) : Kept held ctx x := by
  obtain ⟨rank, hrank⟩ := hranked
  have htracked := h.drains.tracked
  -- by the rank, the newest entries first
  induction hn : Assoc.sum ctx.chunksLineage (fun x _ => rank x) - rank x using Nat.strong_induction_on
    generalizing x with
  | _ n ih =>
    obtain ⟨l', hl'⟩ := isSome_iff_exists.mp hsome
    obtain ⟨l, hl, hlineage, hmanifest, -⟩ := h.lowers x l' hl'
    have hreferenced : ∀ s, s = x ∨ s ∈ l.lineage.siblings → 0 < held s + ctx'.references s → Kept held ctx s := by
      intro s hs hpos
      by_cases hheld : 0 < held s
      · exact .physical hheld
      · obtain ⟨y, ly', hly', hmem⟩ := references_pos_iff.mp (show 0 < ctx'.references s by omega)
        obtain ⟨ly, hly, hlin, -⟩ := h.lowers y ly' hly'
        rw [hlin] at hmem
        have hlt := hrank y ly x l s hly hl hmem hs
        have hle : rank y ≤ Assoc.sum ctx.chunksLineage fun x _ => rank x := Assoc.le_sum (fun x _ => rank x) hly
        exact .source hly hmem (ih _ (by omega) (by simp [hly']) rfl)
    by_cases hzero : l'.refCount = 0
    · rcases htracked.zero x l' hl' hzero with hwaits | hremembered | ⟨s, hs, href⟩
      · exact .waiting hwaits
      · exact .manifest hl (hmanifest ▸ hremembered)
      · obtain ⟨ls, hls, hpos⟩ := isReferenced_iff.mp href
        rw [hlineage] at hs
        exact .sibling hl hs (hreferenced s (.inr hs) (htracked.count s ls hls ▸ hpos))
    · refine hreferenced x (.inl rfl) ?_
      rw [← htracked.count x l' hl']
      omega

/-! ## What a drop removes -/

/-- A compaction of a chunk from a manifest and of a volatile one. -/
def mixedLineage : LineageDroppingCtx where
  chunksLineage := insert 3 ⟨.compactedFrom [1, 2], 1, true⟩
    (insert 2 ⟨.volatile, 1, false⟩ (insert 1 ⟨.rootFromManifest false, 1, true⟩ ∅))
  leakyCompactions := insert 2 3 (insert 1 3 ∅)
  splitOnIngest := OrdSet.empty
  danglingSplits := ∅

theorem Tracked.of_entries (hheld : ∀ x, 0 < held x → (ctx.entry x).isSome)
    (h : ∀ p ∈ Assoc.toList ctx.chunksLineage,
      p.2.refCount = held p.1 + ctx.references p.1 ∧ (∀ s ∈ p.2.lineage.referencedChunks, (ctx.entry s).isSome) ∧
      (p.2.refCount = 0 → p.2.descendsFromManifest = true ∨ ∃ s ∈ p.2.lineage.siblings, ctx.isReferenced s = true) ∧
      p.1 ∉ p.2.lineage.siblings ∧ (∀ s ∈ p.2.lineage.siblings, (ctx.entry s).isSome) ∧
      ∀ q ∈ Assoc.toList ctx.chunksLineage, q.1 ∈ p.2.lineage.siblings →
        q.2.descendsFromManifest = p.2.descendsFromManifest ∧
          (p.1 :: p.2.lineage.siblings).Perm (q.1 :: q.2.lineage.siblings)) : Tracked held pend ctx := by
  have hentry : ∀ x l, ctx.entry x = some l → (x, l) ∈ Assoc.toList ctx.chunksLineage :=
    fun x l hl => Assoc.mem_toList.mpr hl
  refine ⟨fun x l hl => (h _ (hentry x l hl)).1, fun x hx => ?_,
    fun x l hl h0 => .inr ((h _ (hentry x l hl)).2.2.1 h0), fun x l y l' hl hl' hy => ?_,
    fun x l hl => (h _ (hentry x l hl)).2.2.2.1, fun x l hl => (h _ (hentry x l hl)).2.2.2.2.1⟩
  · by_cases hpos : 0 < held x
    · exact hheld x hpos
    · obtain ⟨y, l, hl, hmem⟩ := references_pos_iff.mp (show 0 < ctx.references x by omega)
      exact (h _ (hentry y l hl)).2.1 x hmem
  · obtain ⟨hmanifest, hperm⟩ := (h _ (hentry x l hl)).2.2.2.2.2 _ (hentry y l' hl') hy
    exact ⟨hmanifest, fun s => by simpa using hperm.mem_iff (a := s)⟩

theorem mixedLineage_tracked : Tracked (fun x => 0 + if x = 3 then 1 else 0) (fun _ => False) mixedLineage := by
  refine .of_entries (fun x hx => ?_) (by decide)
  obtain rfl : x = 3 := by
    by_contra hne
    simp [hne] at hx
  rfl

/-- Dropping the compacted chunk leaves its entry, for the manifest, and so the volatile source: no chunk
is physical any more, no manifest remembers the source, and it has no siblings. -/
theorem mixedLineage_keeps_source :
    Tracked (fun x => 0 + if x = 3 then 1 else 0) (fun _ => False) mixedLineage ∧
      (mixedLineage.dropLineageReference 3).entry 2 = some ⟨.volatile, 1, false⟩ ∧
      (∀ y, ¬ (0 < (fun _ => 0 : ChunkId → Nat) y ∧ Ancestry.Ancestor mixedLineage.directLineage y 2)) := by
  refine ⟨mixedLineage_tracked, by rfl, fun y hy => ?_⟩
  exact absurd hy.1 (Nat.lt_irrefl 0)

/-- On every lineage whose references are counted, a drop ends, leaves counts that are right, and removes
exactly the released entries, which without cycles are those that cannot be reached any more. The keys of
an entry in the other maps go with it, and only then. -/
theorem dropLineageReference_removes (h : Tracked (fun x => held x + if x = id then 1 else 0) pend ctx) :
    (Worklist.run dropStep ctx.dropFuel ctx [.dropRef id]).2 = [] ∧
      Tracked held ctx.Waiting (ctx.dropLineageReference id) ∧
      (∀ x, (ctx.entry x).isSome → ((ctx.dropLineageReference id).entry x = none ↔ Released held ctx x)) ∧
      (ctx.Ranked → ∀ x, (ctx.entry x).isSome →
        ((ctx.dropLineageReference id).entry x = none ↔ ¬ Kept held ctx x)) ∧
      KeysFollow ctx (ctx.dropLineageReference id) := by
  have hrel := h.releasing
  refine ⟨dropLineageReference_terminates ctx id, hrel.drains.tracked, fun x hx => ?_, fun hranked x hx => ?_,
    hrel.keys⟩
  · exact ⟨hrel.released x hx, hrel.gone_of_released⟩
  · constructor
    · intro hgone hkept
      have hsome := hrel.isSome_of_kept h.twins h.siblings hkept hx
      rw [hgone] at hsome
      cases hsome
    · intro hnot
      by_contra hsome
      exact hnot (hrel.kept_of_isSome hranked (isSome_iff_ne_none.mpr hsome))

/-- A compaction of a piece of a split with a volatile chunk, which is also the source of another one. -/
def sharedLineage : LineageDroppingCtx where
  chunksLineage := insert 7 ⟨.compactedFrom [2, 3], 1, false⟩
    (insert 6 ⟨.compactedFrom [2, 4], 1, false⟩ (insert 5 ⟨.splitFrom 1 [4], 0, false⟩
      (insert 4 ⟨.splitFrom 1 [5], 1, false⟩ (insert 3 ⟨.volatile, 1, false⟩
        (insert 2 ⟨.volatile, 2, false⟩ (insert 1 ⟨.volatile, 2, false⟩ ∅))))))
  leakyCompactions := insert 4 6 (insert 3 7 ∅)
  splitOnIngest := OrdSet.empty.insert 1
  danglingSplits := insert 1 [4, 5] ∅

theorem sharedLineage_tracked :
    Tracked (fun x => (if x = 7 then 1 else 0) + if x = 6 then 1 else 0) (fun _ => False) sharedLineage := by
  refine .of_entries (fun x hx => ?_) (by decide)
  have hx : x = 7 ∨ x = 6 := by
    by_contra hnot
    simp [not_or.mp hnot] at hx
  rcases hx with rfl | rfl
  · rfl
  · rfl

/-- With the one compaction go both pieces and what they were split from; the sources of the other stay. -/
theorem dropLineageReference_removes_shared :
    Tracked (fun x => if x = 7 then 1 else 0) sharedLineage.Waiting (sharedLineage.dropLineageReference 6) ∧
      (∀ x ∈ [1, 4, 5, 6], Released (fun x => if x = 7 then 1 else 0) sharedLineage x) ∧
      (∀ x ∈ [2, 3, 7], ¬ Released (fun x => if x = 7 then 1 else 0) sharedLineage x) ∧
      KeysFollow sharedLineage (sharedLineage.dropLineageReference 6) := by
  obtain ⟨-, htracked, hremoves, -, hkeys⟩ := dropLineageReference_removes sharedLineage_tracked
  have hentries : (∀ x ∈ [1, 4, 5, 6], (sharedLineage.entry x).isSome ∧
        (sharedLineage.dropLineageReference 6).entry x = none) ∧
      ∀ x ∈ [2, 3, 7], (sharedLineage.entry x).isSome ∧
        (sharedLineage.dropLineageReference 6).entry x ≠ none := by decide
  refine ⟨htracked, fun x hx => ?_, fun x hx => ?_, hkeys⟩
  · obtain ⟨hsome, hgone⟩ := hentries.1 x hx
    exact (hremoves x hsome).mp hgone
  · obtain ⟨hsome, hstays⟩ := hentries.2 x hx
    exact mt (hremoves x hsome).mpr hstays

end LineageDroppingCtx

end Dalaran
