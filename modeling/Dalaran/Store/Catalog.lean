import Dalaran.Store.Query

/-
  The catalog: what a store says about its chunks, as sets and functions.

  A catalog forgets how the store keeps its maps. It has the chunk of each id,
  the slots each id is listed at, the RowId order, and the longest interval of
  each index key. Three things happen to it:
    1. `Removes`: ids stop having a chunk. An id that keeps its chunk keeps its
       listings and its place in the RowId order; the others lose some of both.
    2. `Adds c`: the chunk `c` comes in, listed at its own slots.
    3. a manifest lists more ids.
  Every operation of the store is a sequence of these (`Store/Refinement`), so
  an invariant of the store is proved on them, once.

  The invariants:
    `Sound`    — every chunk is well-formed, sorted, non-empty, under its own id;
    `Exact`    — a temporal chunk is listed at its own slots and nowhere else;
    `Ranked`   — the RowId order is that of the chunks there are;
    `NoGhosts` — every listed id has a chunk;
    `Covered`  — no interval is longer than the longest one of its key.
-/

namespace Dalaran

open List

/-- What a store says about its chunks. -/
@[ext] structure Catalog where
  chunks : ChunkId → Option Chunk
  listed : ChunkId → Slot → Prop
  rowOrder : RowId → ChunkId → Prop
  longest : EntityPath × TimelineName × ComponentIdentifier → Nat

def ChunkStore.catalog (st : ChunkStore) : Catalog where
  chunks := st.physical
  listed := st.ListedAt
  rowOrder r id := toLex (r, id) ∈ st.physicalChunkIdsPerMinRowId
  longest := TimeIndex.maxLength st.temporalChunkIdsPerEntityPerComponent

variable {c : Chunk}

theorem Chunk.timelines_of_static (h : c.isStatic = true) (name : TimelineName) :
    c.timelines.lookup name = none := by
  rw [Assoc.lookup_eq_dlookup, List.isEmpty_iff.mp h]
  rfl

theorem Chunk.not_ownSlot_of_static (h : c.isStatic = true) (s : Slot) : ¬ c.OwnSlot s := by
  cases s with
  | component e tl co edge t =>
    rintro ⟨-, r, hr, -⟩
    simp [Chunk.componentRange, timelines_of_static h] at hr
  | timeline e tl edge t =>
    rintro ⟨-, tc, htc, -⟩
    simp [timelines_of_static h] at htc

theorem Chunk.OwnSlot.isStatic {s : Slot} (h : c.OwnSlot s) : c.isStatic = false := by
  cases hstatic : c.isStatic with
  | false => rfl
  | true => exact absurd h (Chunk.not_ownSlot_of_static hstatic s)

theorem Chunk.OwnSlot.entity_eq {s : Slot} (h : c.OwnSlot s) : s.entity = c.entityPath := by
  cases s with
  | component => exact h.1
  | timeline => exact h.1

/-- What every chunk in a store is. -/
structure Chunk.Sound (c : Chunk) : Prop where
  wf : c.WellFormed
  nonempty : c.rowIds ≠ []
  sorted : c.isSorted = true

/-- What the store asks of a chunk before it keeps it. A merge may lose all of its columns. -/
structure Chunk.Insertable (c : Chunk) : Prop extends c.Sound where
  components : c.components.entries ≠ []

namespace Catalog

variable {v w x : Catalog}

/-! ## What can happen to a catalog -/

structure Removes (v w : Catalog) : Prop where
  chunks : ∀ id, w.chunks id = v.chunks id ∨ w.chunks id = none
  listed_of : ∀ id s, w.listed id s → v.listed id s
  listed_kept : ∀ id s, (w.chunks id).isSome → v.listed id s → w.listed id s
  row_of : ∀ r id, w.rowOrder r id → v.rowOrder r id
  row_kept : ∀ r id, (w.chunks id).isSome → v.rowOrder r id → w.rowOrder r id
  longest : w.longest = v.longest

def Spares (D : ChunkId → Prop) (v w : Catalog) : Prop :=
  ∀ id, ¬ D id → w.chunks id = v.chunks id ∧ (∀ s, v.listed id s → w.listed id s) ∧
    ∀ r, v.rowOrder r id → w.rowOrder r id

/-- The chunks that went are listed no more where they should have been. -/
def Unlists (v w : Catalog) : Prop :=
  ∀ id c s, v.chunks id = some c → w.chunks id = none → c.OwnSlot s → ¬ w.listed id s

/-- The chunks that went have left the RowId order. -/
def Unranks (v w : Catalog) : Prop :=
  ∀ id c r, v.chunks id = some c → w.chunks id = none → c.minRowId = some r → ¬ w.rowOrder r id

structure Adds (c : Chunk) (v w : Catalog) : Prop where
  chunks : ∀ id, w.chunks id = if id = c.id then some c else v.chunks id
  listed : ∀ id s, w.listed id s ↔ (id = c.id ∧ c.OwnSlot s) ∨ v.listed id s
  row : ∀ r id, w.rowOrder r id ↔ (id = c.id ∧ c.minRowId = some r) ∨ v.rowOrder r id
  longest_le : ∀ key, v.longest key ≤ w.longest key
  longest_own : ∀ timeline component r, c.componentRange timeline component = some r →
    r.absLength ≤ w.longest (c.entityPath, timeline, component)

def AddsAll : List Chunk → Catalog → Catalog → Prop
  | [], v, w => w = v
  | c :: cs, v, w => ∃ u, Adds c v u ∧ AddsAll cs u w

theorem Removes.refl (v : Catalog) : Removes v v :=
  ⟨fun _ => .inl rfl, fun _ _ h => h, fun _ _ _ h => h, fun _ _ h => h, fun _ _ _ h => h, rfl⟩

variable {id : ChunkId}

theorem Removes.isSome_of (h : Removes v w) (hid : (w.chunks id).isSome) : w.chunks id = v.chunks id := by
  rcases h.chunks id with h | h
  · exact h
  · rw [h] at hid
    simp at hid

theorem Removes.absent (h : Removes v w) (hid : v.chunks id = none) : w.chunks id = none :=
  (h.chunks id).elim (fun heq => heq.trans hid) fun hgone => hgone

theorem Removes.trans (h₁ : Removes v w) (h₂ : Removes w x) : Removes v x := by
  have kept : ∀ {id}, (x.chunks id).isSome → (w.chunks id).isSome := fun hid => by
    rwa [← h₂.isSome_of hid]
  refine ⟨fun id => ?_, fun id s h => h₁.listed_of id s (h₂.listed_of id s h),
    fun id s hid h => h₂.listed_kept id s hid (h₁.listed_kept id s (kept hid) h),
    fun r id h => h₁.row_of r id (h₂.row_of r id h),
    fun r id hid h => h₂.row_kept r id hid (h₁.row_kept r id (kept hid) h),
    h₂.longest.trans h₁.longest⟩
  rcases h₂.chunks id with h | h
  · rw [h]
    exact h₁.chunks id
  · exact .inr h

theorem Unlists.refl (v : Catalog) : Unlists v v := fun _ _ _ h h' => by
  rw [h] at h'
  simp at h'

theorem Unranks.refl (v : Catalog) : Unranks v v := fun _ _ _ h h' => by
  rw [h] at h'
  simp at h'

theorem Unlists.trans (hr : Removes v w) (hr' : Removes w x) (h₁ : Unlists v w) (h₂ : Unlists w x) :
    Unlists v x := by
  intro id c s hc hx hs hl
  rcases hr.chunks id with h | h
  · exact h₂ id c s (h.trans hc) hx hs hl
  · exact h₁ id c s hc h hs (hr'.listed_of id s hl)

theorem Unranks.trans (hr : Removes v w) (hr' : Removes w x) (h₁ : Unranks v w) (h₂ : Unranks w x) :
    Unranks v x := by
  intro id c r hc hx hm hrow
  rcases hr.chunks id with h | h
  · exact h₂ id c r (h.trans hc) hx hm hrow
  · exact h₁ id c r hc h hm (hr'.row_of r id hrow)

theorem Spares.refl (D : ChunkId → Prop) (v : Catalog) : Spares D v v :=
  fun _ _ => ⟨rfl, fun _ h => h, fun _ h => h⟩

theorem Spares.trans {D : ChunkId → Prop} (h₁ : Spares D v w) (h₂ : Spares D w x) : Spares D v x := by
  intro id hid
  obtain ⟨hc₁, hl₁, hr₁⟩ := h₁ id hid
  obtain ⟨hc₂, hl₂, hr₂⟩ := h₂ id hid
  exact ⟨hc₂.trans hc₁, fun s h => hl₂ s (hl₁ s h), fun r h => hr₂ r (hr₁ r h)⟩

/-! ## The steps of a removal -/

def forget (v : Catalog) (id : ChunkId) : Catalog :=
  { v with chunks := fun id' => if id' = id then none else v.chunks id' }

def unlist (v : Catalog) (c : Chunk) : Catalog :=
  { v with listed := fun id s => v.listed id s ∧ ¬ (id = c.id ∧ c.OwnSlot s) }

/-- Take an id out of the RowId order, from under a row id if there is one. -/
def unrank (v : Catalog) (rowId : Option RowId) (id : ChunkId) : Catalog :=
  { v with rowOrder := fun r id' => v.rowOrder r id' ∧ ¬ (rowId = some r ∧ id' = id) }

theorem unlist_removes (h : v.chunks c.id = none) : Removes v (v.unlist c) :=
  ⟨fun _ => .inl rfl, fun _ _ h => h.1,
    fun id s hid hs => ⟨hs, fun ⟨heq, _⟩ => by rw [heq] at hid; simp [unlist, h] at hid⟩,
    fun _ _ h => h, fun _ _ _ h => h, rfl⟩

theorem unrank_removes {rowId : Option RowId} (h : v.chunks id = none) : Removes v (v.unrank rowId id) :=
  ⟨fun _ => .inl rfl, fun _ _ h => h, fun _ _ _ h => h, fun _ _ h => h.1,
    fun r id' hid hr => ⟨hr, fun ⟨_, heq⟩ => by rw [heq] at hid; simp [unrank, h] at hid⟩, rfl⟩

theorem forget_unrank_removes (v : Catalog) (rowId : Option RowId) (id : ChunkId) :
    Removes v ((v.unrank rowId id).forget id) := by
  have gone : ∀ {id'}, (((v.unrank rowId id).forget id).chunks id').isSome → id' ≠ id := by
    rintro id' h rfl
    simp [forget] at h
  refine ⟨fun id' => ?_, fun _ _ h => h, fun _ _ _ h => h, fun _ _ h => h.1,
    fun r id' hid hr => ⟨hr, fun h => gone hid h.2⟩, rfl⟩
  by_cases h : id' = id
  · exact .inr (by simp [forget, h])
  · exact .inl (by simp [forget, unrank, h])

/-! ## The steps of an addition -/

structure Lists (c : Chunk) (v w : Catalog) : Prop where
  chunks : w.chunks = v.chunks
  listed : ∀ id s, w.listed id s ↔ (id = c.id ∧ c.OwnSlot s) ∨ v.listed id s
  row : w.rowOrder = v.rowOrder
  longest_le : ∀ key, v.longest key ≤ w.longest key
  longest_own : ∀ timeline component r, c.componentRange timeline component = some r →
    r.absLength ≤ w.longest (c.entityPath, timeline, component)

/-- A chunk is kept under its id and in the RowId order. -/
def keep (v : Catalog) (c : Chunk) : Catalog :=
  { v with
    chunks := fun id => if id = c.id then some c else v.chunks id
    rowOrder := fun r id => (id = c.id ∧ c.minRowId = some r) ∨ v.rowOrder r id }

theorem Lists.adds (h : Lists c v w) : Adds c v (w.keep c) := by
  refine ⟨fun id => ?_, h.listed, fun r id => ?_, h.longest_le, h.longest_own⟩
  · show (if _ then _ else _) = _
    rw [h.chunks]
  · show _ ∨ _ ↔ _
    rw [h.row]

theorem Lists.adds_after_removal {D : ChunkId → Prop} (h : Lists c v w) (hr : Removes w x) (hs : Spares D w x)
    (hc : ¬ D c.id) :
    ∃ y : Catalog, Removes v y ∧ Spares D v y ∧ (Unranks w x → Unranks v y) ∧
      (Unlists w x → Unlists v y) ∧ Adds c y (x.keep c) := by
  have hch := h.chunks
  have hrow := h.row
  refine ⟨⟨x.chunks, fun id s => x.listed id s ∧ v.listed id s, x.rowOrder, v.longest⟩, ?_, ?_, ?_, ?_, ?_⟩
  · exact ⟨fun id => hch ▸ hr.chunks id, fun _ _ h => h.2,
      fun id s hid hv => ⟨hr.listed_kept id s hid ((h.listed id s).mpr (.inr hv)), hv⟩,
      fun r id => hrow ▸ hr.row_of r id, fun r id => hrow ▸ hr.row_kept r id, rfl⟩
  · intro id hid
    obtain ⟨h1, h2, h3⟩ := hs id hid
    exact ⟨hch ▸ h1, fun s hv => ⟨h2 s ((h.listed id s).mpr (.inr hv)), hv⟩, hrow ▸ h3⟩
  · exact fun hu id d r hd => hu id d r (hch ▸ hd)
  · exact fun hu id d s hd hgone hown hl => hu id d s (hch ▸ hd) hgone hown hl.1
  · refine ⟨fun _ => rfl, fun id s => ⟨fun hx => ?_, fun hx => ?_⟩, fun _ _ => Iff.rfl,
      fun key => (h.longest_le key).trans_eq (congrFun hr.longest key).symm, fun tl co r hcr =>
      (h.longest_own tl co r hcr).trans_eq (congrFun hr.longest _).symm⟩
    · exact ((h.listed id s).mp (hr.listed_of id s hx)).imp_right fun hv => ⟨hx, hv⟩
    · rcases hx with ⟨rfl, hown⟩ | hx
      · exact (hs c.id hc).2.1 s ((h.listed _ s).mpr (.inl ⟨rfl, hown⟩))
      · exact hx.1

theorem keep_adds (h : c.isStatic = true) (v : Catalog) : Adds c v (v.keep c) := by
  refine ⟨fun _ => rfl, fun id s => ?_, fun _ _ => Iff.rfl, fun _ => le_rfl, fun tl co r hr => ?_⟩
  · simp [Chunk.not_ownSlot_of_static h, keep]
  · simp [Chunk.componentRange, Chunk.timelines_of_static h] at hr

/-! ## Invariants -/

/-- Every chunk is sound and under its own id. -/
structure Sound (v : Catalog) : Prop where
  id_eq : ∀ id c, v.chunks id = some c → c.id = id
  chunk : ∀ id c, v.chunks id = some c → c.Sound

/-- The chunks with a property are listed at their own slots and nowhere else. -/
def ExactOn (P : Chunk → Prop) (v : Catalog) : Prop :=
  ∀ id c, v.chunks id = some c → P c → ∀ s, v.listed id s ↔ c.OwnSlot s

/-- The RowId order is that of the chunks there are. -/
def Ranked (v : Catalog) : Prop :=
  ∀ r id, v.rowOrder r id ↔ ∃ c, v.chunks id = some c ∧ c.minRowId = some r

/-- Every listed id has a chunk. -/
def NoGhosts (v : Catalog) : Prop := ∀ id s, v.listed id s → (v.chunks id).isSome

/-- No component's interval is longer than the longest one of its key. -/
def Covered (v : Catalog) : Prop :=
  ∀ id c timeline component r, v.chunks id = some c → c.componentRange timeline component = some r →
    r.absLength ≤ v.longest (c.entityPath, timeline, component)

/-- A catalog in order, its listings exact on the chunks with a property. -/
structure Consistent (P : Chunk → Prop) (v : Catalog) : Prop where
  sound : v.Sound
  exact : v.ExactOn P
  ranked : v.Ranked
  covered : v.Covered

variable {P : Chunk → Prop}

theorem Sound.removes (hv : v.Sound) (h : Removes v w) : w.Sound := by
  have back : ∀ {id c}, w.chunks id = some c → v.chunks id = some c := fun {id c} hc => by
    rw [← hc, h.isSome_of (by rw [hc]; rfl)]
  exact ⟨fun id c hc => hv.id_eq id c (back hc), fun id c hc => hv.chunk id c (back hc)⟩

theorem Consistent.removes (hv : v.Consistent P) (h : Removes v w) (hu : Unranks v w) : w.Consistent P := by
  have back : ∀ {id c}, w.chunks id = some c → v.chunks id = some c := fun {id c} hc => by
    rw [← hc, h.isSome_of (by rw [hc]; rfl)]
  refine ⟨hv.sound.removes h, fun id c hc hP s => ?_, fun r id => ?_, fun id c tl co r hc hr => ?_⟩
  · rw [← hv.exact id c (back hc) hP s]
    exact ⟨h.listed_of id s, h.listed_kept id s (by rw [hc]; rfl)⟩
  · constructor
    · intro hrow
      obtain ⟨c, hc, hm⟩ := (hv.ranked r id).mp (h.row_of r id hrow)
      rcases h.chunks id with hw | hw
      · exact ⟨c, hw.trans hc, hm⟩
      · exact absurd hrow (hu id c r hc hw hm)
    · rintro ⟨c, hc, hm⟩
      exact h.row_kept r id (by rw [hc]; rfl) ((hv.ranked r id).mpr ⟨c, back hc, hm⟩)
  · rw [h.longest]
    exact hv.covered id c tl co r (back hc) hr

theorem NoGhosts.removes (hv : v.NoGhosts) (he : v.ExactOn fun _ => True) (h : Removes v w)
    (hu : Unlists v w) : w.NoGhosts := by
  intro id s hs
  have hs' := h.listed_of id s hs
  obtain ⟨c, hc⟩ := Option.isSome_iff_exists.mp (hv id s hs')
  rcases h.chunks id with hw | hw
  · rw [hw, hc]
    rfl
  · exact absurd hs (hu id c s hc hw ((he id c hc trivial s).mp hs'))

/-! ## Chunks that come in -/

/-- A chunk can come in: its id has no chunk, and no listing the chunk does not own. -/
structure Fits (P : Chunk → Prop) (c : Chunk) (v : Catalog) : Prop where
  absent : v.chunks c.id = none
  listed : P c → ∀ s, v.listed c.id s → c.OwnSlot s

variable {p : Chunk}

theorem Fits.adds (hp : Fits P p v) (h : Adds c v w) (hne : p.id ≠ c.id) : Fits P p w := by
  refine ⟨by rw [h.chunks, if_neg hne, hp.absent], fun hP s hs => hp.listed hP s ?_⟩
  exact ((h.listed p.id s).mp hs).resolve_left fun h => hne h.1

variable {d : Chunk}

theorem Adds.chunks_cases (h : Adds c v w) (hd : w.chunks id = some d) :
    (id = c.id ∧ d = c) ∨ (id ≠ c.id ∧ v.chunks id = some d) := by
  rw [h.chunks] at hd
  split at hd
  · exact .inl ⟨‹_›, (Option.some.inj hd).symm⟩
  · exact .inr ⟨‹_›, hd⟩

theorem Sound.adds (hv : v.Sound) (h : Adds c v w) (hc : c.Sound) : w.Sound := by
  refine ⟨fun id d hd => ?_, fun id d hd => ?_⟩
  · rcases h.chunks_cases hd with ⟨hid, rfl⟩ | ⟨-, hd⟩
    · exact hid.symm
    · exact hv.id_eq id d hd
  · rcases h.chunks_cases hd with ⟨-, rfl⟩ | ⟨-, hd⟩
    · exact hc
    · exact hv.chunk id d hd

theorem Consistent.adds (hv : v.Consistent P) (h : Adds c v w) (hc : c.Sound)
    (hfit : Fits P c v) : w.Consistent P := by
  refine ⟨hv.sound.adds h hc, fun id d hd hP s => ?_, fun r id => ?_, fun id d tl co r hd hr => ?_⟩
  · rw [h.listed]
    rcases h.chunks_cases hd with ⟨rfl, rfl⟩ | ⟨hne, hd⟩
    · exact ⟨fun hs => hs.elim (·.2) (hfit.listed hP s), fun hs => .inl ⟨rfl, hs⟩⟩
    · simp [hne, hv.exact id d hd hP s]
  · rw [h.row, hv.ranked, h.chunks]
    by_cases hid : id = c.id
    · subst hid
      simp [hfit.absent]
    · simp [hid]
  · rcases h.chunks_cases hd with ⟨-, rfl⟩ | ⟨-, hd⟩
    · exact h.longest_own tl co r hr
    · exact (hv.covered id d tl co r hd hr).trans (h.longest_le _)

theorem NoGhosts.adds (hv : v.NoGhosts) (h : Adds c v w) : w.NoGhosts := by
  intro id s hs
  rw [h.chunks]
  split
  · rfl
  · exact hv id s (((h.listed id s).mp hs).resolve_left fun h => absurd h.1 ‹_›)

theorem AddsAll.chunks_of : ∀ {cs : List Chunk} {v w : Catalog}, AddsAll cs v w → ∀ {id : ChunkId} {d : Chunk},
    w.chunks id = some d → (d ∈ cs ∧ id = d.id) ∨ v.chunks id = some d
  | [], _, _, h, _, _, hd => .inr (h ▸ hd)
  | c :: cs, _, _, ⟨u, hadd, hrest⟩, id, d, hd => by
    rcases hrest.chunks_of hd with ⟨hmem, hid⟩ | hu
    · exact .inl ⟨mem_cons_of_mem _ hmem, hid⟩
    · rw [hadd.chunks] at hu
      split at hu
      · rename_i hid
        cases hu
        exact .inl ⟨mem_cons_self, hid⟩
      · exact .inr hu

theorem AddsAll.keeps {Q : Catalog → Prop} (hadds : ∀ {c : Chunk} {v w : Catalog}, Q v → Adds c v w → Q w) :
    ∀ {cs : List Chunk} {v w : Catalog}, AddsAll cs v w → Q v → Q w
  | [], _, _, h, hv => h ▸ hv
  | _ :: _, _, _, ⟨_, hadd, hrest⟩, hv => hrest.keeps hadds (hadds hv hadd)

theorem Sound.addsAll : ∀ {cs : List Chunk} {v w : Catalog}, v.Sound → AddsAll cs v w →
    (∀ c ∈ cs, c.Sound) → w.Sound
  | [], _, _, hv, h, _ => h ▸ hv
  | c :: _, _, _, hv, ⟨_, hadd, hrest⟩, hcs =>
    (hv.adds hadd (hcs c mem_cons_self)).addsAll hrest
      fun d hd => hcs d (mem_cons_of_mem _ hd)

theorem Consistent.addsAll : ∀ {cs : List Chunk} {v w : Catalog}, v.Consistent P → AddsAll cs v w →
    (∀ c ∈ cs, c.Sound ∧ Fits P c v) → (cs.map (·.id)).Nodup → w.Consistent P
  | [], _, _, hv, h, _, _ => h ▸ hv
  | c :: cs, _, _, hv, ⟨_, hadd, hrest⟩, hcs, hnd => by
    obtain ⟨hc, hfit⟩ := hcs c mem_cons_self
    rw [map_cons, nodup_cons] at hnd
    refine (hv.adds hadd hc hfit).addsAll hrest (fun d hd => ?_) hnd.2
    obtain ⟨hd1, hd2⟩ := hcs d (mem_cons_of_mem _ hd)
    exact ⟨hd1, hd2.adds hadd fun heq => hnd.1 (heq ▸ mem_map_of_mem hd)⟩

theorem NoGhosts.addsAll : ∀ {cs : List Chunk} {v w : Catalog}, v.NoGhosts → AddsAll cs v w → w.NoGhosts
  | [], _, _, hv, h => h ▸ hv
  | _ :: _, _, _, hv, ⟨_, hadd, hrest⟩ => (hv.adds hadd).addsAll hrest

end Catalog

end Dalaran
