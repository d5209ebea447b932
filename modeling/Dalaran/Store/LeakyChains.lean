import Dalaran.Store.LineageShape

/-
  Chains of leaky compactions: where the rows of a compacted chunk went.

  A compaction maps both of its sources to the merge. Since the merge has a new
  id, it ranks above everything there is, so no chain comes back to where it
  started (`Reachable.leaky_ranked`).

  `History` is a run together with the chunks seen in it: those that were inserted
  and those that were stored. An id stands for one chunk, as `insert_chunk` assumes,
  and the ids drawn in the run are new to all of it. Where every compaction loses no
  column and pads columns that can be padded, a link from one chunk to another means
  that the second has the rows of the first (`LeakySound`), and so does a chain.
-/

namespace Dalaran

open List Option LineageDroppingCtx ChunkStore

/-! ## Runs with a memory -/

def Op.Brings (d : Chunk) : Op → Prop
  | insertChunk _ c => d = c.toChunk
  | _ => False

/-- An id that was seen stands for the same rows again, and the ids an insertion draws were never
seen. -/
def Op.KeepsIds (known : Chunk → Prop) : Op → Prop
  | insertChunk env c => (∀ d, known d → d.id = c.id → d.rows = c.rows) ∧ ∀ d k, known d → d.id ≠ env.newId k
  | _ => True

/-- A compaction loses no column, and pads columns that can be padded only. -/
def Op.KeepsCells (st : ChunkStore) : Op → Prop
  | insertChunk env c => st.Accepts c.toChunk → c.isStatic = false → (st.piecesOf env c.toChunk).1.length ≤ 1 →
      ∀ elected, ChunkStore.findAndElectCompactionCandidate env (st.prepared c.toChunk) c.toChunk = some elected →
        elected.JoinsColumns env c.toChunk ∧ elected.PaddableNextTo c.toChunk ∧ c.PaddableNextTo elected
  | _ => True

namespace ChunkStore

/-- The stores that allowed operations lead to, with the chunks seen on the way: what was inserted and
what was stored. -/
inductive History (allowed : ChunkStore → Op → Prop) : (Chunk → Prop) → ChunkStore → Prop
  | new (config : ChunkSplitConfig) : History allowed (fun _ => False) (ChunkStore.new config)
  | step {known : Chunk → Prop} {st : ChunkStore} {op : Op} (h : History allowed known st)
      (hop : op.Possible st) (hids : op.KeepsIds known) (hallowed : allowed st op) :
      History allowed (fun d => known d ∨ op.Brings d ∨ ∃ id, (op.run st).physical id = some d)
        (op.run st)

variable {st st' : ChunkStore} {c : Chunk} {known : Chunk → Prop}

theorem History.reachable {allowed : ChunkStore → Op → Prop} (h : History allowed known st) :
    Reachable allowed st := by
  induction h with
  | new config => exact .new config
  | step _ hop _ hallowed ih => exact .step ih hop hallowed

def leakyChain (st : ChunkStore) (n : Nat) (id : ChunkId) : Option ChunkId :=
  Walk.after st.leakyCompactions n id

/-! ## What operations do to the links -/

theorem prepared_leaky (habsent : st.physical c.id = none) {x y : ChunkId}
    (h : (st.prepared c).leakyCompactions.lookup x = some y) : st.leakyCompactions.lookup x = some y := by
  refine (cleanUp_lineage habsent).2.1 x y ?_
  rw [← (insertLineageIfMissing_maps (st.cleanUp c).1.toLineageDroppingCtx c.id
    .volatile).1]
  exact h

theorem foldl_storePiece_leaky (c : Chunk) (pieces : List Chunk) : ∀ (ps : List Chunk) (st : ChunkStore),
    (ps.foldl (storePiece c pieces) st).leakyCompactions = st.leakyCompactions
  | [], _ => rfl
  | p :: ps, st => (foldl_storePiece_leaky c pieces ps (storePiece c pieces st p)).trans
      (insertLineageIfMissing_maps _ _ _).1

/-- A chunk is compacted with a physical neighbour into a merge under a new id. -/
structure MergesInto (env : Env) (st : ChunkStore) (c elected m : Chunk) : Prop where
  static : c.isStatic = false
  whole : (st.piecesOf env c).1.length ≤ 1
  elect : findAndElectCompactionCandidate env (st.prepared c) c = some elected
  physical : st.physical elected.id = some elected
  id : ∃ j, m.id = env.newId j
  merge : m.MergeOf (elected.JoinsColumns env c) elected c

theorem Insertion.leaky_cases {env : Env} (hv : st.catalog.Sound) (habsent : st.physical c.id = none)
    (h : Insertion env st c st') :
    (∀ x y, st'.leakyCompactions.lookup x = some y → st.leakyCompactions.lookup x = some y) ∨
      ∃ elected m, MergesInto env st c elected m ∧ st'.physical m.id = some m ∧
        ∀ x y, st'.leakyCompactions.lookup x = some y →
          (y = m.id ∧ (x = c.id ∨ x = elected.id)) ∨ st.leakyCompactions.lookup x = some y := by
  have hremoves := (cleanUp_spec hv habsent).removes
  have habsent' := prepared_absent hv habsent
  cases h with
  | pieces hstatic hsplit hlen =>
    refine .inl fun x y hxy => prepared_leaky habsent ?_
    rw [foldl_storePiece_leaky] at hxy
    exact hxy
  | static hstatic =>
    refine .inl fun x y hxy => prepared_leaky habsent ?_
    exact (insertStatic_overwrites habsent' .volatile).lineage.leaky_of x y hxy
  | temporal hstatic hkeeps => exact .inl fun x y hxy => prepared_leaky habsent hxy
  | @merged elected m hstatic hkeeps helected hne hconcat hroot hid hmerge hsorted hwhole helect =>
    have hphys : st.physical elected.id = some elected :=
      (hremoves.isSome_of (isSome_of_eq_some helected)).symm.trans helected
    refine .inr ⟨elected, m, ⟨hstatic, hwhole, helect, hphys, hid, hmerge⟩,
      (Assoc.lookup_insert_ite _ _ _ _).trans (if_pos rfl), fun x y hxy => ?_⟩
    have hrecorded : (((st.prepared c).indexChunk m).recordSources c elected m).leakyCompactions.lookup x =
        some y := (removeChunksDeep_recedes _ _ _).lineage.leaky_of x y hxy
    unfold recordSources at hrecorded
    have hmaps := (insertLineageIfMissing_maps (((st.prepared c).indexChunk m).recordLeaky
      ((compactionSources c elected).map Chunk.id) m.id).toLineageDroppingCtx m.id
      (.compactedFrom ((compactionSources c elected).map Chunk.id))).1
    have hfold : (((compactionSources c elected).map Chunk.id).foldl
        (fun leaky source => AList.insert source m.id leaky) (st.prepared c).leakyCompactions).lookup x =
        some y := (congrArg (AList.lookup x) hmaps).symm.trans hrecorded
    rw [foldl_insert_lookup] at hfold
    split at hfold
    · rename_i hx
      exact .inl ⟨(some.inj hfold).symm, (mem_compactionSources hne).mp hx⟩
    · exact .inr (prepared_leaky habsent hfold)

theorem foldl_announce_maps (isStatic : Bool) : ∀ (ids : List ChunkId) (st : ChunkStore),
    (ids.foldl (announce isStatic) st).leakyCompactions = st.leakyCompactions ∧
      (ids.foldl (announce isStatic) st).danglingSplits = st.danglingSplits
  | [], _ => ⟨rfl, rfl⟩
  | id :: ids, st => foldl_announce_maps isStatic ids (st.announce isStatic id)

theorem insertDlrManifest_maps (st : ChunkStore) (manifest : DlrManifest) :
    (st.insertDlrManifest manifest).1.leakyCompactions = st.leakyCompactions ∧
      (st.insertDlrManifest manifest).1.danglingSplits = st.danglingSplits := by
  let st₁ := (Assoc.values manifest.staticMap).foldl (announce true) st
  let st₂ := (Assoc.toList manifest.staticMap).foldl pointStatic st₁
  let st₃ := ((Assoc.toList manifest.temporalMap).map fun e => e.1.2.2.2).foldl (announce false) st₂
  have h₁ : st₁.leakyCompactions = st.leakyCompactions ∧ st₁.danglingSplits = st.danglingSplits :=
    foldl_announce_maps true _ st
  have h₂ : st₂.toLineageDroppingCtx = st₁.toLineageDroppingCtx :=
    (foldl_pointStatic_frame (Assoc.toList manifest.staticMap) st₁).1
  have h₃ : st₃.leakyCompactions = st₂.leakyCompactions ∧ st₃.danglingSplits = st₂.danglingSplits :=
    foldl_announce_maps false _ st₂
  have h₄ : (st.insertDlrManifest manifest).1.toLineageDroppingCtx = st₃.toLineageDroppingCtx :=
    (foldl_listEntry_frame (Assoc.toList manifest.temporalMap) st₃).1
  rw [h₄, h₃.1, h₃.2, h₂]
  exact h₁

theorem Insertion.physical_cases {env : Env} (hv : st.catalog.Sound) (habsent : st.physical c.id = none)
    (hfresh : Fresh env st c) (h : Insertion env st c st') {x : ChunkId} {d : Chunk}
    (hd : st'.physical x = some d) :
    st.physical x = some d ∨ x = d.id ∧ (d = c ∨ ∃ j, d.id = env.newId j) := by
  obtain ⟨cs, v, href⟩ := h.refines hv habsent hfresh
  rcases href.adds.chunks_of hd with ⟨hmem, hx⟩ | hold
  · refine .inr ⟨hx, ?_⟩
    cases href.stored with
    | pieces _ _ hsplit =>
      obtain ⟨j, -, -, hid⟩ := hsplit.ids.mem d hmem
      exact .inr ⟨j, hid⟩
    | whole _ => exact .inl (mem_singleton.mp hmem)
    | merged _ _ _ _ hid _ _ => exact .inr (mem_singleton.mp hmem ▸ hid)
  · exact .inl ((href.removes.isSome_of (isSome_of_eq_some hold)).symm.trans hold)

/-! ## No chain comes back -/

def LeakyRanked (st : ChunkStore) : Prop :=
  ∃ rank : ChunkId → Nat, ∀ x y, st.leakyCompactions.lookup x = some y → rank x < rank y

theorem LeakyRanked.of_subset (h : st.LeakyRanked)
    (hsub : ∀ x y, st'.leakyCompactions.lookup x = some y → st.leakyCompactions.lookup x = some y) :
    st'.LeakyRanked := by
  obtain ⟨rank, hrank⟩ := h
  exact ⟨rank, fun x y hxy => hrank x y (hsub x y hxy)⟩

theorem LeakyRanked.link (h : st.LeakyRanked) {a b m : ChunkId} (ha : a ≠ m) (hb : b ≠ m)
    (hfrom : st.leakyCompactions.lookup m = none) (hto : ∀ x, st.leakyCompactions.lookup x ≠ some m)
    (hlinks : ∀ x y, st'.leakyCompactions.lookup x = some y →
      (y = m ∧ (x = a ∨ x = b)) ∨ st.leakyCompactions.lookup x = some y) : st'.LeakyRanked := by
  obtain ⟨rank, hrank⟩ := h
  refine ⟨fun x => if x = m then max (rank a) (rank b) + 1 else rank x, fun x y hxy => ?_⟩
  rcases hlinks x y hxy with ⟨rfl, hx⟩ | hold
  · have hxm : x ≠ y := hx.elim (fun h => h ▸ ha) fun h => h ▸ hb
    dsimp only
    rw [if_neg hxm, if_pos rfl]
    rcases hx with rfl | rfl
    · exact Nat.lt_succ_of_le (le_max_left _ _)
    · exact Nat.lt_succ_of_le (le_max_right _ _)
  · have hxm : x ≠ m := fun heq => by
      rw [heq, hfrom] at hold
      cases hold
    have hym : y ≠ m := fun heq => hto x (heq ▸ hold)
    dsimp only
    rw [if_neg hxm, if_neg hym]
    exact hrank x y hold

theorem insertChunk_leakyRanked {env : Env} {c : ValidChunk} (hv : st.catalog.Sound) (h : st.LeakyRanked)
    (hfresh : Fresh env st c.toChunk) : (insertChunk env st c.toChunk).1.LeakyRanked := by
  refine insertChunk_elim h fun hacc => ?_
  obtain ⟨hins, -⟩ := insertChunk_cases hv c.wf hfresh hacc
  obtain ⟨-, habsent, -⟩ := sound_of_earlyReturn c.wf hacc.2
  rcases hins.leaky_cases hv habsent with hsub | ⟨elected, m, hmerge, -, hlinks⟩
  · exact h.of_subset hsub
  · obtain ⟨j, hj⟩ := hmerge.id
    have hnew := (hfresh j).1
    rw [← hj] at hnew
    refine h.link (fun heq => (hfresh j).2 (hj.symm.trans heq.symm)) (fun heq => ?_) ?_ (fun x hx => ?_)
      hlinks
    · exact hnew (heq ▸ .physical hmerge.physical)
    · exact eq_none_iff_forall_ne_some.mpr fun y hy => hnew (.leaky hy)
    · exact hnew (.compacted hx)

end ChunkStore

theorem Op.run_unlinked {st : ChunkStore} {op : Op} (hv : st.catalog.Sound)
    (hop : ∀ env c, op ≠ .insertChunk env c) :
    (∀ x y, (op.run st).leakyCompactions.lookup x = some y → st.leakyCompactions.lookup x = some y) ∧
      ∀ id d, (op.run st).physical id = some d → st.physical id = some d := by
  have hremoves : ∀ {w : ChunkStore}, Catalog.Removes st.catalog w.catalog →
      ∀ id d, w.physical id = some d → st.physical id = some d :=
    fun h id d hd => (h.isSome_of (isSome_of_eq_some hd)).symm.trans hd
  cases op with
  | insertDlrManifest manifest =>
    refine ⟨fun x y hxy => (insertDlrManifest_maps st manifest).1 ▸ hxy, fun id d hd => ?_⟩
    exact (congrFun (insertDlrManifest_announces st manifest).chunks id).symm.trans hd
  | insertChunk env c => exact absurd rfl (hop env c)
  | gc options clock =>
    exact ⟨(gc_recedes st options clock).lineage.leaky_of, hremoves (gc_removes hv options clock).1⟩
  | removeChunksShallow chunks budget reason =>
    exact ⟨(removeChunksShallow_recedes ..).lineage.leaky_of,
      hremoves (removeChunksShallow_removes hv _ budget reason).removes⟩
  | removeChunksDeep chunks reason =>
    exact ⟨(removeChunksDeep_recedes ..).lineage.leaky_of, hremoves (removeChunksDeep_removes hv _ reason).removes⟩
  | dropEntityPath e =>
    refine ⟨fun x y hxy => ?_, fun id d hd => ?_⟩
    · exact (congrArg (fun ctx => ctx.leakyCompactions.lookup x)
        (dropEntityPath_frame st e).1).symm.trans hxy
    · exact ((dropEntityPath_drops st e).physical_of hd).1

namespace ChunkStore

variable {st st' : ChunkStore} {c : Chunk} {known : Chunk → Prop}

variable {allowed : ChunkStore → Op → Prop}

theorem Reachable.leaky_ranked (h : Reachable allowed st) : st.LeakyRanked := by
  induction h with
  | new config => exact ⟨fun _ => 0, fun x y h => by simp [ChunkStore.new] at h⟩
  | @step st op hst hop _ ih =>
    by_cases hins : ∃ env c, op = .insertChunk env c
    · obtain ⟨env, c, rfl⟩ := hins
      exact insertChunk_leakyRanked hst.sound ih hop
    · exact ih.of_subset (Op.run_unlinked hst.sound fun env c heq => hins ⟨env, c, heq⟩).1

theorem Reachable.leakyChain_ends (h : Reachable allowed st)
    (id : ChunkId) : st.leakyChain (st.leakyCompactions.entries.length + 1) id = none := by
  obtain ⟨rank, hrank⟩ := h.leaky_ranked
  exact Walk.after_eq_none hrank _ id (Nat.lt_succ_of_le (Walk.length_above_le rank id))

/-! ## Links lead to the rows -/

/-- A link from one chunk to another means that the second has the rows of the first. -/
structure LeakySound (known : Chunk → Prop) (st : ChunkStore) : Prop where
  ids : ∀ d d', known d → known d' → d.id = d'.id → d.rows = d'.rows
  stored : ∀ id d, st.physical id = some d → known d ∧ d.id = id
  links : ∀ x y, st.leakyCompactions.lookup x = some y → ∃ d e, known d ∧ known e ∧ d.id = x ∧ e.id = y ∧
    ∀ row ∈ d.rows, row ∈ e.rows

theorem LeakySound.of_subset (h : LeakySound known st)
    (hleaky : ∀ x y, st'.leakyCompactions.lookup x = some y → st.leakyCompactions.lookup x = some y)
    (hphys : ∀ id d, st'.physical id = some d → st.physical id = some d) : LeakySound known st' :=
  ⟨h.ids, fun id d hd => h.stored id d (hphys id d hd), fun x y hxy => h.links x y (hleaky x y hxy)⟩

theorem LeakySound.chain (h : LeakySound known st) {n : Nat} {y : ChunkId} {d e : Chunk} (hd : known d)
    (hchain : st.leakyChain n d.id = some y) (he : st.physical y = some e) : ∀ row ∈ d.rows, row ∈ e.rows := by
  obtain ⟨heknown, heid⟩ := h.stored y e he
  have hwalk : ∀ d', known d' → d'.id = d.id → ∃ e, known e ∧ e.id = y ∧ ∀ row ∈ d'.rows, row ∈ e.rows := by
    refine Walk.after_rel (R := fun x y => ∀ d, known d → d.id = x →
      ∃ e, known e ∧ e.id = y ∧ ∀ row ∈ d.rows, row ∈ e.rows) ?_ ?_ ?_ hchain
    · exact fun x d hd hid => ⟨d, hd, hid, fun _ h => h⟩
    · intro x₁ x₂ x₃ h₁₂ h₂₃ d hd hid
      obtain ⟨d₂, hd₂, hid₂, hrows₂⟩ := h₁₂ d hd hid
      obtain ⟨d₃, hd₃, hid₃, hrows₃⟩ := h₂₃ d₂ hd₂ hid₂
      exact ⟨d₃, hd₃, hid₃, fun row hrow => hrows₃ row (hrows₂ row hrow)⟩
    · intro x x' hx d hd hid
      obtain ⟨d₀, e₀, hd₀, he₀, hid₀, heid₀, hrows⟩ := h.links x x' hx
      refine ⟨e₀, he₀, heid₀, fun row hrow => hrows row ?_⟩
      rwa [h.ids d₀ d hd₀ hd (hid₀.trans hid.symm)]
  obtain ⟨e', he', heid', hrows⟩ := hwalk d hd rfl
  intro row hrow
  rw [h.ids e e' heknown he' (heid.trans heid'.symm)]
  exact hrows row hrow

theorem insertChunk_leakySound {env : Env} {c : ValidChunk} (hv : st.catalog.Sound)
    (h : LeakySound known st) (hfresh : Fresh env st c.toChunk)
    (hids : (Op.insertChunk env c).KeepsIds known) (hcells : (Op.insertChunk env c).KeepsCells st) :
    LeakySound (fun d => known d ∨ d = c.toChunk ∨
      ∃ id, (insertChunk env st c.toChunk).1.physical id = some d) (insertChunk env st c.toChunk).1 := by
  obtain ⟨hsame, hnew⟩ := hids
  have hsound := insertChunk_sound hv hfresh
  have hins := fun hacc => (insertChunk_cases hv c.wf hfresh hacc).1
  have habsent := fun hacc : st.Accepts c.toChunk => (sound_of_earlyReturn c.wf hacc.2).2.1
  have hrejected : ¬ st.Accepts c.toChunk → (insertChunk env st c.toChunk).1 = st := insertChunk_of_not_accepts
  generalize (insertChunk env st c.toChunk).1 = st' at *
  -- what is seen by now was seen before, is the chunk, or is stored under a new id
  have hseen : ∀ {d}, (known d ∨ d = c.toChunk ∨ ∃ id, st'.physical id = some d) →
      known d ∨ d = c.toChunk ∨ (st'.physical d.id = some d ∧ ∃ j, d.id = env.newId j) := by
    intro d hd
    rcases hd with hd | hd | ⟨id, hd⟩
    · exact .inl hd
    · exact .inr (.inl hd)
    · by_cases hacc : st.Accepts c.toChunk
      · rcases (hins hacc).physical_cases hv (habsent hacc) hfresh hd with hold | ⟨rfl, rfl | hid⟩
        · exact .inl (h.stored id d hold).1
        · exact .inr (.inl rfl)
        · exact .inr (.inr ⟨hd, hid⟩)
      · exact .inl (h.stored id d (hrejected hacc ▸ hd)).1
  have hdiff : ∀ {d d' : Chunk}, (known d ∨ d = c.toChunk) → (∃ j, d'.id = env.newId j) → d.id ≠ d'.id := by
    rintro d d' hd ⟨j, hj⟩ heq
    rcases hd with hd | rfl
    · exact hnew d j hd (heq.trans hj)
    · exact (hfresh j).2 (heq.trans hj).symm
  have hunique : ∀ d d', (known d ∨ d = c.toChunk ∨ ∃ id, st'.physical id = some d) →
      (known d' ∨ d' = c.toChunk ∨ ∃ id, st'.physical id = some d') → d.id = d'.id → d.rows = d'.rows := by
    intro d d' hd hd' heq
    rcases hseen hd with hd | rfl | ⟨hd, hdid⟩
    · rcases hseen hd' with hd' | rfl | ⟨-, hid'⟩
      · exact h.ids d d' hd hd' heq
      · exact hsame d hd heq
      · exact absurd heq (hdiff (.inl hd) hid')
    · rcases hseen hd' with hd' | rfl | ⟨-, hid'⟩
      · exact (hsame d' hd' heq.symm).symm
      · rfl
      · exact absurd heq (hdiff (.inr rfl) hid')
    · rcases hseen hd' with hd' | rfl | ⟨hd', -⟩
      · exact absurd heq.symm (hdiff (.inl hd') hdid)
      · exact absurd heq.symm (hdiff (.inr rfl) hdid)
      · rw [← heq, hd] at hd'
        rw [some.inj hd']
  refine ⟨hunique, fun id d hd => ⟨.inr (.inr ⟨id, hd⟩), hsound.id_eq id d hd⟩, fun x y hxy => ?_⟩
  have hold : st.leakyCompactions.lookup x = some y → ∃ d e,
      (known d ∨ d = c.toChunk ∨ ∃ id, st'.physical id = some d) ∧
      (known e ∨ e = c.toChunk ∨ ∃ id, st'.physical id = some e) ∧ d.id = x ∧ e.id = y ∧
      ∀ row ∈ d.rows, row ∈ e.rows := by
    intro hxy
    obtain ⟨d, e, hd, he, hdx, hey, hrows⟩ := h.links x y hxy
    exact ⟨d, e, .inl hd, .inl he, hdx, hey, hrows⟩
  by_cases hacc : st.Accepts c.toChunk
  · rcases (hins hacc).leaky_cases hv (habsent hacc) with hsub | ⟨elected, m, hmerge, hm, hlinks⟩
    · exact hold (hsub x y hxy)
    · rcases hlinks x y hxy with ⟨rfl, hx⟩ | hxy
      · obtain ⟨hkeeps, hpe, hpc⟩ := hcells hacc hmerge.static hmerge.whole elected hmerge.elect
        have hrows := fun row => (hmerge.merge.rows hkeeps hpe hpc).mem_iff (a := row)
        rcases hx with rfl | rfl
        · exact ⟨c.toChunk, m, .inr (.inl rfl), .inr (.inr ⟨m.id, hm⟩), rfl, rfl,
            fun row hrow => (hrows row).mpr (mem_append_right _ hrow)⟩
        · exact ⟨elected, m, .inl (h.stored _ _ hmerge.physical).1, .inr (.inr ⟨m.id, hm⟩), rfl, rfl,
            fun row hrow => (hrows row).mpr (mem_append_left _ hrow)⟩
      · exact hold hxy
  · exact hold (hrejected hacc ▸ hxy)

theorem History.leakySound (h : History (fun st op => op.KeepsCells st) known st) : LeakySound known st := by
  induction h with
  | new config =>
    refine ⟨fun _ _ h => h.elim, fun id d hd => ?_, fun x y hxy => ?_⟩
    · simp [physical, ChunkStore.new] at hd
    · simp [ChunkStore.new] at hxy
  | @step known st op hst hop hids hcells ih =>
    have hv := hst.reachable.sound
    by_cases hins : ∃ env c, op = .insertChunk env c
    · obtain ⟨env, c, rfl⟩ := hins
      exact insertChunk_leakySound hv ih hop hids hcells
    · have hunlinked := Op.run_unlinked hv fun env c heq => hins ⟨env, c, heq⟩
      have hseen : (fun d => known d ∨ op.Brings d ∨ ∃ id, (op.run st).physical id = some d) = known := by
        funext d
        refine propext ⟨fun hd => ?_, .inl⟩
        rcases hd with hd | hd | ⟨id, hd⟩
        · exact hd
        · cases op with
          | insertChunk env c => exact absurd ⟨env, c, rfl⟩ hins
          | _ => exact hd.elim
        · exact (ih.stored id d (hunlinked.2 id d hd)).1
      rw [hseen]
      exact ih.of_subset hunlinked.1 hunlinked.2

/-- In every run whose compactions lose no column and pad columns that can be padded, every chain of leaky
compactions ends, and a chain from a chunk to a physical one leads to all of its rows. -/
theorem history_leakyChains (h : History (fun st op => op.KeepsCells st) known st) :
    (∀ id, ∃ n, st.leakyChain n id = none) ∧
      ∀ d, known d → ∀ n y p, st.leakyChain n d.id = some y → st.physical y = some p →
        ∀ row ∈ d.rows, row ∈ p.rows :=
  ⟨fun id => ⟨_, h.reachable.leakyChain_ends id⟩, fun _ hd _ _ _ hchain hp => h.leakySound.chain hd hchain hp⟩

theorem keepsIds_countingFrom {bound : Nat} {c : ValidChunk} (hknown : ∀ d, known d → d.id < c.id)
    (hc : c.id < bound) : (Op.insertChunk (.countingFrom bound) c).KeepsIds known := by
  refine ⟨fun d hd hid => absurd hid (hknown d hd).ne, fun d k hd => ?_⟩
  have hlt := (hknown d hd).trans hc
  have hle : bound ≤ (Env.countingFrom bound).newId k := Nat.le_add_right bound k
  exact (hlt.trans_le hle).ne

def colorChunk (color : ListArray) : Chunk :=
  { Chunk.ofColumns 1 ⟨["robot"]⟩ 0 [1] [(⟨"frame"⟩, [I64.sat 0])] [] with
    components := Assoc.ofList [(⟨"position"⟩, ⟨none, .ofCells [some []]⟩), (⟨"color"⟩, ⟨none, color⟩)] }

def plainChunk : ValidChunk where
  toChunk := .ofColumns 2 ⟨["robot"]⟩ 0 [2] [(⟨"frame"⟩, [I64.sat 1])] [(⟨"position"⟩, [some []])]
  sane := rfl

def colorStore (c : ValidChunk) : ChunkStore :=
  (Op.insertChunk (.countingFrom 100) c).run (.new ⟨9, 9, 9⟩)

def compactedStore (c : ValidChunk) : ChunkStore :=
  (Op.insertChunk (.countingFrom 100) plainChunk).run (colorStore c)

theorem compactedStore_history {c : ValidChunk}
    (hids : ∀ d ∈ Assoc.values (colorStore c).physicalChunksPerChunkId, d.id < 2) (hc : c.id < 2)
    (hcolor : Op.Possible (.new ⟨9, 9, 9⟩) (.insertChunk (.countingFrom 100) c))
    (hplain : Op.Possible (colorStore c) (.insertChunk (.countingFrom 100) plainChunk))
    (hallowed : allowed (.new ⟨9, 9, 9⟩) (.insertChunk (.countingFrom 100) c) ∧
      allowed (colorStore c) (.insertChunk (.countingFrom 100) plainChunk)) :
    ∃ known, known c.toChunk ∧ History allowed known (compactedStore c) := by
  have hfirst := History.step (.new _) hcolor
    (keepsIds_countingFrom (fun _ h => h.elim) (hc.trans (by decide))) hallowed.1
  refine ⟨_, .inl (.inr (.inl rfl)), History.step hfirst hplain
    (keepsIds_countingFrom (fun d hd => ?_) (by decide)) hallowed.2⟩
  rcases hd with hd | rfl | ⟨id, hd⟩
  · exact hd.elim
  · exact hc
  · exact hids d (Assoc.mem_values.mpr ⟨id, hd⟩)

/-- With a packed array the merge has the row of the first chunk. -/
theorem packedStore_leakyChains :
    ∃ p, (compactedStore ⟨colorChunk (.ofCells [some [[2]]]), rfl⟩).physical 100 = some p ∧
      ∀ row ∈ (colorChunk (.ofCells [some [[2]]])).rows, row ∈ p.rows := by
  have hfirst : (Op.insertChunk (.countingFrom 100) ⟨colorChunk (.ofCells [some [[2]]]), rfl⟩).KeepsCells
      (.new ⟨9, 9, 9⟩) := by
    intro _ _ _ elected h
    cases (show (none : Option Chunk) = some elected from h)
  have hsecond : (Op.insertChunk (.countingFrom 100) plainChunk).KeepsCells
      (colorStore ⟨colorChunk (.ofCells [some [[2]]]), rfl⟩) := by
    intro _ _ _ elected h
    obtain rfl := some.inj (show some (colorChunk (.ofCells [some [[2]]])) = some elected from h)
    exact ⟨Chunk.joinsColumns_countingFrom _ _ _, Chunk.Packed.paddableNextTo (by decide) _,
      Chunk.Packed.paddableNextTo (by decide) _⟩
  obtain ⟨known, hknown, hhistory⟩ := @compactedStore_history (fun st op => op.KeepsCells st)
    ⟨colorChunk (.ofCells [some [[2]]]), rfl⟩ (by decide) (by decide)
    fresh_countingFrom fresh_countingFrom
    ⟨hfirst, hsecond⟩
  obtain ⟨p, hp⟩ := isSome_iff_exists.mp (show ((compactedStore
    ⟨colorChunk (.ofCells [some [[2]]]), rfl⟩).physical 100).isSome = true by rfl)
  exact ⟨p, hp, (history_leakyChains hhistory).2 _ hknown 1 100 p rfl hp⟩

def slicedArray : ListArray := (ListArray.ofCells [some [[1]], some [[2]]]).slice 1 1

/-- Padding it back yields the first value. -/
theorem slicedStore_loses_row :
    ∃ known, History (fun _ _ => True) known (compactedStore ⟨colorChunk slicedArray, rfl⟩) ∧
      ¬ ∀ d, known d → ∀ n y p, (compactedStore ⟨colorChunk slicedArray, rfl⟩).leakyChain n d.id = some y →
        (compactedStore ⟨colorChunk slicedArray, rfl⟩).physical y = some p → ∀ row ∈ d.rows, row ∈ p.rows := by
  obtain ⟨known, hknown, hhistory⟩ := @compactedStore_history (fun _ _ => True)
    ⟨colorChunk slicedArray, rfl⟩ (by decide) (by decide) fresh_countingFrom
    fresh_countingFrom ⟨trivial, trivial⟩
  refine ⟨known, hhistory, fun h => ?_⟩
  obtain ⟨p, hp⟩ := isSome_iff_exists.mp (show ((compactedStore
    ⟨colorChunk slicedArray, rfl⟩).physical 100).isSome = true by rfl)
  have hrow := h _ hknown 1 100 p rfl hp _ (mem_singleton_self ((colorChunk slicedArray).rowAt 0 1))
  have hcells : ((compactedStore ⟨colorChunk slicedArray, rfl⟩).physical 100).all
      (fun p => p.rows.all fun row => decide (row.cells ⟨"color"⟩ ≠ some [[2]])) = true := by decide
  rw [hp] at hcells
  have := List.all_eq_true.mp hcells _ hrow
  revert this
  decide

end ChunkStore

end Dalaran
