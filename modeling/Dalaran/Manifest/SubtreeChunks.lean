import Dalaran.Manifest.LoadedCounts

/-
  The chunks of an entity and of those under it (`dlr_manifest_index::sorted_temporal_chunks`).

  The tree of entities is visited bottom up. The list of an entity is made of those
  of its children and of its own components, and tells of every chunk in the subtree
  once (`subtree_chunks`).

  Correspondence (Rust ↔ Lean):
    `Vec::dedup_by` ↔ `dedup`
    the visitor, on one timeline ↔ `gather`
    `per_entity`, `get` ↔ `PerEntity`, `listOf`
  A tree has the values of `children`. The hash of a path stands for the path, and an
  entry of the nested maps is found by the keys of all levels. It takes 2^64 rows for
  a count to overflow.
-/

namespace Dalaran

open List

inductive EntityTree where
  | node (path : EntityPath) (children : List EntityTree)

namespace EntityTree

def path : EntityTree → EntityPath
  | node path _ => path

mutual

def subtrees : EntityTree → List EntityTree
  | node path children => node path children :: subtreesAll children

def subtreesAll : List EntityTree → List EntityTree
  | [] => []
  | child :: children => subtrees child ++ subtreesAll children

end

def paths (tree : EntityTree) : List EntityPath := tree.subtrees.map path

end EntityTree

/-! ## Merging chunks -/

namespace ChunkCountInfo

/-- A chunk with the rows and times of another entry for it. -/
def merge (b a : ChunkCountInfo) : ChunkCountInfo :=
  { b with timeRange := b.timeRange.union a.timeRange, numRows := b.numRows + a.numRows }

/-- `dedup_by`: an entry takes in those that follow it, as long as they have its id. -/
def dedupFrom (into : ChunkCountInfo → ChunkCountInfo → ChunkCountInfo) (b : ChunkCountInfo) :
    List ChunkCountInfo → List ChunkCountInfo
  | [] => [b]
  | a :: l => if a.id = b.id then dedupFrom into (into b a) l else b :: dedupFrom into a l

def dedup : List ChunkCountInfo → List ChunkCountInfo
  | [] => []
  | b :: l => dedupFrom merge b l

/-- One entry for each chunk, by the start. -/
def aggregate (chunks : List ChunkCountInfo) : List ChunkCountInfo :=
  (dedup (chunks.insertionSort fun a b => a.id ≤ b.id)).insertionSort fun a b => a.timeRange.min ≤ b.timeRange.min

def rowsOf (id : ChunkId) (l : List ChunkCountInfo) : Nat :=
  ((l.filter fun info => decide (info.id = id)).map (·.numRows)).sum

/-- Two lists tell the same about every chunk: the sum of its rows, and where the union of its ranges lies. -/
structure Same (l l' : List ChunkCountInfo) : Prop where
  rows : ∀ id, rowsOf id l = rowsOf id l'
  starts : ∀ id t, (∃ i ∈ l, i.id = id ∧ i.timeRange.min ≤ t) ↔ ∃ i ∈ l', i.id = id ∧ i.timeRange.min ≤ t
  ends : ∀ id t, (∃ i ∈ l, i.id = id ∧ t ≤ i.timeRange.max) ↔ ∃ i ∈ l', i.id = id ∧ t ≤ i.timeRange.max

/-- The chunks of some entries, each once, with all their rows and times, in the order of their starts. -/
structure Aggregated (src out : List ChunkCountInfo) : Prop where
  sorted : out.Pairwise fun a b => a.timeRange.min ≤ b.timeRange.min
  nodup : (out.map (·.id)).Nodup
  same : Same out src

variable {l l' l'' k k' src out : List ChunkCountInfo} {a b : ChunkCountInfo}

theorem Same.refl (l : List ChunkCountInfo) : Same l l := ⟨fun _ => rfl, fun _ _ => Iff.rfl, fun _ _ => Iff.rfl⟩

theorem Same.trans (h : Same l l') (h' : Same l' l'') : Same l l'' :=
  ⟨fun id => (h.rows id).trans (h'.rows id), fun id t => (h.starts id t).trans (h'.starts id t),
    fun id t => (h.ends id t).trans (h'.ends id t)⟩

theorem Same.of_perm (h : l.Perm l') : Same l l' :=
  ⟨fun _ => ((h.filter _).map _).sum_eq, fun _ _ => by simp only [h.mem_iff], fun _ _ => by simp only [h.mem_iff]⟩

theorem Same.append (h : Same l l') (h' : Same k k') : Same (l ++ k) (l' ++ k') where
  rows id := by
    have := h.rows id
    have := h'.rows id
    simp only [rowsOf, filter_append, map_append, sum_append] at *
    omega
  starts id t := by simp only [mem_append, or_and_right, exists_or, h.starts, h'.starts]
  ends id t := by simp only [mem_append, or_and_right, exists_or, h.ends, h'.ends]

theorem same_merge (hid : a.id = b.id) (l : List ChunkCountInfo) : Same (b.merge a :: l) (b :: a :: l) where
  rows id := by
    by_cases hb : b.id = id
    · simp [rowsOf, merge, hid, hb, Nat.add_assoc]
    · simp [rowsOf, merge, hid, hb]
  starts id t := by
    simp only [mem_cons, exists_eq_or_imp, merge, AbsoluteTimeRange.union, min_le_iff, hid]
    tauto
  ends id t := by
    simp only [mem_cons, exists_eq_or_imp, merge, AbsoluteTimeRange.union, le_max_iff, hid]
    tauto

theorem dedupFrom_same : Same (dedupFrom merge b l) (b :: l) := by
  induction l generalizing b with
  | nil => exact Same.refl _
  | cons a l ih =>
    rw [dedupFrom]
    split
    · next hid => exact ih.trans (same_merge hid l)
    · exact (Same.refl [b]).append ih

theorem dedupFrom_ascending {into : ChunkCountInfo → ChunkCountInfo → ChunkCountInfo}
    (hinto : ∀ b a, (into b a).id = b.id) (h : (b :: l).Pairwise fun a b => a.id ≤ b.id) :
    (dedupFrom into b l).Pairwise (fun a b => a.id < b.id) ∧ ∀ info ∈ dedupFrom into b l, b.id ≤ info.id := by
  induction l generalizing b with
  | nil => exact ⟨pairwise_singleton .., fun info hinfo => (mem_singleton.mp hinfo) ▸ le_refl _⟩
  | cons a l ih =>
    obtain ⟨hfirst, hrest⟩ := pairwise_cons.mp h
    rw [dedupFrom]
    split
    · have hb : (into b a :: l).Pairwise fun a b => a.id ≤ b.id := pairwise_cons.mpr
        ⟨fun x hx => (hinto b a).trans_le (hfirst x (mem_cons_of_mem _ hx)), (pairwise_cons.mp hrest).2⟩
      exact ⟨(ih hb).1, fun info hinfo => (hinto b a).symm.trans_le ((ih hb).2 info hinfo)⟩
    · next hid =>
      have hlt := lt_of_le_of_ne (hfirst a mem_cons_self) fun heq => hid heq.symm
      obtain ⟨hasc, hle⟩ := ih hrest
      refine ⟨pairwise_cons.mpr ⟨fun info hinfo => hlt.trans_le (hle info hinfo), hasc⟩, fun info hinfo => ?_⟩
      rcases mem_cons.mp hinfo with rfl | hinfo
      · exact le_refl _
      · exact hlt.le.trans (hle info hinfo)

theorem destutter'_eq : l.destutter' (fun a b => a.id ≠ b.id) b = dedupFrom (fun b _ => b) b l := by
  induction l generalizing b with
  | nil => rfl
  | cons a l ih =>
    rw [destutter', dedupFrom, ih, ih]
    by_cases hid : a.id = b.id
    · rw [if_neg (not_not.mpr hid.symm), if_pos hid]
    · rw [if_pos (Ne.symm hid), if_neg hid]

theorem exists_mem_dedupFrom {x : ChunkCountInfo} (h : x ∈ b :: l) :
    ∃ y ∈ dedupFrom (fun b _ => b) b l, y.id = x.id := by
  induction l generalizing b x with
  | nil => exact ⟨b, mem_singleton_self b, by rw [mem_singleton.mp h]⟩
  | cons a l ih =>
    rw [dedupFrom]
    split
    · next hid =>
      rcases mem_cons.mp h with rfl | h
      · exact ih mem_cons_self
      · rcases mem_cons.mp h with rfl | h
        · exact (ih (x := b) mem_cons_self).imp fun y hy => ⟨hy.1, hy.2.trans hid.symm⟩
        · exact ih (mem_cons_of_mem _ h)
    · rcases mem_cons.mp h with rfl | h
      · exact ⟨x, mem_cons_self, rfl⟩
      · exact (ih h).imp fun y hy => ⟨mem_cons_of_mem _ hy.1, hy.2⟩

theorem aggregate_same (l : List ChunkCountInfo) : Same (aggregate l) l := by
  refine (Same.of_perm (perm_insertionSort ..)).trans (Same.trans ?_ (Same.of_perm (perm_insertionSort (fun a b => a.id ≤ b.id) l)))
  cases l.insertionSort fun a b => a.id ≤ b.id with
  | nil => exact Same.refl _
  | cons b l => exact dedupFrom_same

theorem Same.aggregated (h : Same l src) : Aggregated src (aggregate l) := by
  refine ⟨pairwise_insertionSort .., ?_, (aggregate_same l).trans h⟩
  refine ((perm_insertionSort _ _).map _).nodup_iff.mpr (pairwise_map.mpr ?_)
  have hsorted : (l.insertionSort fun a b => a.id ≤ b.id).Pairwise fun a b => a.id ≤ b.id := pairwise_insertionSort ..
  cases hl : l.insertionSort fun a b => a.id ≤ b.id with
  | nil => exact Pairwise.nil
  | cons b l =>
    have hmerge : ∀ b a : ChunkCountInfo, (b.merge a).id = b.id := fun _ _ => rfl
    exact (dedupFrom_ascending hmerge (hl ▸ hsorted)).1.imp fun hlt => hlt.ne

end ChunkCountInfo

open ChunkCountInfo

/-! ## The lists of the components -/

def componentChunks (components : SortedTemporalChunks) (timeline : TimelineName) (entity : EntityPath) :
    List ChunkCountInfo :=
  ((Assoc.toList components).filter fun e => decide (e.1.1 = timeline ∧ e.1.2.entityPath = entity)).flatMap (·.2)

/-- The chunks of a component in a manifest, each once, in the order of their starts. -/
structure ComponentListed (manifest : DlrManifest) (timeline : TimelineName) (path : ComponentPathKey)
    (out : List ChunkCountInfo) : Prop where
  sorted : out.Pairwise fun a b => a.timeRange.min ≤ b.timeRange.min
  nodup : (out.map (·.id)).Nodup
  ids : ∀ id, id ∈ out.map (·.id) ↔ ∃ t entry, t.name = timeline ∧
    manifest.temporalMap.lookup (path.entityPath, t, path.component, id) = some entry
  entries : ∀ info ∈ out, ∃ t, t.name = timeline ∧
    manifest.temporalMap.lookup (path.entityPath, t, path.component, info.id) = some ⟨info.timeRange, info.numRows⟩

theorem SortedTemporalChunks.new_listed (manifest : DlrManifest) (timeline : TimelineName) (path : ComponentPathKey) :
    ComponentListed manifest timeline path (((new manifest).lookup (timeline, path)).getD []) := by
  have hlookup : ((new manifest).lookup (timeline, path)).getD [] =
      sorted (((collect manifest).lookup (timeline, path)).getD []) := by
    rw [new, Assoc.lookup_map]
    cases (collect manifest).lookup (timeline, path) <;> rfl
  rw [hlookup, SortedTemporalChunks.lookup_collect]
  generalize hl : map _ _ = l
  have hmem : ∀ info, info ∈ l ↔ ∃ t, t.name = timeline ∧
      manifest.temporalMap.lookup (path.entityPath, t, path.component, info.id) = some ⟨info.timeRange, info.numRows⟩ := by
    intro info
    rw [← hl, mem_map]
    constructor
    · rintro ⟨⟨⟨e, t, c, id⟩, entry⟩, he, rfl⟩
      obtain ⟨rfl, rfl⟩ := Prod.mk.inj (of_decide_eq_true (mem_filter.mp he).2)
      exact ⟨t, rfl, Assoc.mem_toList.mp (mem_filter.mp he).1⟩
    · rintro ⟨t, rfl, hentry⟩
      exact ⟨_, mem_filter.mpr ⟨Assoc.mem_toList.mpr hentry, decide_eq_true rfl⟩, rfl⟩
  have hsorted : (l.insertionSort fun a b => a.id ≤ b.id).Pairwise fun a b => a.id ≤ b.id := pairwise_insertionSort ..
  have hin : ∀ info ∈ sorted l, info ∈ l := fun info hinfo =>
    (mem_insertionSort _).mp ((destutter_sublist _ _).subset ((mem_insertionSort _).mp hinfo))
  have hkept : ∀ info ∈ l, ∃ y ∈ sorted l, y.id = info.id := by
    intro info hinfo
    have hinfo : info ∈ l.insertionSort fun a b => a.id ≤ b.id := (mem_insertionSort _).mpr hinfo
    simp only [sorted, mem_insertionSort]
    cases hs : l.insertionSort fun a b => a.id ≤ b.id with
    | nil => exact absurd (hs ▸ hinfo) not_mem_nil
    | cons b rest =>
      rw [destutter, destutter'_eq]
      exact exists_mem_dedupFrom (hs ▸ hinfo)
  refine ⟨pairwise_insertionSort .., ?_, fun id => ?_, fun info hinfo => (hmem info).mp (hin info hinfo)⟩
  · refine ((perm_insertionSort _ _).map _).nodup_iff.mpr (pairwise_map.mpr ?_)
    cases hs : l.insertionSort fun a b => a.id ≤ b.id with
    | nil => exact Pairwise.nil
    | cons b rest =>
      rw [destutter, destutter'_eq]
      exact (dedupFrom_ascending (fun _ _ => rfl) (hs ▸ hsorted)).1.imp fun hlt => hlt.ne
  · rw [mem_map]
    constructor
    · rintro ⟨info, hinfo, rfl⟩
      obtain ⟨t, ht, hentry⟩ := (hmem info).mp (hin info hinfo)
      exact ⟨t, _, ht, hentry⟩
    · rintro ⟨t, entry, ht, hentry⟩
      exact hkept ⟨id, entry.timeRange, entry.numRows⟩ ((hmem _).mpr ⟨t, ht, hentry⟩)

/-! ## Visiting the tree -/

abbrev PerEntity := Assoc (TimelineName × EntityPath) (List ChunkCountInfo)

def listOf (perEntity : PerEntity) (timeline : TimelineName) (entity : EntityPath) : List ChunkCountInfo :=
  (perEntity.lookup (timeline, entity)).getD []

namespace EntityTree

variable (components : SortedTemporalChunks)

/-- The list of an entity on a timeline, from those of its children. -/
def gather (path : EntityPath) (children : List EntityPath) (perEntity : PerEntity) (timeline : TimelineName) :
    PerEntity :=
  Assoc.upsert perEntity (timeline, path) [] fun chunks =>
    aggregate (chunks ++ children.flatMap (listOf perEntity timeline) ++ componentChunks components timeline path)

def timelines : List TimelineName := ((Assoc.toList components).map fun e => e.1.1).dedup

mutual

def visit : EntityTree → PerEntity → PerEntity
  | node path children, perEntity =>
    (timelines components).foldl (gather components path (children.map EntityTree.path)) (visitAll children perEntity)

def visitAll : List EntityTree → PerEntity → PerEntity
  | [], perEntity => perEntity
  | child :: children, perEntity => visitAll children (visit child perEntity)

end

variable {components} {timeline : TimelineName}

theorem listOf_gather (path p : EntityPath) (children : List EntityPath) (perEntity : PerEntity) (t : TimelineName) :
    listOf (gather components path children perEntity t) timeline p =
      if t = timeline ∧ p = path then aggregate (listOf perEntity timeline path ++
        children.flatMap (listOf perEntity timeline) ++ componentChunks components timeline path)
      else listOf perEntity timeline p := by
  rw [listOf, gather, Assoc.lookup_upsert]
  by_cases h : t = timeline ∧ p = path
  · obtain ⟨rfl, rfl⟩ := h
    rw [if_pos rfl, if_pos ⟨rfl, rfl⟩]
    rfl
  · rw [if_neg (fun heq => h ⟨(Prod.mk.inj heq).1.symm, (Prod.mk.inj heq).2⟩), if_neg h]
    rfl

theorem listOf_foldl_gather (path p : EntityPath) (children : List EntityPath) {ts : List TimelineName}
    (hts : ts.Nodup) (perEntity : PerEntity) :
    listOf (ts.foldl (gather components path children) perEntity) timeline p =
      if timeline ∈ ts ∧ p = path then aggregate (listOf perEntity timeline path ++
        children.flatMap (listOf perEntity timeline) ++ componentChunks components timeline path)
      else listOf perEntity timeline p := by
  induction ts generalizing perEntity with
  | nil => exact (if_neg fun h => absurd h.1 not_mem_nil).symm
  | cons t ts ih =>
    obtain ⟨hfresh, hts⟩ := nodup_cons.mp hts
    rw [foldl_cons, ih hts]
    by_cases ht : t = timeline
    · subst ht
      rw [if_neg fun h => hfresh h.1, listOf_gather]
      simp
    · have hkeep : listOf (gather components path children perEntity t) timeline = listOf perEntity timeline :=
        funext fun p => (listOf_gather ..).trans (if_neg fun h => ht h.1)
      simp [hkeep, Ne.symm ht]

theorem mem_subtreesAll {child : EntityTree} {children : List EntityTree} (h : child ∈ children) :
    child ∈ subtreesAll children := by
  induction children with
  | nil => cases h
  | cons c children ih =>
    rw [subtreesAll]
    rcases mem_cons.mp h with rfl | h
    · cases child
      simp [subtrees]
    · exact mem_append_right _ (ih h)

theorem same_children {lists own : EntityPath → List ChunkCountInfo} {children : List EntityTree}
    (h : ∀ c ∈ children, Same (lists c.path) (c.paths.flatMap own)) :
    Same ((children.map path).flatMap lists) (((subtreesAll children).map path).flatMap own) := by
  induction children with
  | nil => exact Same.refl _
  | cons c children ih =>
    rw [subtreesAll, map_append, flatMap_append, map_cons, flatMap_cons]
    exact (h c mem_cons_self).append (ih fun c hc => h c (mem_cons_of_mem _ hc))

/-- Some trees are visited, and nothing else changes. -/
structure Visited (components : SortedTemporalChunks) (timeline : TimelineName) (trees : List EntityTree)
    (before after : PerEntity) : Prop where
  frame : ∀ p ∉ trees.map path, listOf after timeline p = listOf before timeline p
  lists : ∀ n ∈ trees, ∃ l, Same l (n.paths.flatMap (componentChunks components timeline)) ∧
    listOf after timeline n.path = aggregate l

mutual

theorem visit_visited (ht : timeline ∈ timelines components) : ∀ (tree : EntityTree) (perEntity : PerEntity),
    tree.paths.Nodup → (∀ p ∈ tree.paths, listOf perEntity timeline p = []) →
      Visited components timeline tree.subtrees perEntity (visit components tree perEntity)
  | node path children, perEntity, hnodup, hempty => by
    rw [paths, subtrees, map_cons] at hnodup hempty
    obtain ⟨hpath, hnodup⟩ := nodup_cons.mp hnodup
    have hall := visitAll_visited ht children perEntity hnodup fun p hp => hempty p (mem_cons_of_mem _ hp)
    have hpart : path ∉ (subtreesAll children).map EntityTree.path := hpath
    have hkey : ∀ p, listOf (visit components (node path children) perEntity) timeline p =
        if p = path then aggregate ((children.map EntityTree.path).flatMap
          (listOf (visitAll components children perEntity) timeline) ++ componentChunks components timeline path)
        else listOf (visitAll components children perEntity) timeline p := by
      intro p
      rw [visit, listOf_foldl_gather _ _ _ (show (timelines components).Nodup from nodup_dedup _), hall.frame path hpart, hempty path mem_cons_self]
      simp [ht]
    refine ⟨fun p hp => ?_, fun n hn => ?_⟩
    · rw [subtrees, map_cons, mem_cons, not_or] at hp
      exact (hkey p).trans ((if_neg hp.1).trans (hall.frame p hp.2))
    · rw [subtrees] at hn
      rcases mem_cons.mp hn with rfl | hn
      · refine ⟨_, ?_, (hkey path).trans (if_pos rfl)⟩
        refine ((same_children fun c hc => ?_).append (Same.refl _)).trans (Same.of_perm perm_append_comm)
        obtain ⟨l, hl, heq⟩ := hall.lists c (mem_subtreesAll hc)
        exact heq ▸ (aggregate_same l).trans hl
      · have hne : n.path ≠ path := fun heq => hpart (heq ▸ mem_map_of_mem hn)
        rw [hkey, if_neg hne]
        exact hall.lists n hn

theorem visitAll_visited (ht : timeline ∈ timelines components) : ∀ (trees : List EntityTree) (perEntity : PerEntity),
    ((subtreesAll trees).map path).Nodup → (∀ p ∈ (subtreesAll trees).map path, listOf perEntity timeline p = []) →
      Visited components timeline (subtreesAll trees) perEntity (visitAll components trees perEntity)
  | [], _, _, _ => ⟨fun _ _ => rfl, fun _ hn => absurd hn not_mem_nil⟩
  | tree :: trees, perEntity, hnodup, hempty => by
    rw [subtreesAll, map_append] at hnodup hempty
    obtain ⟨htree, htrees, hdisjoint⟩ := nodup_append'.mp hnodup
    have hone := visit_visited ht tree perEntity htree fun p hp => hempty p (mem_append_left _ hp)
    have hall := visitAll_visited ht trees (visit components tree perEntity) htrees fun p hp =>
      (hone.frame p fun hp' => hdisjoint hp' hp).trans (hempty p (mem_append_right _ hp))
    refine ⟨fun p hp => ?_, fun n hn => ?_⟩
    · rw [subtreesAll, map_append, mem_append, not_or] at hp
      exact (hall.frame p hp.2).trans (hone.frame p hp.1)
    · rw [subtreesAll] at hn
      rcases mem_append.mp hn with hn | hn
      · rw [visitAll, hall.frame _ fun hp => hdisjoint (mem_map_of_mem hn) hp]
        exact hone.lists n hn
      · exact hall.lists n hn

end

end EntityTree

/-- The lists of the components, and those of the entities. -/
def SortedTemporalChunks.update (tree : EntityTree) (manifest : DlrManifest) : SortedTemporalChunks × PerEntity :=
  (new manifest, tree.visit (new manifest) ∅)

/-- An entity lists the chunks of its subtree, each once, with all their rows and times. -/
theorem subtree_chunks (tree : EntityTree) (hpaths : tree.paths.Nodup) (manifest : DlrManifest)
    (timeline : TimelineName) (ht : timeline ∈ EntityTree.timelines (SortedTemporalChunks.new manifest)) :
    let s := SortedTemporalChunks.update tree manifest
    (∀ n ∈ tree.subtrees, Aggregated (n.paths.flatMap (componentChunks s.1 timeline)) (listOf s.2 timeline n.path)) ∧
      ∀ path, ComponentListed manifest timeline path ((s.1.lookup (timeline, path)).getD []) := by
  refine ⟨fun n hn => ?_, SortedTemporalChunks.new_listed manifest timeline⟩
  obtain ⟨l, hl, heq⟩ := (EntityTree.visit_visited ht tree ∅ hpaths fun p _ => by simp [listOf]).lists n hn
  exact heq ▸ hl.aggregated

def pointsTree : EntityTree := .node ⟨[]⟩ [.node ⟨["points"]⟩ []]

def pointsManifest : DlrManifest where
  staticMap := ∅
  temporalMap := Assoc.ofList
    [((⟨["points"]⟩, ⟨⟨"frame"⟩, .sequence⟩, ⟨"position"⟩, 1), ⟨⟨⟨.sat 0⟩, ⟨.sat 5⟩⟩, 2⟩),
     ((⟨["points"]⟩, ⟨⟨"frame"⟩, .sequence⟩, ⟨"color"⟩, 1), ⟨⟨⟨.sat 3⟩, ⟨.sat 9⟩⟩, 2⟩)]

theorem subtree_chunks_points :
    Aggregated (pointsTree.paths.flatMap (componentChunks (SortedTemporalChunks.new pointsManifest) ⟨"frame"⟩))
      (listOf (SortedTemporalChunks.update pointsTree pointsManifest).2 ⟨"frame"⟩ ⟨[]⟩) :=
  (subtree_chunks pointsTree (by decide) pointsManifest ⟨"frame"⟩ (by decide)).1 pointsTree mem_cons_self

end Dalaran
