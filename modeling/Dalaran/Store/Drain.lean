import Dalaran.Store.Reference
import Mathlib.Data.List.Count

/-
  Dropping a reference, to the end of its cascade.

  `Tracked ctx held pend` is what the store asks of its lineage, `held x` being
  the number of references on `x` from outside the lineage: every count is
  right, what is referenced has an entry, an entry with nothing to keep it is
  gone (unless `pend` still waits for it), and the entries of a split come and
  go together.

  `Draining` is the same with operations on the worklist: a pending `dropRef` counts
  as a reference, a pending `remove` stands for an entry that is as good as gone. A
  step keeps it (`Draining.dropStep`) and lowers the potential
  (`dropStep_potential`), so `Tracked` holds again at the end (`Tracked.drop`).
-/

namespace Dalaran

open List Bool Assoc

namespace LineageDroppingCtx

variable {ctx : LineageDroppingCtx} {held : ChunkId → Nat} {pend : ChunkId → Prop}
  {id x y : ChunkId} {l l' : TrackedDirectChunkLineage} {ops : List LineageOp}

theorem isReferenced_iff : ctx.isReferenced x = true ↔ ∃ l, ctx.entry x = some l ∧ 0 < l.refCount := by
  unfold isReferenced
  rw [Option.any_eq_true]
  simp [entry]

theorem setEntry_references (hl : ctx.entry id = some l) (h : l'.lineage = l.lineage) (x : ChunkId) :
    (ctx.setEntry id l').references x = ctx.references x := by
  have hsum := sum_insert_of_some l' (fun _ l => l.lineage.referencedChunks.count x) hl
  rw [h] at hsum
  show Assoc.sum (AList.insert id l' ctx.chunksLineage) _ = Assoc.sum ctx.chunksLineage _
  omega

theorem eraseEntry_references (hl : ctx.entry id = some l) (x : ChunkId) :
    ctx.references x = l.lineage.referencedChunks.count x + (ctx.eraseEntry id).references x :=
  sum_erase _ hl

/-! ## The invariant -/

/-- Two entries of one split. -/
structure Twins (x : ChunkId) (l : TrackedDirectChunkLineage) (y : ChunkId)
    (l' : TrackedDirectChunkLineage) : Prop where
  manifest : l'.descendsFromManifest = l.descendsFromManifest
  group : ∀ t, t = x ∨ t ∈ l.lineage.siblings ↔ t = y ∨ t ∈ l'.lineage.siblings

/-- What holds between two steps of `drop_lineage_reference`. -/
structure Draining (held : ChunkId → Nat) (pend : ChunkId → Prop) (ctx : LineageDroppingCtx)
    (ops : List LineageOp) : Prop where
  count : ∀ x l, ctx.entry x = some l → l.refCount = held x + ctx.references x + ops.count (.dropRef x)
  closed : ∀ x, 0 < held x + ctx.references x + ops.count (.dropRef x) → (ctx.entry x).isSome
  zero : ∀ x l, ctx.entry x = some l → l.refCount = 0 → pend x ∨ l.descendsFromManifest = true ∨
    (∃ s ∈ l.lineage.siblings, ctx.isReferenced s = true) ∨ .remove x ∈ ops
  twins : ∀ x l y l', ctx.entry x = some l → ctx.entry y = some l' → y ∈ l.lineage.siblings → Twins x l y l'
  own : ∀ x l, ctx.entry x = some l → x ∉ l.lineage.siblings
  siblings : ∀ x l, ctx.entry x = some l → ∀ s ∈ l.lineage.siblings, (ctx.entry s).isSome ∨ .remove x ∈ ops
  doomed : ∀ x l, .remove x ∈ ops → ctx.entry x = some l → l.refCount = 0 ∧ l.descendsFromManifest = false
  whole : ∀ x l, .remove x ∈ ops → ctx.entry x = some l → ∀ s ∈ l.lineage.siblings,
    (ctx.entry s).isSome → .remove s ∈ ops

/-- What holds of the lineage between two operations of the store. -/
structure Tracked (held : ChunkId → Nat) (pend : ChunkId → Prop) (ctx : LineageDroppingCtx) : Prop where
  count : ∀ x l, ctx.entry x = some l → l.refCount = held x + ctx.references x
  closed : ∀ x, 0 < held x + ctx.references x → (ctx.entry x).isSome
  zero : ∀ x l, ctx.entry x = some l → l.refCount = 0 →
    pend x ∨ l.descendsFromManifest = true ∨ ∃ s ∈ l.lineage.siblings, ctx.isReferenced s = true
  twins : ∀ x l y l', ctx.entry x = some l → ctx.entry y = some l' → y ∈ l.lineage.siblings → Twins x l y l'
  own : ∀ x l, ctx.entry x = some l → x ∉ l.lineage.siblings
  siblings : ∀ x l, ctx.entry x = some l → ∀ s ∈ l.lineage.siblings, (ctx.entry s).isSome

theorem Draining.tracked (h : Draining held pend ctx []) : Tracked held pend ctx where
  count x l hl := by simpa using h.count x l hl
  closed x hx := h.closed x (by simpa using hx)
  zero x l hl h0 := by simpa using h.zero x l hl h0
  twins := h.twins
  own := h.own
  siblings x l hl s hs := by simpa using h.siblings x l hl s hs

theorem Tracked.draining (h : Tracked (fun x => held x + if x = id then 1 else 0) pend ctx) :
    Draining held pend ctx [.dropRef id] := by
  have hcount : ∀ x, [LineageOp.dropRef id].count (.dropRef x) = if x = id then 1 else 0 := by
    intro x
    by_cases hx : x = id
    · simp [hx]
    · simp [hx, Ne.symm hx]
  refine ⟨fun x l hl => ?_, fun x hx => h.closed x ?_, fun x l hl h0 => ?_, h.twins, h.own,
    fun x l hl s hs => .inl (h.siblings x l hl s hs), by simp, by simp⟩
  · rw [hcount, h.count x l hl]
    omega
  · rw [hcount] at hx
    omega
  · rcases h.zero x l hl h0 with h | h | h
    · exact .inl h
    · exact .inr (.inl h)
    · exact .inr (.inr (.inl h))

/-! ## One step -/

theorem Draining.dropStep_of_none {op : LineageOp} (h : Draining held pend ctx (op :: ops))
    (hop : op = .dropRef id ∨ op = .remove id) (hid : ctx.entry id = none) :
    Draining held pend ctx ops := by
  have hne : ∀ {x l}, ctx.entry x = some l → x ≠ id := by
    rintro x l hl rfl
    rw [hid] at hl
    simp at hl
  have hremove : ∀ {x l}, ctx.entry x = some l → LineageOp.remove x ∈ op :: ops → .remove x ∈ ops := by
    intro x l hl hmem
    rcases mem_cons.mp hmem with heq | hmem
    · rcases hop with rfl | rfl
      · simp at heq
      · exact absurd (LineageOp.remove.inj heq) (hne hl)
    · exact hmem
  have hcount : ∀ {x l}, ctx.entry x = some l → (op :: ops).count (.dropRef x) = ops.count (.dropRef x) := by
    intro x l hl
    refine count_cons_of_ne fun heq => ?_
    rcases hop with rfl | rfl
    · exact hne hl (LineageOp.dropRef.inj heq).symm
    · simp at heq
  refine ⟨fun x l hl => (hcount hl) ▸ h.count x l hl, fun x hx => h.closed x ?_, fun x l hl h0 => ?_,
    h.twins, h.own, fun x l hl s hs => (h.siblings x l hl s hs).imp_right (hremove hl),
    fun x l hmem => h.doomed x l (mem_cons_of_mem _ hmem), fun x l hmem hl s hs hsome => ?_⟩
  · have := count_le_count_cons (l := ops) (a := LineageOp.dropRef x) (b := op)
    omega
  · rcases h.zero x l hl h0 with h | h | h | h
    · exact .inl h
    · exact .inr (.inl h)
    · exact .inr (.inr (.inl h))
    · exact .inr (.inr (.inr (hremove hl h)))
  · obtain ⟨l', hl'⟩ := Option.isSome_iff_exists.mp hsome
    exact hremove hl' (h.whole x l (mem_cons_of_mem _ hmem) hl s hs hsome)

theorem Draining.dropStep_dropRef (h : Draining held pend ctx (.dropRef id :: ops))
    (hid : ctx.entry id = some l) :
    Draining held pend (ctx.dropStep (.dropRef id)).1 ((ctx.dropStep (.dropRef id)).2 ++ ops) := by
  rw [LineageDroppingCtx.dropStep_dropRef hid]
  dsimp only
  -- the lowered entry, and the operations it gives rise to
  have hpos : 0 < l.refCount := by
    rw [h.count id l hid, count_cons_self]
    omega
  have hentry : ∀ {x lx}, (ctx.setEntry id (lose l)).entry x = some lx →
      ∃ l₀, ctx.entry x = some l₀ ∧ lx.lineage = l₀.lineage ∧ lx.descendsFromManifest = l₀.descendsFromManifest ∧
        lx.refCount + (if x = id then 1 else 0) = l₀.refCount := by
    intro x lx hlx
    rw [setEntry_entry] at hlx
    split at hlx
    · rename_i hx
      cases hlx
      refine ⟨l, hx ▸ hid, rfl, rfl, ?_⟩
      rw [if_pos hx]
      exact Nat.sub_add_cancel hpos
    · rename_i hx
      exact ⟨lx, hlx, rfl, rfl, by simp [hx]⟩
  have hsome : ∀ x, ((ctx.setEntry id (lose l)).entry x).isSome = (ctx.entry x).isSome := by
    intro x
    rw [setEntry_entry]
    split
    · rename_i hx
      rw [hx, hid]
      rfl
    · rfl
  have hrefs : ∀ x, (ctx.setEntry id (lose l)).references x = ctx.references x :=
    setEntry_references hid rfl
  generalize hpush : (if (ctx.setEntry id (lose l)).stays (lose l) then []
    else .remove id :: (l.lineage.siblings.map LineageOp.remove).reverse) = pushed
  have hnodrop : ∀ x, pushed.count (.dropRef x) = 0 := by
    intro x
    rw [count_eq_zero, ← hpush]
    split
    · simp
    · simp
  have hpushed : ∀ {x}, .remove x ∈ pushed ↔ (ctx.setEntry id (lose l)).stays (lose l) = false ∧
      (x = id ∨ x ∈ l.lineage.siblings) := by
    intro x
    rw [← hpush]
    split
    · rename_i hstays
      simp [hstays]
    · rename_i hstays
      simp [hstays]
  -- nothing keeps an entry of the split that is removed
  have hdead : ∀ {x lx}, .remove x ∈ pushed → (ctx.setEntry id (lose l)).entry x = some lx →
      lx.refCount = 0 ∧ lx.descendsFromManifest = false := by
    intro x lx hmem hlx
    obtain ⟨hstays, hx⟩ := hpushed.mp hmem
    unfold stays at hstays
    simp only [or_eq_false_iff, decide_eq_false_iff_not, not_lt, Nat.le_zero, any_eq_false, not_eq_true] at hstays
    obtain ⟨⟨hdm, hzero⟩, hsib⟩ := hstays
    rcases hx with rfl | hx
    · rw [setEntry_entry, if_pos rfl] at hlx
      cases hlx
      exact ⟨hzero, hdm⟩
    · obtain ⟨l₀, hl₀, -, hdm', -⟩ := hentry hlx
      refine ⟨?_, by rw [hdm', (h.twins id l x l₀ hid hl₀ hx).manifest]; exact hdm⟩
      by_contra hne
      have := hsib x hx
      rw [isReferenced_iff.mpr ⟨lx, hlx, Nat.pos_of_ne_zero hne⟩] at this
      simp at this
  refine ⟨fun x lx hlx => ?_, fun x hx => ?_, fun x lx hlx h0 => ?_, fun x lx y ly hlx hly hy => ?_,
    fun x lx hlx => ?_, fun x lx hlx s hs => ?_, fun x lx hmem hlx => ?_, fun x lx hmem hlx s hs hs' => ?_⟩
  · obtain ⟨l₀, hl₀, -, -, hcount⟩ := hentry hlx
    have hold := h.count x l₀ hl₀
    rw [count_cons] at hold
    rw [hrefs, count_append, hnodrop]
    by_cases hx : x = id
    · subst hx
      simp only [beq_self_eq_true, if_true] at hold hcount
      omega
    · have : ¬ (LineageOp.dropRef id == LineageOp.dropRef x) := by
        simpa using Ne.symm hx
      simp only [this, hx, if_false] at hold hcount
      simp only [false_eq_true, if_false] at hold
      omega
  · rw [hsome]
    refine h.closed x ?_
    rw [hrefs, count_append, hnodrop] at hx
    have := count_le_count_cons (l := ops) (a := LineageOp.dropRef x) (b := .dropRef id)
    omega
  · obtain ⟨l₀, hl₀, hlin, hdm, hcount⟩ := hentry hlx
    by_cases hmem : .remove x ∈ pushed
    · exact .inr (.inr (.inr (mem_append_left _ hmem)))
    · by_cases hx : x = id
      · -- the lowered entry stays
        subst hx
        have hstays : (ctx.setEntry x (lose l)).stays (lose l) = true := by
          by_contra hf
          exact hmem (hpushed.mpr ⟨by simpa using hf, .inl rfl⟩)
        rw [setEntry_entry, if_pos rfl] at hlx
        cases hlx
        unfold stays at hstays
        simp only [or_eq_true, decide_eq_true_eq, any_eq_true] at hstays
        rcases hstays with (hdm' | hpos') | ⟨s, hs, href⟩
        · exact .inr (.inl hdm')
        · omega
        · exact .inr (.inr (.inl ⟨s, hs, href⟩))
      · have h0' : l₀.refCount = 0 := by simpa [hx, h0] using hcount.symm
        rcases h.zero x l₀ hl₀ h0' with hp | hdm' | ⟨s, hs, href⟩ | hrem
        · exact .inl hp
        · exact .inr (.inl (hdm.trans hdm'))
        · obtain ⟨ls, hls, hspos⟩ := isReferenced_iff.mp href
          by_cases hs' : s = id ∧ (lose l).refCount = 0
          · -- the sibling that kept `x` is the one that was lowered
            obtain ⟨rfl, hlost⟩ := hs'
            have htwins := h.twins x l₀ s l hl₀ hid hs
            have hxs : x ∈ l.lineage.siblings :=
              ((htwins.group x).mp (.inl rfl)).resolve_left hx
            have hstays : (ctx.setEntry s (lose l)).stays (lose l) = true := by
              by_contra hf
              exact hmem (hpushed.mpr ⟨by simpa using hf, .inr hxs⟩)
            unfold stays at hstays
            simp only [or_eq_true, decide_eq_true_eq, any_eq_true] at hstays
            rcases hstays with (hdm' | hpos') | ⟨t, ht, href'⟩
            · exact .inr (.inl (by rw [hdm, ← htwins.manifest]; exact hdm'))
            · omega
            · -- another sibling keeps both
              obtain ⟨lt, hlt, htpos⟩ := isReferenced_iff.mp href'
              have hne : t ≠ x := by
                rintro rfl
                rw [hlx] at hlt
                cases hlt
                omega
              refine .inr (.inr (.inl ⟨t, ?_, href'⟩))
              rw [hlin]
              exact ((htwins.group t).mpr (.inr ht)).resolve_left hne
          · refine .inr (.inr (.inl ⟨s, hlin ▸ hs, isReferenced_iff.mpr ?_⟩))
            rw [setEntry_entry]
            split
            · rename_i hsid
              exact ⟨lose l, rfl, Nat.pos_of_ne_zero fun h => hs' ⟨hsid, h⟩⟩
            · exact ⟨ls, hls, hspos⟩
        · rcases mem_cons.mp hrem with heq | hrem
          · simp at heq
          · exact .inr (.inr (.inr (mem_append_right _ hrem)))
  · obtain ⟨l₀, hl₀, hlin, hdm, -⟩ := hentry hlx
    obtain ⟨l₁, hl₁, hlin₁, hdm₁, -⟩ := hentry hly
    rw [hlin] at hy
    have htwins := h.twins x l₀ y l₁ hl₀ hl₁ hy
    exact ⟨by rw [hdm, hdm₁]; exact htwins.manifest, by rw [hlin, hlin₁]; exact htwins.group⟩
  · obtain ⟨l₀, hl₀, hlin, -⟩ := hentry hlx
    rw [hlin]
    exact h.own x l₀ hl₀
  · obtain ⟨l₀, hl₀, hlin, -⟩ := hentry hlx
    rw [hsome]
    refine (h.siblings x l₀ hl₀ s (hlin ▸ hs)).imp_right fun hmem => ?_
    rcases mem_cons.mp hmem with heq | hmem
    · simp at heq
    · exact mem_append_right _ hmem
  · rcases mem_append.mp hmem with hmem | hmem
    · exact hdead hmem hlx
    · -- a doomed entry has no reference left to lose
      obtain ⟨l₀, hl₀, -, hdm, hcount⟩ := hentry hlx
      obtain ⟨h1, h2⟩ := h.doomed x l₀ (mem_cons_of_mem _ hmem) hl₀
      exact ⟨by omega, hdm.trans h2⟩
  · rw [hsome] at hs'
    obtain ⟨l₀, hl₀, hlin, -⟩ := hentry hlx
    rw [hlin] at hs
    rcases mem_append.mp hmem with hmem | hmem
    · obtain ⟨hstays, hx⟩ := hpushed.mp hmem
      refine mem_append_left _ (hpushed.mpr ⟨hstays, ?_⟩)
      rcases hx with rfl | hx
      · rw [hid] at hl₀
        cases hl₀
        exact .inr hs
      · exact ((h.twins id l x l₀ hid hl₀ hx).group s).mpr (.inr hs)
    · rcases mem_cons.mp (h.whole x l₀ (mem_cons_of_mem _ hmem) hl₀ s hs hs') with heq | hmem'
      · simp at heq
      · exact mem_append_right _ hmem'

theorem Draining.dropStep_remove (h : Draining held pend ctx (.remove id :: ops))
    (hid : ctx.entry id = some l) :
    Draining held pend (ctx.dropStep (.remove id)).1 ((ctx.dropStep (.remove id)).2 ++ ops) := by
  rw [LineageDroppingCtx.dropStep_remove hid]
  dsimp only
  obtain ⟨hzero, -⟩ := h.doomed id l mem_cons_self hid
  have hentry : ∀ {x lx}, (ctx.eraseEntry id).entry x = some lx → x ≠ id ∧ ctx.entry x = some lx := by
    intro x lx hlx
    rw [eraseEntry_entry] at hlx
    split at hlx
    · simp at hlx
    · exact ⟨‹_›, hlx⟩
  have hremove : ∀ {x}, LineageOp.remove x ∈
      (l.lineage.referencedChunks.map LineageOp.dropRef).reverse ++ ops ↔ .remove x ∈ ops := by
    intro x
    simp
  have hpending : ∀ x, ((l.lineage.referencedChunks.map LineageOp.dropRef).reverse ++ ops).count
      (.dropRef x) = l.lineage.referencedChunks.count x + ops.count (.dropRef x) := by
    intro x
    rw [count_append, count_reverse]
    congr 1
    exact count_map_of_injective _ _ (fun _ _ => LineageOp.dropRef.inj) _
  have hcons : ∀ x, (LineageOp.remove id :: ops).count (.dropRef x) = ops.count (.dropRef x) :=
    fun x => count_cons_of_ne (by simp)
  have hother : ∀ {x}, x ≠ id → LineageOp.remove x ∈ LineageOp.remove id :: ops → .remove x ∈ ops := by
    intro x hx hmem
    rcases mem_cons.mp hmem with heq | hmem
    · exact absurd (LineageOp.remove.inj heq) hx
    · exact hmem
  refine ⟨fun x lx hlx => ?_, fun x hx => ?_, fun x lx hlx h0 => ?_, fun x lx y ly hlx hly hy => ?_,
    fun x lx hlx => h.own x lx (hentry hlx).2, fun x lx hlx s hs => ?_, fun x lx hmem hlx => ?_,
    fun x lx hmem hlx s hs hs' => ?_⟩
  · obtain ⟨-, hl₀⟩ := hentry hlx
    have hold := h.count x lx hl₀
    rw [hcons, eraseEntry_references hid] at hold
    rw [hpending]
    omega
  · rw [hpending] at hx
    have hold := eraseEntry_references hid x
    have hsome := h.closed x (by rw [hcons]; omega)
    rw [eraseEntry_entry, if_neg]
    · exact hsome
    · -- the erased entry had no references
      rintro rfl
      have := h.count x l hid
      rw [hcons] at this
      omega
  · obtain ⟨hx, hl₀⟩ := hentry hlx
    rw [hremove]
    rcases h.zero x lx hl₀ h0 with hp | hdm | ⟨s, hs, href⟩ | hmem
    · exact .inl hp
    · exact .inr (.inl hdm)
    · refine .inr (.inr (.inl ⟨s, hs, isReferenced_iff.mpr ?_⟩))
      obtain ⟨ls, hls, hspos⟩ := isReferenced_iff.mp href
      refine ⟨ls, ?_, hspos⟩
      rw [eraseEntry_entry, if_neg]
      · exact hls
      · rintro rfl
        rw [hid] at hls
        cases hls
        omega
    · exact .inr (.inr (.inr (hother hx hmem)))
  · exact h.twins x lx y ly (hentry hlx).2 (hentry hly).2 hy
  · obtain ⟨hx, hl₀⟩ := hentry hlx
    rw [hremove]
    by_cases hsid : s = id
    · -- the rest of the split is removed too
      subst hsid
      have hxs : x ∈ l.lineage.siblings :=
        (((h.twins x lx s l hl₀ hid hs).group x).mp (.inl rfl)).resolve_left hx
      have hmem := h.whole s l mem_cons_self hid x hxs (by rw [hl₀]; rfl)
      exact .inr (hother hx hmem)
    · rw [eraseEntry_entry, if_neg hsid]
      exact (h.siblings x lx hl₀ s hs).imp_right (hother hx)
  · exact h.doomed x lx (mem_cons_of_mem _ (hremove.mp hmem)) (hentry hlx).2
  · rw [eraseEntry_entry] at hs'
    split at hs'
    · simp at hs'
    · rename_i hsid
      exact hremove.mpr (hother hsid
        (h.whole x lx (mem_cons_of_mem _ (hremove.mp hmem)) (hentry hlx).2 s hs hs'))

theorem Draining.dropStep {op : LineageOp} (h : Draining held pend ctx (op :: ops)) :
    Draining held pend (ctx.dropStep op).1 ((ctx.dropStep op).2 ++ ops) := by
  cases op with
  | dropRef id =>
    cases hid : ctx.entry id with
    | none =>
      rw [LineageDroppingCtx.dropStep_of_none (.inl rfl) hid]
      exact h.dropStep_of_none (.inl rfl) hid
    | some l => exact h.dropStep_dropRef hid
  | remove id =>
    cases hid : ctx.entry id with
    | none =>
      rw [LineageDroppingCtx.dropStep_of_none (.inr rfl) hid]
      exact h.dropStep_of_none (.inr rfl) hid
    | some l => exact h.dropStep_remove hid

/-! ## Enough steps -/

/-- What an operation on the worklist can still cost. -/
def LineageOp.cost (w : Nat) : LineageOp → Nat
  | .dropRef _ => w
  | .remove _ => 1

/-- What the worklist and the references of the entries can still cost. -/
def potential (w : Nat) (ctx : LineageDroppingCtx) (ops : List LineageOp) : Nat :=
  w * Assoc.sum ctx.chunksLineage (fun _ l => l.lineage.referencedChunks.length) +
    (ops.map (LineageOp.cost w)).sum

theorem dropStep_siblings (ctx : LineageDroppingCtx) (op : LineageOp) :
    (ctx.dropStep op).1.opWeight ≤ ctx.opWeight := by
  refine Nat.add_le_add_left ?_ 2
  cases op with
  | dropRef id =>
    cases hid : ctx.entry id with
    | none => rw [dropStep_of_none (.inl rfl) hid]
    | some l =>
      rw [dropStep_dropRef hid]
      have := sum_insert_of_some (lose l) (fun _ l => l.lineage.siblings.length) hid
      show Assoc.sum (AList.insert id (lose l) ctx.chunksLineage) _ ≤ _
      have hsame : (lose l).lineage = l.lineage := rfl
      rw [hsame] at this
      omega
  | remove id =>
    cases hid : ctx.entry id with
    | none => rw [dropStep_of_none (.inr rfl) hid]
    | some l =>
      rw [dropStep_remove hid]
      have := sum_erase (fun _ l => l.lineage.siblings.length) hid
      show Assoc.sum (AList.erase id ctx.chunksLineage) _ ≤ _
      omega

theorem dropStep_potential {w : Nat} (hw : ctx.opWeight ≤ w) (op : LineageOp) (ops : List LineageOp) :
    potential w (ctx.dropStep op).1 ((ctx.dropStep op).2 ++ ops) < potential w ctx (op :: ops) := by
  have hpos : 0 < w := by
    unfold opWeight at hw
    omega
  unfold potential
  rw [map_append, sum_append, map_cons, sum_cons]
  cases op with
  | dropRef id =>
    show _ < _ + (w + _)
    cases hid : ctx.entry id with
    | none =>
      rw [dropStep_of_none (.inl rfl) hid]
      simp only [map_nil, sum_nil]
      omega
    | some l =>
      rw [dropStep_dropRef hid]
      -- the pushed removals are paid for by the operation itself
      have hrefs := sum_insert_of_some (lose l) (fun _ l => l.lineage.referencedChunks.length) hid
      have hsib := le_sum (fun _ l => l.lineage.siblings.length) hid
      have hpushed : ((if (ctx.setEntry id (lose l)).stays (lose l) then []
          else .remove id :: (l.lineage.siblings.map LineageOp.remove).reverse).map
            (LineageOp.cost w)).sum ≤ 1 + l.lineage.siblings.length := by
        split
        · simp
        · have hone : (l.lineage.siblings.map LineageOp.remove).map (LineageOp.cost w) =
              List.replicate l.lineage.siblings.length 1 := by
            rw [map_map, eq_replicate_iff]
            refine ⟨by simp, fun n hn => ?_⟩
            obtain ⟨s, -, rfl⟩ := mem_map.mp hn
            rfl
          rw [map_cons, sum_cons, map_reverse, sum_reverse, hone]
          simp [LineageOp.cost]
      unfold opWeight at hw
      show w * Assoc.sum (AList.insert id (lose l) ctx.chunksLineage) _ + (_ + _) < _
      have hsame : Assoc.sum (AList.insert id (lose l) ctx.chunksLineage)
          (fun _ l => l.lineage.referencedChunks.length) =
          Assoc.sum ctx.chunksLineage fun _ l => l.lineage.referencedChunks.length := by
        have : (lose l).lineage = l.lineage := rfl
        rw [this] at hrefs
        omega
      rw [hsame]
      dsimp only
      omega
  | remove id =>
    show _ < _ + (1 + _)
    cases hid : ctx.entry id with
    | none =>
      rw [dropStep_of_none (.inr rfl) hid]
      simp only [map_nil, sum_nil]
      omega
    | some l =>
      rw [dropStep_remove hid]
      -- the pushed references are those of the erased entry
      have hrefs := sum_erase (fun _ l => l.lineage.referencedChunks.length) hid
      have hpushed : ((l.lineage.referencedChunks.map LineageOp.dropRef).reverse.map
          (LineageOp.cost w)).sum = w * l.lineage.referencedChunks.length := by
        rw [map_reverse, sum_reverse, map_map]
        have : (LineageOp.cost w ∘ LineageOp.dropRef) = fun _ => w := rfl
        rw [this, map_const', sum_replicate_nat, Nat.mul_comm]
      show w * Assoc.sum (AList.erase id ctx.chunksLineage) _ + (_ + _) < _
      rw [hrefs, hpushed, Nat.mul_add]
      omega

theorem Tracked.drop (h : Tracked (fun x => held x + if x = id then 1 else 0) pend ctx) :
    Tracked held pend (ctx.dropLineageReference id) := by
  refine (Worklist.run_invariant
    (fun (ctx' : LineageDroppingCtx) (ops : List LineageOp) => Draining held pend ctx' ops ∧ ctx'.opWeight ≤ ctx.opWeight)
    (potential ctx.opWeight) ?_ ctx.dropFuel ctx [.dropRef id] ⟨h.draining, le_rfl⟩ ?_).1.1.tracked
  · rintro ctx' op ops ⟨hdrain, hw⟩
    exact ⟨⟨hdrain.dropStep, (dropStep_siblings ctx' op).trans hw⟩, dropStep_potential hw op ops⟩
  · unfold potential dropFuel
    simp [LineageOp.cost, Nat.mul_add]

/-! ## Drops without a cascade -/

theorem dropLineageReference_of_two_le (hid : ctx.entry id = some l) (h : 2 ≤ l.refCount) :
    ctx.dropLineageReference id = ctx.setEntry id (lose l) := by
  have hfuel : ∃ n, ctx.dropFuel = n + 1 := by
    refine ⟨ctx.dropFuel - 1, (Nat.sub_add_cancel ?_).symm⟩
    unfold dropFuel opWeight
    exact Nat.mul_pos (by omega) (Nat.succ_pos _)
  obtain ⟨n, hn⟩ := hfuel
  have hstays : (ctx.setEntry id (lose l)).stays (lose l) = true := by
    have : 0 < (lose l).refCount := by
      show 0 < l.refCount - 1
      omega
    simp [stays, this]
  unfold dropLineageReference
  rw [hn, Worklist.run, dropStep_dropRef hid, if_pos hstays]
  cases n <;> rfl

theorem dropLineageReference_of_root (hid : ctx.entry id = some l) (hrefs : l.lineage.referencedChunks = [])
    (hsib : l.lineage.siblings = []) (hx : x ≠ id) : (ctx.dropLineageReference id).entry x = ctx.entry x := by
  have hfuel : ∃ n, ctx.dropFuel = n + 2 := by
    refine ⟨ctx.dropFuel - 2, (Nat.sub_add_cancel ?_).symm⟩
    unfold dropFuel opWeight
    exact Nat.le_trans (by omega) (Nat.le_mul_of_pos_right _ (Nat.succ_pos _))
  obtain ⟨n, hn⟩ := hfuel
  unfold dropLineageReference
  rw [hn, Worklist.run, dropStep_dropRef hid]
  split
  · simp [Worklist.run, hx]
  · have hid' : (ctx.setEntry id (lose l)).entry id = some (lose l) := by simp
    have hnone : (lose l).lineage.referencedChunks = [] := hrefs
    simp only [hsib, map_nil, reverse_nil, cons_append, nil_append]
    rw [Worklist.run, dropStep_remove hid', hnone]
    cases n <;> simp [Worklist.run, hx]

end LineageDroppingCtx

end Dalaran
