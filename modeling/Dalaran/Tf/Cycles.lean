import Dalaran.Tf.Roots

/-
  The roots of the transform forest, where frames may be above themselves.

  A walk that comes back to a frame it has met makes it a root, with the identity;
  then the stack is added, and the entry of that frame with it. What the forest has
  for it in the end is one turn around the cycle, or the nearest pinhole's child on
  the cycle. So the forest is well formed where every cycle is entered at a
  pinhole's child, or closes with the identity and has none
  (`builds_wellFormed_iff`).
-/

namespace Dalaran.TransformGraph

open TransformForest Ascent List AList

variable {Frame G P : Type} [DecidableEq Frame] [Monoid G] {g : TransformGraph Frame G P}

/-- From a frame up to `p` with no pinhole's child before it, and the product of the transforms on the way. -/
inductive GoesTo (g : TransformGraph Frame G P) (p : Frame) : Frame → G → Prop
  | here : GoesTo g p p 1
  | up {f parent : Frame} {t : G} (hne : f ≠ p) (hpinhole : ¬ g.PinholeChild f) (hparent : g.parentOf f = some parent)
      (h : GoesTo g p parent t) : GoesTo g p f (t * g.parentFromChild f)

/-- A frame on a cycle that is a pinhole's child, or from which one turn around the cycle meets none
and is the identity. -/
def ClosesUp (g : TransformGraph Frame G P) (p : Frame) : Prop :=
  g.PinholeChild p ∨ ∃ parent t, g.parentOf p = some parent ∧ GoesTo g p parent t ∧ t * g.parentFromChild p = 1

/-- Every frame has an entry, the root of every entry is a root, and every root targets itself with the identity. -/
def WellFormed (g : TransformGraph Frame G P) (forest : TransformForest Frame G P) : Prop :=
  (∀ f ∈ g.frames, ∃ e, forest.rootFromFrame.lookup f = some e) ∧
    (∀ f e, forest.rootFromFrame.lookup f = some e → e.root ∈ forest.roots) ∧
    ∀ r ∈ forest.roots, forest.rootFromFrame.lookup r = some ⟨r, 1⟩

/-! ## One turn around a cycle -/

theorem resolve_eq_iff {rest left : Finset Frame} {f p : Frame} {met : List Frame} (hrest : rest ⊆ g.frames)
    (hwalk : Walked g.parentOf rest (some f) left met (some p)) (hp : p ∉ met) (t : G) :
    g.resolve (p, 1) met = (p, t) ↔ GoesTo g p f t := by
  generalize hnext : some f = next at hwalk
  generalize hstop : some p = stop at hwalk
  induction hwalk generalizing f t with
  | stop _ =>
    cases hstop
    cases hnext
    constructor
    · intro h
      cases h
      exact .here
    · intro h
      cases h with
      | here => rfl
      | up hne _ _ _ => exact absurd rfl hne
  | @go _ _ a tail _ ha hwalk ih =>
    cases hnext
    cases hstop
    rw [mem_cons, not_or] at hp
    have hne : a ≠ p := fun h => hp.1 h.symm
    obtain ⟨q, hq⟩ : ∃ q, g.parentOf a = some q := by
      cases hparent : g.parentOf a with
      | some q => exact ⟨q, rfl⟩
      | none =>
        rw [hparent] at hwalk
        cases hwalk
    have hup : ∀ t, g.resolve (p, 1) tail = (p, t) ↔ GoesTo g p q t := fun t =>
      ih ((Finset.erase_subset ..).trans hrest) hp.2 t hq.symm rfl
    rw [resolve]
    split
    · next hpinhole =>
      refine ⟨fun h => absurd (congrArg Prod.fst h) hne, fun h => ?_⟩
      cases h with
      | here => exact absurd rfl hne
      | up _ hnot _ _ => exact absurd ⟨hrest ha, hpinhole⟩ hnot
    · next hpinhole =>
      constructor
      · intro h
        cases h1 : g.resolve (p, 1) tail with
        | mk root t' =>
          rw [h1] at h
          obtain ⟨hroot, ht⟩ := Prod.mk.inj h
          cases hroot
          rw [← ht]
          exact .up hne (fun h => hpinhole h.2) hq ((hup t').mp h1)
      · intro h
        cases h with
        | here => exact absurd rfl hne
        | up _ _ hparent h =>
          cases hq.symm.trans hparent
          rw [(hup _).mpr h]

theorem resolve_self_iff {rest left : Finset Frame} {f p : Frame} {before above : List Frame} (hrest : rest ⊆ g.frames)
    (hwalk : Walked g.parentOf rest (some f) left (before ++ p :: above) (some p)) :
    g.resolve (p, 1) (p :: above) = (p, 1) ↔ g.ClosesUp p := by
  obtain ⟨rest', hsub, hsuffix⟩ := hwalk.suffix rfl
  have hp : p ∉ above := (nodup_cons.mp hsuffix.nodup).1
  cases hsuffix with
  | go hmem hwalk =>
    obtain ⟨q, hq⟩ : ∃ q, g.parentOf p = some q := by
      cases hparent : g.parentOf p with
      | some q => exact ⟨q, rfl⟩
      | none =>
        rw [hparent] at hwalk
        cases hwalk
    rw [hq] at hwalk
    have hturn := resolve_eq_iff ((Finset.erase_subset ..).trans (hsub.trans hrest)) hwalk hp
    rw [resolve, ClosesUp]
    split
    · next hpinhole => exact ⟨fun _ => .inl ⟨hrest (hsub hmem), hpinhole⟩, fun _ => rfl⟩
    · next hpinhole =>
      constructor
      · intro h
        obtain ⟨hroot, ht⟩ := Prod.mk.inj h
        exact .inr ⟨q, _, hq, (hturn _).mp (Prod.ext hroot rfl), ht⟩
      · rintro (h | ⟨q', t, hq', hgoes, ht⟩)
        · exact absurd h.2 hpinhole
        · cases hq.symm.trans hq'
          rw [(hturn t).mpr hgoes, ht]

omit [DecidableEq Frame] in
theorem resolve_root (start : Frame × G) (met : List Frame) :
    (g.resolve start met).1 = start.1 ∨
      (g.resolve start met).1 ∈ met ∧ (g.latestAtPinhole (g.resolve start met).1).isSome = true := by
  induction met with
  | nil => exact .inl rfl
  | cons f met ih =>
    rw [resolve]
    split
    · next hpinhole => exact .inr ⟨mem_cons_self, hpinhole⟩
    · exact ih.imp_right fun h => ⟨mem_cons_of_mem _ h.1, h.2⟩

theorem StartsAt.mem_roots {forest forest₁ : TransformForest Frame G P} {met : List Frame} {stop : Option Frame}
    {start : Frame × G} (h : StartsAt forest met stop forest₁ start) {k : Frame} (hk : k ∈ forest.roots) :
    k ∈ forest₁.roots := by
  cases h with
  | known _ => exact hk
  | unknown _ => exact mem_insert _ |>.mpr (.inr hk)
  | top _ => exact mem_insert _ |>.mpr (.inr hk)

/-! ## The roots of the forest -/

/-- What holds after the frames `drained`. -/
structure Rooted (g : TransformGraph Frame G P) (drained : List Frame) (st : Progress Frame G P) : Prop where
  filled : Filled g st
  reached : ∀ k ∈ g.frames, k ∉ st.unprocessed ↔ ∃ f ∈ drained, Reaches g.parentOf f k
  rooted : ∀ k e, st.forest.rootFromFrame.lookup k = some e → e.root ∈ st.forest.roots
  self : ∀ r ∈ st.forest.roots, ¬ EntersFirst g.parentOf drained r → st.forest.rootFromFrame.lookup r = some ⟨r, 1⟩
  entered : ∀ p, EntersFirst g.parentOf drained p →
    p ∈ st.forest.roots ∧ (st.forest.rootFromFrame.lookup p = some ⟨p, 1⟩ ↔ g.ClosesUp p)

theorem mem_of_onCycle {p : Frame} (h : OnCycle g.parentOf p) : p ∈ g.frames := by
  obtain ⟨q, hq, -⟩ := onCycle_iff.mp h
  exact mem_of_parentOf hq

theorem mem_of_reaches_cycle {k p : Frame} (h : Reaches g.parentOf k p) (hp : OnCycle g.parentOf p) : k ∈ g.frames := by
  rcases Relation.ReflTransGen.cases_head h with rfl | ⟨q, hq, -⟩
  · exact mem_of_onCycle hp
  · exact mem_of_parentOf hq

section Turn

variable {drained : List Frame} {st st' : Progress Frame G P} {f : Frame} {met : List Frame} {stop : Option Frame}
  {forest₁ : TransformForest Frame G P} {start : Frame × G}

theorem turn_reached (h : Rooted g drained st)
    (hwalk : Walked g.parentOf st.unprocessed (some f) st'.unprocessed met stop) :
    ∀ k ∈ g.frames, k ∉ st'.unprocessed ↔ ∃ b ∈ drained ++ [f], Reaches g.parentOf b k := by
  intro k hk
  have hleft : k ∉ st'.unprocessed ↔ k ∉ st.unprocessed ∨ k ∈ met := by
    rw [hwalk.mem_left]
    tauto
  rw [hleft, h.reached k hk]
  constructor
  · rintro (⟨b, hb, hbk⟩ | hmet)
    · exact ⟨b, mem_append_left _ hb, hbk⟩
    · exact ⟨f, mem_append_right _ (mem_singleton_self f), hwalk.reaches_met rfl k hmet⟩
  · rintro ⟨b, hb, hbk⟩
    rcases mem_append.mp hb with hb | hb
    · exact .inl ⟨b, hb, hbk⟩
    · rw [mem_singleton.mp hb] at hbk
      rcases hwalk.mem_or_reaches rfl hbk with hmet | ⟨q, hq, hqk⟩
      · exact .inr hmet
      · rcases hwalk.stop_cases hq with hnot | hmet
        · by_cases hqmem : q ∈ g.frames
          · obtain ⟨c, hc, hcq⟩ := (h.reached q hqmem).mp hnot
            exact .inl ⟨c, hc, hcq.trans hqk⟩
          · cases eq_of_reaches_top (parentOf_of_notMem hqmem) hqk
            exact absurd hk hqmem
        · exact .inr (hwalk.mem_of_reaches hq hmet hmet hqk)

theorem turn_enters (h : Rooted g drained st)
    (hwalk : Walked g.parentOf st.unprocessed (some f) st'.unprocessed met stop) (p : Frame) :
    (Enters g.parentOf f p ∧ ∀ b ∈ drained, ¬ Reaches g.parentOf b p) ↔ stop = some p ∧ p ∈ met := by
  constructor
  · rintro ⟨henters, hfirst⟩
    refine hwalk.stop_of_enters rfl henters fun k _ hkp => ?_
    by_contra hnot
    obtain ⟨b, hb, hbk⟩ := (h.reached k (mem_of_reaches_cycle hkp henters.onCycle)).mp hnot
    exact hfirst b hb (hbk.trans hkp)
  · rintro ⟨hstop, hmet⟩
    have hrest := hwalk.mem_rest p hmet
    refine ⟨hwalk.enters_of_mem rfl hstop hmet, fun b hb hbp => ?_⟩
    exact (h.reached p (h.filled.subset hrest)).mpr ⟨b, hb, hbp⟩ hrest

theorem turn_entersFirst (h : Rooted g drained st)
    (hwalk : Walked g.parentOf st.unprocessed (some f) st'.unprocessed met stop) (p : Frame) :
    EntersFirst g.parentOf (drained ++ [f]) p ↔ EntersFirst g.parentOf drained p ∨ stop = some p ∧ p ∈ met := by
  rw [entersFirst_append, turn_enters h hwalk]

theorem turn_kept (h : Rooted g drained st)
    (hwalk : Walked g.parentOf st.unprocessed (some f) st'.unprocessed met stop)
    (hstarts : StartsAt st.forest met stop forest₁ start) (hadded : Added g forest₁ start met st'.forest) {k : Frame}
    {e : TreeTransform Frame G} (he : st.forest.rootFromFrame.lookup k = some e) :
    st'.forest.rootFromFrame.lookup k = some e := by
  have hmet : k ∉ met := fun hmet => by
    cases (h.filled.fresh k (hwalk.mem_rest k hmet)).symm.trans he
  rw [hadded.kept k hmet]
  rcases hstarts.lookup k with heq | ⟨-, hnone, -⟩
  · exact heq.trans he
  · cases hnone.symm.trans he

theorem turn_rooted (h : Rooted g drained st) (hstarts : StartsAt st.forest met stop forest₁ start)
    (hadded : Added g forest₁ start met st'.forest) {k : Frame} {e : TreeTransform Frame G}
    (he : st'.forest.rootFromFrame.lookup k = some e) : e.root ∈ st'.forest.roots := by
  have hold : ∀ r, r ∈ st.forest.roots → r ∈ st'.forest.roots := fun r hr => (hadded.roots r).mpr (.inl (hstarts.mem_roots hr))
  have hstart : start.1 ∈ st'.forest.roots := by
    rw [hadded.roots]
    refine .inl ?_
    cases hstarts with
    | known he => exact h.rooted _ _ he
    | unknown _ => exact (mem_insert _).mpr (.inl rfl)
    | top _ => exact (mem_insert _).mpr (.inl rfl)
  by_cases hmet : k ∈ met
  · obtain ⟨before, above, rfl, hbefore⟩ := eq_append_cons_of_mem hmet
    rw [hadded.given before k above rfl hbefore] at he
    cases he
    rcases resolve_root (g := g) start (k :: above) with hroot | ⟨hmem, hpinhole⟩
    · exact hroot ▸ hstart
    · exact (hadded.roots _).mpr (.inr ⟨mem_append_right _ hmem, hpinhole⟩)
  · rw [hadded.kept k hmet] at he
    rcases hstarts.lookup k with heq | ⟨-, -, rfl, hnew⟩
    · exact hold _ (h.rooted k e (heq.symm.trans he))
    · cases hnew.symm.trans he
      exact hstart

theorem turn_self (h : Rooted g drained st)
    (hwalk : Walked g.parentOf st.unprocessed (some f) st'.unprocessed met stop)
    (hstarts : StartsAt st.forest met stop forest₁ start) (hadded : Added g forest₁ start met st'.forest) {r : Frame}
    (hr : r ∈ st'.forest.roots) (hnot : ¬ EntersFirst g.parentOf (drained ++ [f]) r) :
    st'.forest.rootFromFrame.lookup r = some ⟨r, 1⟩ := by
  rw [turn_entersFirst h hwalk, not_or] at hnot
  have hold : r ∈ st.forest.roots → st'.forest.rootFromFrame.lookup r = some ⟨r, 1⟩ := fun hr =>
    turn_kept h hwalk hstarts hadded (h.self r hr hnot.1)
  rcases (hadded.roots r).mp hr with hr | ⟨hmet, hpinhole⟩
  · cases hstarts with
    | known _ => exact hold hr
    | @unknown p hnone =>
      rcases (mem_insert _).mp hr with rfl | hr
      · have hmet : r ∉ met := fun hmet => hnot.2 ⟨rfl, hmet⟩
        rw [hadded.kept r hmet]
        exact lookup_insert _
      · exact hold hr
    | @top l hl =>
      rcases (mem_insert _).mp hr with rfl | hr
      · have htop : g.parentOf r = none := hwalk.up_last r hl
        have hframe : r ∈ g.frames := h.filled.subset (hwalk.mem_rest r (mem_of_getLast? hl))
        rw [parentOf_of_mem hframe] at htop
        have htransform : g.parentFromChild r = 1 := by
          rw [parentFromChild, (transformsAt_of_no_parent htop).1]
          rfl
        obtain ⟨before, rfl⟩ := List.getLast?_eq_some_iff.mp hl
        have hbefore : r ∉ before := fun hmem =>
          (nodup_append.mp hwalk.nodup).2.2 r hmem r (mem_singleton_self r) rfl
        rw [hadded.given before r [] rfl hbefore]
        simp [resolve, (transformsAt_of_no_parent htop).2, htransform]
      · exact hold hr
  · obtain ⟨before, above, rfl, hbefore⟩ := eq_append_cons_of_mem hmet
    rw [hadded.given before r above rfl hbefore, resolve, if_pos hpinhole]

theorem turn_entered (h : Rooted g drained st)
    (hwalk : Walked g.parentOf st.unprocessed (some f) st'.unprocessed met stop)
    (hstarts : StartsAt st.forest met stop forest₁ start) (hadded : Added g forest₁ start met st'.forest) {p : Frame}
    (hp : EntersFirst g.parentOf (drained ++ [f]) p) :
    p ∈ st'.forest.roots ∧ (st'.forest.rootFromFrame.lookup p = some ⟨p, 1⟩ ↔ g.ClosesUp p) := by
  rcases (turn_entersFirst h hwalk p).mp hp with hold | ⟨rfl, hmet⟩
  · obtain ⟨hroot, hiff⟩ := h.entered p hold
    obtain ⟨b, hb, hbp⟩ := hold.reached
    obtain ⟨_, _, _, _, henters, -⟩ := hold
    have hframe := mem_of_onCycle henters.onCycle
    obtain ⟨e, he⟩ := h.filled.filled p hframe ((h.reached p hframe).mpr ⟨b, hb, hbp⟩)
    refine ⟨(hadded.roots p).mpr (.inl (hstarts.mem_roots hroot)), ?_⟩
    rw [turn_kept h hwalk hstarts hadded he, ← hiff, he]
  · cases hstarts with
    | known he => cases (h.filled.fresh p (hwalk.mem_rest p hmet)).symm.trans he
    | unknown _ =>
      refine ⟨(hadded.roots p).mpr (.inl ((mem_insert _).mpr (.inl rfl))), ?_⟩
      obtain ⟨before, above, rfl, hbefore⟩ := eq_append_cons_of_mem hmet
      rw [hadded.given before p above rfl hbefore, ← resolve_self_iff h.filled.subset hwalk]
      constructor
      · intro heq
        obtain ⟨hroot, ht⟩ := TreeTransform.mk.inj (Option.some.inj heq)
        exact Prod.ext hroot ht
      · intro heq
        rw [heq]

end Turn

theorem step_rooted {drained : List Frame} {st st' : Progress Frame G P} {f : Frame} (h : Rooted g drained st)
    (hstep : g.step st f = some st') : Rooted g (drained ++ [f]) st' := by
  obtain ⟨met, stop, forest₁, start, hwalk, -, hstarts, hadded⟩ := step_spec h.filled hstep
  exact {
    filled := step_filled h.filled hstep
    reached := turn_reached h hwalk
    rooted := fun k e he => turn_rooted h hstarts hadded he
    self := fun r hr hnot => turn_self h hwalk hstarts hadded hr hnot
    entered := fun p hp => turn_entered h hwalk hstarts hadded hp }

theorem run_rooted {before drained : List Frame} {st st' : Progress Frame G P} (h : Rooted g before st)
    (hrun : Runs.run g.step st drained = some st') : Rooted g (before ++ drained) st' := by
  induction drained generalizing before st with
  | nil =>
    cases hrun
    rwa [append_nil]
  | cons f drained ih =>
    obtain ⟨next, hstep, hrun⟩ := Runs.run_cons_eq_some.mp hrun
    rw [append_cons]
    exact ih (step_rooted h hstep) hrun

/-! ## Main results -/

/-- A drain ends, with an entry for every frame and a root for every entry. It gives a well-formed
forest just when every cycle is entered at a frame that closes up. -/
theorem builds_wellFormed_iff (g : TransformGraph Frame G P) :
    (∀ drained st, Runs.run g.step g.start drained = some st → drained.length ≤ g.frames.card ∧
      ∀ f ∈ st.unprocessed, (g.step st f).isSome = true) ∧
    ∀ drained forest, g.Builds drained forest → (∀ f ∈ g.frames, ∃ e, forest.rootFromFrame.lookup f = some e) ∧
      (∀ f e, forest.rootFromFrame.lookup f = some e → e.root ∈ forest.roots) ∧
      (g.WellFormed forest ↔ ∀ p, EntersFirst g.parentOf drained p → g.ClosesUp p) := by
  have hstart : Rooted g [] g.start := by
    refine ⟨start_filled, fun k hk => ?_, fun k e he => ?_, fun r hr => ?_, fun p hp => ?_⟩
    · simp [start, hk]
    · exact absurd ((lookup_empty k).symm.trans he) (by simp)
    · exact absurd hr (notMem_empty r)
    · obtain ⟨b, hb, -⟩ := hp.reached
      cases hb
  refine ⟨drain_ends, fun drained forest hbuilds => ?_⟩
  have h : Rooted g drained ⟨∅, forest⟩ := run_rooted hstart hbuilds
  have hentries : ∀ f ∈ g.frames, ∃ e, forest.rootFromFrame.lookup f = some e := fun f hf =>
    h.filled.filled f hf (Finset.notMem_empty f)
  refine ⟨hentries, h.rooted, fun hwell p hp => ?_, fun hcloses => ⟨hentries, h.rooted, fun r hr => ?_⟩⟩
  · obtain ⟨hroot, hiff⟩ := h.entered p hp
    exact hiff.mp (hwell.2.2 p hroot)
  · by_cases hentered : EntersFirst g.parentOf drained r
    · exact (h.entered r hentered).2.mpr (hcloses r hentered)
    · exact h.self r hr hentered

def cycleGraph (there back : Int) : TransformGraph Nat (Multiplicative Int) Unit where
  frames := {0, 1}
  latestAtTransform := fun f => if f = 0 then some ⟨1, .ofAdd there⟩ else if f = 1 then some ⟨0, .ofAdd back⟩ else none
  latestAtPinhole := fun _ => none
  implicitTransformParent := fun _ => none

theorem builds_wellFormed_iff_of_cycle :
    ∃ forest, (cycleGraph 1 (-1)).Builds [0] forest ∧
      (∀ f ∈ (cycleGraph 1 (-1)).frames, ∃ e, forest.rootFromFrame.lookup f = some e) ∧
      (∀ f e, forest.rootFromFrame.lookup f = some e → e.root ∈ forest.roots) ∧
      ((cycleGraph 1 (-1)).WellFormed forest ↔
        ∀ p, EntersFirst (cycleGraph 1 (-1)).parentOf [0] p → (cycleGraph 1 (-1)).ClosesUp p) :=
  ⟨_, rfl, (builds_wellFormed_iff (cycleGraph 1 (-1))).2 [0] _ rfl⟩

/-- The root of a cycle that is not the identity targets itself with one turn around it. -/
theorem cycle_root_not_identity :
    ¬ ∀ (g : TransformGraph Nat (Multiplicative Int) Unit) (drained : List Nat)
      (forest : TransformForest Nat (Multiplicative Int) Unit), g.Builds drained forest → g.WellFormed forest := by
  intro h
  have hself := (h (cycleGraph 1 1) [0] _ rfl).2.2 0 (by decide)
  exact absurd hself (by decide)

end Dalaran.TransformGraph
