import Mathlib.Data.List.SplitBy
import Mathlib.Logic.Relation
import Mathlib.Order.Lattice
import Mathlib.Tactic.Common

/-
  Clustering by gaps: a sorted sequence cut between neighbours that lie far apart.

  `cutPoints` are the positions behind such a pair and `piecesAt` the parts between
  them; together they are the library's `splitBy` (`pieces_eq_splitBy`). Where the
  sequence falls in some weight, and a pair further out on both sides is further
  apart, two elements come into one piece exactly if a chain of close elements leads
  from one to the other (`mem_piece_iff_linked`).
-/

namespace Seq

open List

variable {α β : Type}

/-! ## Cutting at positions -/

/-- The positions behind a pair of neighbours that lie far apart. -/
def cutPoints (far : α → α → Bool) (l : List α) : List Nat :=
  (l.zip l.tail).zipIdx.filterMap fun w => if far w.1.1 w.1.2 then some (w.2 + 1) else none

/-- The parts from a start to each of some positions in turn. -/
def piecesAt (l : List α) : Nat → List Nat → List (List α)
  | _, [] => []
  | start, stop :: stops => (l.drop start).take (stop - start) :: piecesAt l stop stops

/-- The parts between the pairs that lie far apart. -/
def pieces (far : α → α → Bool) (l : List α) : List (List α) :=
  piecesAt l 0 (cutPoints far l ++ [l.length])

theorem cutPoints_cons_cons (far : α → α → Bool) (a b : α) (l : List α) :
    cutPoints far (a :: b :: l) = (if far a b then [1] else []) ++ (cutPoints far (b :: l)).map (· + 1) := by
  have hrest : (fun w : (α × α) × Nat => if far w.1.1 w.1.2 then some (w.2 + 1) else none) ∘
      Prod.map id (· + 1) =
      fun w => (if far w.1.1 w.1.2 then some (w.2 + 1) else none).map (· + 1) := by
    funext w
    by_cases h : far w.1.1 w.1.2 = true
    · simp [h]
    · simp [h]
  unfold cutPoints
  rw [tail_cons, zip_cons_cons, zipIdx_cons, zipIdx_succ, filterMap_cons,
    filterMap_map, tail_cons, map_filterMap, ← hrest]
  by_cases h : far a b = true
  · simp [h]
  · simp [h]

theorem piecesAt_succ (a : α) (l : List α) (start : Nat) (stops : List Nat) :
    piecesAt (a :: l) (start + 1) (stops.map (· + 1)) = piecesAt l start stops := by
  induction stops generalizing start with
  | nil => rfl
  | cons stop stops ih =>
    rw [map_cons, piecesAt, piecesAt, ih, drop_succ_cons, Nat.add_sub_add_right]

theorem cutPoints_map (far : β → β → Bool) (f : α → β) (l : List α) :
    cutPoints far (l.map f) = cutPoints (fun a b => far (f a) (f b)) l := by
  unfold cutPoints
  rw [← map_tail, zip_map, zipIdx_map, filterMap_map]
  rfl

theorem piecesAt_map (f : α → β) (l : List α) (start : Nat) (stops : List Nat) :
    piecesAt (l.map f) start stops = (piecesAt l start stops).map (List.map f) := by
  induction stops generalizing start with
  | nil => rfl
  | cons stop stops ih => rw [piecesAt, piecesAt, map_cons, ih, map_take, map_drop]

theorem pieces_of_cutPoints_nil {far : α → α → Bool} {l : List α} (h : cutPoints far l = []) :
    pieces far l = [l] := by
  unfold pieces
  rw [h, nil_append, piecesAt, piecesAt, drop_zero, Nat.sub_zero, take_length]

theorem cutPoints_of_short (far : α → α → Bool) {l : List α} (h : l.length < 2) : cutPoints far l = [] := by
  match l, h with
  | [], _ => rfl
  | [a], _ => rfl

theorem pieces_cons_cons (far : α → α → Bool) (a b : α) (l : List α) :
    pieces far (a :: b :: l) =
      if far a b then [a] :: pieces far (b :: l) else (pieces far (b :: l)).modifyHead (a :: ·) := by
  have hstops : cutPoints far (a :: b :: l) ++ [(a :: b :: l).length] =
      (if far a b then [1] else []) ++ ((cutPoints far (b :: l) ++ [(b :: l).length]).map (· + 1)) := by
    rw [cutPoints_cons_cons, append_assoc, map_append]
    rfl
  unfold pieces
  rw [hstops]
  by_cases h : far a b = true
  · rw [if_pos h, if_pos h, singleton_append, piecesAt, piecesAt_succ]
    rfl
  · rw [if_neg h, if_neg h, nil_append]
    cases hstop : cutPoints far (b :: l) ++ [(b :: l).length] with
    | nil => simp at hstop
    | cons stop stops =>
      rw [map_cons, piecesAt, piecesAt_succ, piecesAt]
      simp

theorem pieces_eq_splitBy (far : α → α → Bool) {l : List α} (h : l ≠ []) :
    pieces far l = l.splitBy fun a b => !far a b := by
  induction l with
  | nil => exact absurd rfl h
  | cons a l ih =>
    cases l with
    | nil => exact (splitBy_of_isChain h (isChain_singleton a)).symm
    | cons b l =>
      rw [pieces_cons_cons, ih (cons_ne_nil b l)]
      by_cases hfar : far a b = true
      · rw [if_pos hfar]
        have hsplit := @List.splitBy_append_cons _ (fun a b => !far a b) [a] b l (by simp [hfar])
        exact hsplit.symm
      · rw [if_neg hfar]
        obtain ⟨hflatten, hnil, hchain, hgap⟩ :=
          splitBy_eq_iff.mp (@rfl _ ((b :: l).splitBy fun a b => !far a b))
        cases hruns : (b :: l).splitBy fun a b => !far a b with
        | nil => exact absurd (splitBy_eq_nil.mp hruns) (cons_ne_nil b l)
        | cons run runs =>
          rw [hruns] at hflatten hnil hchain hgap
          cases run with
          | nil => exact absurd mem_cons_self hnil
          | cons c run =>
            obtain ⟨rfl, hl⟩ := cons.inj hflatten
            refine (splitBy_eq_iff.mpr ⟨?_, ?_, ?_, ?_⟩).symm
            · rw [modifyHead_cons, flatten_cons, hl, cons_append]
              rfl
            · intro h
              exact hnil (mem_cons_of_mem _ ((mem_cons.mp h).resolve_left (cons_ne_nil _ _).symm))
            · rw [modifyHead_cons, forall_mem_cons]
              refine ⟨List.IsChain.cons_cons ?_ (hchain _ mem_cons_self),
                fun m hm => hchain m (mem_cons_of_mem _ hm)⟩
              simp [hfar]
            · rw [modifyHead_cons]
              rw [isChain_cons] at hgap ⊢
              refine ⟨fun m hm => ?_, hgap.2⟩
              obtain ⟨_, hm', hfar'⟩ := hgap.1 m hm
              exact ⟨cons_ne_nil _ _, hm', by rwa [getLast_cons (cons_ne_nil b run)]⟩

theorem flatten_pieces (far : α → α → Bool) (l : List α) : (pieces far l).flatten = l := by
  cases l with
  | nil => rfl
  | cons a l => rw [pieces_eq_splitBy far (cons_ne_nil a l), flatten_splitBy]

/-! ## Pieces of a falling sequence -/

/-- A walk over elements of a list, each close to the next, leads from one to the other. -/
def Linked (close : α → α → Prop) (l : List α) : α → α → Prop :=
  Relation.ReflTransGen fun x y => (x ∈ l ∧ y ∈ l) ∧ close x y

theorem linked_congr {close close' : α → α → Prop} {l l' : List α} (hl : ∀ x, x ∈ l ↔ x ∈ l')
    (hclose : ∀ x y, close x y ↔ close' x y) (x y : α) : Linked close l x y ↔ Linked close' l' x y := by
  have heq : (fun x y => (x ∈ l ∧ y ∈ l) ∧ close x y) = fun x y => (x ∈ l' ∧ y ∈ l') ∧ close' x y := by
    funext x y
    rw [hl, hl, hclose]
  unfold Linked
  rw [heq]

section Falling

variable [LinearOrder β] {weight : α → β} {apart : β → β → Bool} {l : List α}

/-- A pair is further apart than any pair between its ends. -/
def Widens (apart : β → β → Bool) : Prop :=
  ∀ a b c d : β, b ≤ a → c ≤ b → d ≤ c → apart b c = true → apart a d = true

/-- The heavier of two elements does not lie apart from the lighter. -/
def Close (weight : α → β) (apart : β → β → Bool) (x y : α) : Prop :=
  apart (max (weight x) (weight y)) (min (weight x) (weight y)) = false

variable {x y : α}

theorem Close.symm (h : Close weight apart x y) : Close weight apart y x := by
  unfold Close at h ⊢
  rwa [max_comm, min_comm]

theorem not_close_of_gap (hwidens : Widens apart) {front back : List α} {u v x y : α}
    (hsorted : (front ++ u :: v :: back).Pairwise fun x y => weight y ≤ weight x)
    (hgap : apart (weight u) (weight v) = true)
    (hx : x ∈ front ++ [u]) (hy : y ∈ v :: back) : ¬ Close weight apart x y := by
  have hsplit : front ++ u :: v :: back = (front ++ [u]) ++ v :: back := by simp
  rw [hsplit, pairwise_append] at hsorted
  obtain ⟨hfront, hback, hacross⟩ := hsorted
  have hux : weight u ≤ weight x := by
    rw [pairwise_append] at hfront
    rcases mem_append.mp hx with hx | hx
    · exact hfront.2.2 x hx u mem_cons_self
    · rw [mem_singleton.mp hx]
  have hyv : weight y ≤ weight v := by
    rcases mem_cons.mp hy with rfl | hy
    · exact le_refl _
    · exact rel_of_pairwise_cons hback hy
  have hvu : weight v ≤ weight u := hacross u (by simp) v mem_cons_self
  have hyx : weight y ≤ weight x := (hyv.trans hvu).trans hux
  unfold Close
  rw [max_eq_left hyx, min_eq_right hyx, hwidens _ _ _ _ hux hvu hyv hgap]
  exact Bool.noConfusion

theorem not_close_of_pieces (hwidens : Widens apart) (hsorted : l.Pairwise fun x y => weight y ≤ weight x)
    {A B : List (List α)} {p q : List α}
    (hpieces : l.splitBy (fun x y => !apart (weight x) (weight y)) = A ++ p :: q :: B)
    (hx : x ∈ (A ++ [p]).flatten) (hy : y ∈ (q :: B).flatten) : ¬ Close weight apart x y := by
  obtain ⟨hflatten, -, -, hgap⟩ := splitBy_eq_iff.mp hpieces
  obtain ⟨hp, hq, hfar⟩ := (isChain_append_cons_cons.mp hgap).2.1
  have hp' : p = p.dropLast ++ [p.getLast hp] := (dropLast_append_getLast hp).symm
  have hq' : q = q.head hq :: q.tail := (cons_head_tail hq).symm
  have hl : l = (A.flatten ++ p.dropLast) ++ p.getLast hp :: q.head hq :: (q.tail ++ B.flatten) := by
    calc l = A.flatten ++ (p ++ (q ++ B.flatten)) := by rw [hflatten, flatten_append]; rfl
      _ = A.flatten ++ ((p.dropLast ++ [p.getLast hp]) ++ ((q.head hq :: q.tail) ++ B.flatten)) := by
        rw [← hp', ← hq']
      _ = _ := by
        rw [append_assoc, append_assoc]
        rfl
  rw [hl] at hsorted
  refine not_close_of_gap hwidens hsorted (by simpa using hfar) ?_ ?_
  · rwa [append_assoc, ← hp', ← flatten_concat]
  · rwa [← cons_append, ← hq', ← flatten_cons]

theorem mem_piece_of_close (hwidens : Widens apart) (hsorted : l.Pairwise fun x y => weight y ≤ weight x)
    {p : List α} (hp : p ∈ l.splitBy fun x y => !apart (weight x) (weight y)) (hx : x ∈ p)
    (hy : y ∈ l)
    (hclose : Close weight apart x y) : y ∈ p := by
  obtain ⟨A, B, hpieces⟩ := append_of_mem hp
  have hy' : y ∈ (A ++ p :: B).flatten := by rwa [← hpieces, flatten_splitBy]
  rw [flatten_append, flatten_cons, mem_append, mem_append] at hy'
  rcases hy' with hy | hy | hy
  · -- in a piece further in front
    cases A using reverseRecOn with
    | nil => exact absurd hy not_mem_nil
    | append_singleton A q =>
      rw [append_assoc, singleton_append] at hpieces
      refine absurd hclose.symm (not_close_of_pieces hwidens hsorted hpieces hy ?_)
      exact mem_append_left _ hx
  · exact hy
  · -- in a piece further behind
    cases B with
    | nil => exact absurd hy not_mem_nil
    | cons q B =>
      refine absurd hclose (not_close_of_pieces hwidens hsorted hpieces ?_ hy)
      rw [flatten_concat]
      exact mem_append_right _ hx

theorem linked_of_piece (hsorted : l.Pairwise fun x y => weight y ≤ weight x) {p : List α}
    (hp : p ∈ l.splitBy fun x y => !apart (weight x) (weight y)) (hx : x ∈ p) (hy : y ∈ p) :
    Linked (Close weight apart) l x y := by
  obtain ⟨A, B, hpieces⟩ := append_of_mem hp
  have hl : l = A.flatten ++ (p ++ B.flatten) := by
    have h := flatten_splitBy (fun x y => !apart (weight x) (weight y)) l
    rw [hpieces] at h
    simpa using h.symm
  have hmem : ∀ a ∈ p, a ∈ l := by
    intro a ha
    rw [hl]
    exact mem_append_right _ (mem_append_left _ ha)
  have hfalls : p.Pairwise fun x y => weight y ≤ weight x := by
    rw [hl] at hsorted
    exact (pairwise_append.mp (pairwise_append.mp hsorted).2.1).1
  have hchain : p.IsChain (Linked (Close weight apart) l) := by
    refine isChain_iff_forall_rel_of_append_cons_cons.mpr ?_
    intro a b front back heq
    have hnear := isChain_iff_forall_rel_of_append_cons_cons.mp (isChain_of_mem_splitBy hp) heq
    have hle : weight b ≤ weight a := isChain_iff_forall_rel_of_append_cons_cons.mp hfalls.isChain heq
    refine Relation.ReflTransGen.single ⟨⟨hmem a (by simp [heq]), hmem b (by simp [heq])⟩, ?_⟩
    unfold Close
    rw [max_eq_left hle, min_eq_right hle]
    simpa using hnear
  have : IsTrans α (Linked (Close weight apart) l) := ⟨fun _ _ _ => Relation.ReflTransGen.trans⟩
  have : Std.Symm fun a b => (a ∈ l ∧ b ∈ l) ∧ Close weight apart a b :=
    ⟨fun a b h => ⟨⟨h.1.2, h.1.1⟩, h.2.symm⟩⟩
  have : Std.Symm (Linked (Close weight apart) l) := Relation.ReflTransGen.stdSymm
  exact (isChain_iff_pairwise.mp hchain).forall_of_forall (fun a _ => Relation.ReflTransGen.refl) hx hy

theorem mem_piece_iff_linked (hwidens : Widens apart) (hsorted : l.Pairwise fun x y => weight y ≤ weight x)
    (hx : x ∈ l) :
    (∃ p ∈ pieces (fun x y => apart (weight x) (weight y)) l, x ∈ p ∧ y ∈ p) ↔
      Linked (Close weight apart) l x y := by
  rw [pieces_eq_splitBy _ (ne_nil_of_mem hx)]
  constructor
  · intro h
    obtain ⟨p, hp, hxp, hyp⟩ := h
    exact linked_of_piece hsorted hp hxp hyp
  · intro h
    induction h with
    | refl =>
      rw [← flatten_splitBy (fun x y => !apart (weight x) (weight y)) l] at hx
      obtain ⟨p, hp, hxp⟩ := mem_flatten.mp hx
      exact ⟨p, hp, hxp, hxp⟩
    | tail _ hstep ih =>
      obtain ⟨p, hp, hxp, hmid⟩ := ih
      exact ⟨p, hp, hxp, mem_piece_of_close hwidens hsorted hp hmid hstep.1.2 hstep.2⟩

end Falling

end Seq
