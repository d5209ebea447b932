import Mathlib.Data.List.Induction
import Mathlib.Data.List.Sort
import Mathlib.Data.Prod.Lex
import Mathlib.Order.MinMax
import Mathlib.Tactic.Common

/-
  Sequences as columnar code handles them.

  `ascending` is the test over adjacent pairs, `select` keeps the values under the
  set bits of a mask, `permute` reads a sequence in another order and
  `stableSortIndices` is the order a stable sort by key reads it in. `lexZip` puts
  two sequences side by side to be compared by the first, then by the second.
-/

namespace Seq

open List Bool

variable {α β : Type}

/-! ## Ascending sequences -/

/-- Whether every element is at most the next one. -/
def ascending [LinearOrder α] : List α → Bool
  | a :: b :: l => decide (a ≤ b) && ascending (b :: l)
  | _ => true

theorem ascending_iff [LinearOrder α] : ∀ {l : List α}, ascending l = true ↔ l.Pairwise (· ≤ ·)
  | [] => by simp [ascending]
  | [a] => by simp [ascending]
  | a :: b :: l => by
    rw [ascending, and_eq_true, decide_eq_true_iff, ascending_iff, pairwise_cons (a := a)]
    constructor
    · rintro ⟨hab, h⟩
      refine ⟨fun c hc => ?_, h⟩
      rcases mem_cons.mp hc with rfl | hc
      · exact hab
      · exact hab.trans (rel_of_pairwise_cons h hc)
    · rintro ⟨ha, h⟩
      exact ⟨ha b mem_cons_self, h⟩

theorem ascending_append [LinearOrder α] {l₁ l₂ : List α} :
    ascending (l₁ ++ l₂) = true ↔ ascending l₁ = true ∧ ascending l₂ = true ∧ ∀ a ∈ l₁, ∀ b ∈ l₂, a ≤ b := by
  simp only [ascending_iff, pairwise_append]

theorem ascending_append_eq [LinearOrder α] {l₁ l₂ : List α} {a b : α} (ha : a ∈ l₁) (hb : b ∈ l₂)
    (hmax : ∀ x ∈ l₁, x ≤ a) (hmin : ∀ x ∈ l₂, b ≤ x) :
    ascending (l₁ ++ l₂) = (ascending l₁ && ascending l₂ && decide (a ≤ b)) := by
  rw [Bool.eq_iff_iff, ascending_append, and_eq_true, and_eq_true, decide_eq_true_iff]
  constructor
  · rintro ⟨h₁, h₂, h⟩
    exact ⟨⟨h₁, h₂⟩, h a ha b hb⟩
  · rintro ⟨⟨h₁, h₂⟩, hab⟩
    exact ⟨h₁, h₂, fun x hx y hy => (hmax x hx).trans (hab.trans (hmin y hy))⟩

variable {l : List α}

theorem head?_le_of_ascending [LinearOrder α] {a b : α} (h : ascending l = true) (ha : l.head? = some a)
    (hb : b ∈ l) : a ≤ b := by
  cases l with
  | nil => simp at hb
  | cons c l =>
    obtain rfl : c = a := by simpa using ha
    rcases mem_cons.mp hb with rfl | hb
    · exact le_rfl
    · exact rel_of_pairwise_cons (ascending_iff.mp h) hb

theorem le_getLast?_of_ascending [LinearOrder α] {a b : α} (h : ascending l = true) (ha : l.getLast? = some a)
    (hb : b ∈ l) : b ≤ a := by
  obtain ⟨l', rfl⟩ := getLast?_eq_some_iff.mp ha
  obtain ⟨_, _, hle⟩ := ascending_append.mp h
  rcases mem_append.mp hb with hb | hb
  · exact hle b hb a (by simp)
  · rw [mem_singleton.mp hb]

theorem mem_takeWhile_of_pairwise {p : α → Bool} : ∀ {l : List α},
    l.Pairwise (fun a b => p b = true → p a = true) → ∀ {x : α}, x ∈ l.takeWhile p ↔ x ∈ l ∧ p x = true
  | [], _, x => by simp
  | a :: l, h, x => by
    obtain ⟨ha, hl⟩ := pairwise_cons.mp h
    rw [takeWhile_cons]
    split
    · rename_i hpa
      rw [mem_cons, mem_takeWhile_of_pairwise hl, mem_cons]
      constructor
      · rintro (rfl | ⟨hx, hpx⟩)
        · exact ⟨.inl rfl, hpa⟩
        · exact ⟨.inr hx, hpx⟩
      · rintro ⟨rfl | hx, hpx⟩
        · exact .inl rfl
        · exact .inr ⟨hx, hpx⟩
    · rename_i hpa
      refine ⟨fun hx => absurd hx (not_mem_nil), ?_⟩
      rintro ⟨hx, hpx⟩
      rcases mem_cons.mp hx with rfl | hx
      · exact absurd hpx hpa
      · exact absurd (ha x hx hpx) hpa

variable {l' : List α}

theorem max?_subset_iff [LinearOrder α] (hsub : l' ⊆ l) : l'.max? = l.max? ↔ ∀ m, l.max? = some m → m ∈ l' := by
  constructor
  · intro h m hm
    exact max?_mem (h.trans hm)
  · intro h
    cases hm : l.max? with
    | none =>
      have hnil : l = [] := max?_eq_none_iff.mp hm
      have hnil' : l' = [] := eq_nil_of_subset_nil (hnil ▸ hsub)
      rw [hnil']
      rfl
    | some m =>
      obtain ⟨-, hle⟩ := max?_eq_some_iff.mp hm
      exact max?_eq_some_iff.mpr ⟨h m hm, fun b hb => hle b (hsub hb)⟩

/-! ## Masks -/

def select (l : List α) (mask : List Bool) : List α :=
  ((l.zip mask).filter (·.2)).map (·.1)

theorem mem_select {mask : List Bool} {a : α} :
    a ∈ select l mask ↔ ∃ i : Nat, l[i]? = some a ∧ mask[i]? = some true := by
  simp only [select, mem_map, mem_filter, Prod.exists]
  constructor
  · rintro ⟨b, v, ⟨hmem, hv⟩, rfl⟩
    obtain ⟨i, hi⟩ := mem_iff_getElem?.mp hmem
    rw [List.getElem?_zip_eq_some] at hi
    exact ⟨i, hi.1, by rw [hi.2, show v = true from hv]⟩
  · rintro ⟨i, hl, hm⟩
    exact ⟨a, true, ⟨mem_iff_getElem?.mpr ⟨i, List.getElem?_zip_eq_some.mpr ⟨hl, hm⟩⟩, rfl⟩, rfl⟩

theorem select_cons (a : α) (l : List α) (v : Bool) (mask : List Bool) :
    select (a :: l) (v :: mask) = if v then a :: select l mask else select l mask := by
  cases v <;> simp [select]

theorem select_sublist : ∀ (l : List α) (mask : List Bool), (select l mask).Sublist l
  | [], _ => by simp [select]
  | _ :: _, [] => by simp [select]
  | a :: l, v :: mask => by
    rw [select_cons]
    split
    · exact (select_sublist l mask).cons_cons a
    · exact (select_sublist l mask).cons a

theorem ascending_select [LinearOrder α] (mask : List Bool)
    (h : ascending l = true) : ascending (select l mask) = true :=
  ascending_iff.mpr ((ascending_iff.mp h).sublist (select_sublist l mask))

/-! ## Orders of indices -/

/-- The elements in the order given by indices; an index out of range yields nothing. -/
def permute (l : List α) (order : List Nat) : List α := order.filterMap (l[·]?)

variable {order : List Nat}

theorem permute_getElem? (h : ∀ i ∈ order, i < l.length) (k : Nat) :
    (permute l order)[k]? = (order[k]?).bind (l[·]?) := by
  induction order generalizing k with
  | nil => simp [permute]
  | cons i order ih =>
    have hi : i < l.length := h i mem_cons_self
    have ih := ih fun j hj => h j (mem_cons_of_mem _ hj)
    unfold permute at ih ⊢
    rw [filterMap_cons, List.getElem?_eq_getElem hi]
    cases k with
    | zero => simp [List.getElem?_eq_getElem hi]
    | succ k => simpa using ih k

theorem permute_length (h : ∀ i ∈ order, i < l.length) : (permute l order).length = order.length := by
  induction order with
  | nil => rfl
  | cons i order ih =>
    have hi : i < l.length := h i mem_cons_self
    have ih := ih fun j hj => h j (mem_cons_of_mem _ hj)
    unfold permute at ih ⊢
    rw [filterMap_cons, List.getElem?_eq_getElem hi]
    simpa using ih

theorem permute_map (f : α → β) (l : List α) (order : List Nat) :
    permute (l.map f) order = (permute l order).map f := by
  unfold permute
  rw [map_filterMap]
  simp

theorem permute_range (l : List α) : permute l (range l.length) = l := by
  apply ext_getElem?
  intro k
  rw [permute_getElem? (fun i hi => mem_range.mp hi)]
  by_cases hk : k < l.length
  · rw [List.getElem?_range hk]
    rfl
  · rw [List.getElem?_eq_none (by simpa using hk), List.getElem?_eq_none (by simpa using hk)]
    rfl

theorem permute_perm (h : order.Perm (range l.length)) : (permute l order).Perm l := by
  have := h.filterMap (l[·]?)
  rwa [show (range l.length).filterMap (l[·]?) = l from permute_range l] at this

theorem mem_permute_of_perm (h : order.Perm (range l.length)) {a : α} : a ∈ permute l order ↔ a ∈ l :=
  (permute_perm h).mem_iff

/-- Compare two indices by the elements they name; an index out of range comes first. -/
def indexLe [LinearOrder β] (keys : List β) (i j : Nat) : Prop :=
  match keys[i]?, keys[j]? with
  | some a, some b => a ≤ b
  | some _, none => False
  | none, _ => True

instance [LinearOrder β] (keys : List β) : DecidableRel (indexLe keys) := fun i j => by
  unfold indexLe
  split <;> infer_instance

instance [LinearOrder β] (keys : List β) : Std.Total (indexLe keys) where
  total i j := by
    unfold indexLe
    cases keys[i]? <;> cases keys[j]? <;> simp [le_total]

instance [LinearOrder β] (keys : List β) : IsTrans Nat (indexLe keys) where
  trans i j k := by
    unfold indexLe
    cases keys[i]? <;> cases keys[j]? <;> cases keys[k]? <;> simp
    exact le_trans

def stableSortIndices [LinearOrder β] (keys : List β) : List Nat :=
  (range keys.length).insertionSort (indexLe keys)

theorem stableSortIndices_perm [LinearOrder β] (keys : List β) :
    (stableSortIndices keys).Perm (range keys.length) :=
  perm_insertionSort _ _

theorem ascending_permute_stableSortIndices [LinearOrder β] (keys : List β) :
    ascending (permute keys (stableSortIndices keys)) = true := by
  rw [ascending_iff]
  unfold permute
  rw [pairwise_filterMap]
  refine (pairwise_insertionSort (indexLe keys) _).imp fun {i j} hij a ha b hb => ?_
  unfold indexLe at hij
  simpa [ha, hb] using hij

/-! ## Ascending indices -/

theorem permute_range' {index len : Nat} (h : index + len ≤ l.length) :
    permute l (range' index len) = (l.drop index).take len := by
  have hlt : ∀ i ∈ range' index len, i < l.length := by
    intro i hi
    have := mem_range'_1.mp hi
    omega
  apply ext_getElem?
  intro n
  rw [permute_getElem? hlt, List.getElem?_take, List.getElem?_drop]
  by_cases hn : n < len
  · rw [List.getElem?_range' hn, if_pos hn, Option.bind_some, Nat.one_mul]
  · rw [if_neg hn, List.getElem?_eq_none (by simpa using hn), Option.bind_none]

def maskIndices : Nat → List Bool → List Nat
  | _, [] => []
  | i, bit :: mask => if bit then i :: maskIndices (i + 1) mask else maskIndices (i + 1) mask

theorem maskIndices_sublist (i : Nat) (mask : List Bool) :
    (maskIndices i mask).Sublist (range' i mask.length) := by
  induction mask generalizing i with
  | nil => exact Sublist.refl _
  | cons bit mask ih =>
    rw [maskIndices, length_cons, range'_succ]
    split
    · exact (ih (i + 1)).cons_cons i
    · exact (ih (i + 1)).cons i

theorem maskIndices_length (i : Nat) (mask : List Bool) : (maskIndices i mask).length = mask.count true := by
  induction mask generalizing i with
  | nil => rfl
  | cons bit mask ih => cases bit <;> simp [maskIndices, ih]

theorem select_eq_permute_append : ∀ (front l : List α) (mask : List Bool), mask.length = l.length →
    select l mask = permute (front ++ l) (maskIndices front.length mask)
  | front, [], [], _ => rfl
  | front, a :: l, bit :: mask, h => by
    have ih := select_eq_permute_append (front ++ [a]) l mask (by simpa using h)
    rw [append_assoc, singleton_append, length_append, length_singleton] at ih
    rw [select_cons, maskIndices, ih]
    cases bit with
    | false => rfl
    | true =>
      have hget : (front ++ a :: l)[front.length]? = some a := by simp
      rw [if_pos rfl, if_pos rfl, permute, permute, filterMap_cons_some hget]

theorem select_eq_permute {mask : List Bool} (h : mask.length = l.length) :
    select l mask = permute l (maskIndices 0 mask) := select_eq_permute_append [] l mask h

/-- The index of the last element of each run of equal neighbours, counted from `i`. -/
def runEnds [DecidableEq α] : Nat → List α → List Nat
  | _, [] => []
  | i, [_] => [i]
  | i, a :: b :: l => if a = b then runEnds (i + 1) (b :: l) else i :: runEnds (i + 1) (b :: l)

theorem runEnds_sublist [DecidableEq α] : ∀ (i : Nat) (l : List α), (runEnds i l).Sublist (range' i l.length)
  | i, [] => Sublist.refl _
  | i, [_] => Sublist.refl _
  | i, a :: b :: l => by
    have ih := runEnds_sublist (i + 1) (b :: l)
    rw [runEnds, length_cons, range'_succ]
    split
    · exact ih.cons i
    · exact ih.cons_cons i

/-! ## Two lists side by side -/

variable {r r' : List α}

theorem perm_append_iff_of_unchanged {p : α → Prop}
    (hl : Forall₂ (fun a a' => (p a ↔ p a') ∧ (¬ p a → a = a')) l l') (hr : ∀ a ∈ r, ¬ p a)
    (hr' : ∀ a ∈ r', ¬ p a) :
    (l' ++ r').Perm (l ++ r) ↔ l'.Perm l ∧ r'.Perm r := by
  classical
  refine ⟨fun h => ?_, fun h => h.1.append h.2⟩
  have hsame : l'.filter (fun a => !decide (p a)) = l.filter (fun a => !decide (p a)) := by
    clear h
    induction hl with
    | nil => rfl
    | @cons a a' l l' hhead _ ih =>
      rw [filter_cons, filter_cons, ih]
      by_cases ha : p a
      · simp [ha, hhead.1.mp ha]
      · simp [ha, ← hhead.2 ha]
  have hnone : ∀ s : List α, (∀ a ∈ s, ¬ p a) → s.filter p = [] := fun s hs =>
    filter_eq_nil_iff.mpr fun a ha => by simpa using hs a ha
  have hwith : (l'.filter p).Perm (l.filter p) := by
    have hfilter := h.filter p
    rwa [filter_append, filter_append, hnone r hr, hnone r' hr', append_nil, append_nil] at hfilter
  have hleft : l'.Perm l := by
    refine (filter_append_perm p l').symm.trans (.trans ?_ (filter_append_perm p l))
    rw [hsame]
    exact hwith.append_right _
  exact ⟨hleft, (perm_append_left_iff l').mp (h.trans (hleft.symm.append_right r))⟩

/-! ## Ascending pairs -/

/-- Two sequences side by side, compared by the first and then by the second. -/
def lexZip (l : List α) (m : List β) : List (α ×ₗ β) := zipWith (fun a b => toLex (a, b)) l m

/-- Neighbours that are equal in the first sequence ascend in the second. -/
def tiesAscending [LinearOrder β] (l : List α) (m : List β) : Prop :=
  IsChain (fun p q : α × β => p.1 = q.1 → p.2 ≤ q.2) (l.zip m)

theorem ascending_lexZip_iff [LinearOrder α] [LinearOrder β] : ∀ {l : List α} {m : List β}, l.length = m.length →
    (ascending (lexZip l m) = true ↔ ascending l = true ∧ tiesAscending l m)
  | [], _, _ => by simp [lexZip, ascending, tiesAscending]
  | [a], [b], _ => by simp [lexZip, ascending, tiesAscending]
  | a :: a' :: l, b :: b' :: m, h => by
    have ih := ascending_lexZip_iff (l := a' :: l) (m := b' :: m) (by simpa using h)
    have hsplit : ascending (lexZip (a :: a' :: l) (b :: b' :: m)) = true ↔
        toLex (a, b) ≤ toLex (a', b') ∧ ascending (lexZip (a' :: l) (b' :: m)) = true := by
      simp [lexZip, ascending, and_eq_true]
    have hties : tiesAscending (a :: a' :: l) (b :: b' :: m) ↔
        (a = a' → b ≤ b') ∧ tiesAscending (a' :: l) (b' :: m) := by
      simp [tiesAscending]
    rw [hsplit, hties, ih, Prod.Lex.toLex_le_toLex', ascending, and_eq_true, decide_eq_true_eq]
    constructor
    · rintro ⟨⟨hle, htie⟩, hasc, hrest⟩
      exact ⟨⟨hle, hasc⟩, htie, hrest⟩
    · rintro ⟨⟨hle, hasc⟩, htie, hrest⟩
      exact ⟨⟨hle, htie⟩, hasc, hrest⟩

theorem lexZip_getElem? (l : List α) (m : List β) (i : Nat) :
    (lexZip l m)[i]? = (l[i]?).bind fun a => (m[i]?).map fun b => toLex (a, b) := by
  rw [lexZip, List.getElem?_zipWith']
  cases l[i]? <;> rfl

theorem lexZip_length {m : List β} (h : l.length = m.length) : (lexZip l m).length = l.length := by
  simp [lexZip, h]

theorem permute_lexZip {m : List β} (h : l.length = m.length) (horder : ∀ i ∈ order, i < l.length) :
    permute (lexZip l m) order = lexZip (permute l order) (permute m order) := by
  apply ext_getElem?
  intro k
  rw [permute_getElem? fun i hi => (lexZip_length h).symm ▸ horder i hi, lexZip_getElem?,
    permute_getElem? horder, permute_getElem? fun i hi => h ▸ horder i hi]
  cases order[k]? with
  | none => rfl
  | some i => exact lexZip_getElem? l m i

/-! ## Elements read off -/

theorem filterMap_eq_of_map_eq_some {f : α → Option β} {m : List β} (h : l.map f = m.map some) :
    l.filterMap f = m := by
  have hid := congrArg (filterMap id) h
  rwa [filterMap_map, filterMap_map, Function.id_comp, Function.id_comp, filterMap_some] at hid

theorem find?_reverse_range {p : α → Bool} (l : List α) :
    ∀ {valid : Nat → Bool}, (∀ i a, l[i]? = some a → valid i = p a) →
      ((range l.length).reverse.find? valid).bind (l[·]?) = (l.filter p).getLast? := by
  induction l using reverseRec with
  | nil => exact fun _ => rfl
  | append_singleton l a ih =>
    intro valid hvalid
    have hlast : valid l.length = p a := hvalid l.length a (by simp)
    have hrest := ih fun i b hb => hvalid i b (by
      rw [List.getElem?_append_left (List.getElem?_eq_some_iff.mp hb).1]
      exact hb)
    rw [length_append, length_singleton, range_succ, reverse_append, reverse_singleton,
      singleton_append, find?_cons, hlast, filter_append, filter_singleton]
    cases p a with
    | true => simp
    | false =>
      rw [cond_false, append_nil, ← hrest]
      refine Option.bind_congr fun i hi => ?_
      have hmem := mem_of_find?_eq_some hi
      rw [mem_reverse, mem_range] at hmem
      exact List.getElem?_append_left hmem

end Seq
