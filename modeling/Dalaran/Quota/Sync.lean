import Dalaran.Base.Runs
import Dalaran.Base.U64

/-
  The sync quota channel: byte accounting on a channel that has none.

  A crossbeam channel carries the messages and knows nothing of their sizes. Beside
  it stands one counter, which a sender raises before it hands a message over and a
  receiver lowers after it was given one. So a message counts from its reservation
  until its receiver has given the bytes back, wherever it is meanwhile, and the
  parties' steps come in any order in between.

  Assumed of the crossbeam channel: it is FIFO and reliable. It takes what it is
  given and hands it out once, in order. It is closed only when the last receiver
  is dropped, so `dropReceiver` leaves one.

  The counter is the total size of the messages reserved, queued, or dequeued and
  not yet given back. Where senders can wait, it exceeds the capacity only while all
  of its bytes are those of one oversized message (`OneOversized`), beside which
  messages of no bytes may be in flight. However the parties hand on what is in
  flight, no one is stuck before all of it has arrived (`handed_on`).

  Correspondence (Rust ↔ Lean):
    `Locked::bytes_in_flight`, `num_receivers` ↔ fields of `SyncChannel`
    `Shared::active_sender` ↔ `activeSender`, the call that holds the lock
    the crossbeam channel ↔ `queue`
    `Sender::send_impl` up to the end of its wait ↔ `SyncOp.send` (native), `sendOnWeb` (wasm32)
    `Sender::try_send` up to its reservation ↔ `SyncOp.trySend`
    `self.tx.send` of each of them ↔ `SyncOp.enqueue`
    `self.rx.recv`, `recv_timeout`, `try_recv`, `Select` ↔ `SyncOp.dequeue`
    `Receiver::manual_on_receive` ↔ `SyncOp.giveBack`
    `Clone for Receiver`, `Drop for Receiver` ↔ `SyncOp.cloneReceiver`, `dropReceiver`
-/

namespace Dalaran

open List Option Runs Prod

structure SizedMessage (α : Type) where
  msg : α
  sizeBytes : UInt64

/-- What the channel is compiled for: on the web a sender cannot wait. -/
inductive Target where
  | native
  | wasm32
  deriving DecidableEq

/-- The shared state, the crossbeam channel, and what senders and receivers have in hand. -/
structure SyncChannel (α : Type) where
  capacityBytes : UInt64
  bytesInFlight : UInt64
  numReceivers : Nat
  activeSender : Option Nat
  reserved : List (Nat × SizedMessage α)
  queue : List (SizedMessage α)
  dequeued : List (Nat × SizedMessage α)

/-- One atomic step of a sender or a receiver. -/
inductive SyncOp (α : Type) where
  | lockSender (sender : Nat)
  | send (sender : Nat) (msg : α) (sizeBytes : UInt64)
  | trySend (sender : Nat) (msg : α) (sizeBytes : UInt64)
  | sendOnWeb (sender : Nat) (msg : α) (sizeBytes : UInt64)
  | enqueue (sender : Nat)
  | unlockSender (sender : Nat)
  | dequeue (receiver : Nat)
  | giveBack (receiver : Nat)
  | cloneReceiver
  | dropReceiver

namespace SyncChannel

variable {α : Type}

def channel (capacityBytes : UInt64) : SyncChannel α :=
  { capacityBytes, bytesInFlight := 0, numReceivers := 1, activeSender := none, reserved := [],
    queue := [], dequeued := [] }

/-- Whether a sender has reserved the bytes of a message it has not handed over. -/
def hasReserved (ch : SyncChannel α) (sender : Nat) : Bool := ch.reserved.any (·.1 == sender)

/-- The condition `send` waits on: the bytes do not fit, or an oversized message meets other bytes. -/
def mustWait (ch : SyncChannel α) (sizeBytes : UInt64) : Bool :=
  if sizeBytes ≤ ch.capacityBytes then decide (ch.capacityBytes < ch.bytesInFlight + sizeBytes)
  else decide (0 < ch.bytesInFlight)

/-- The condition on which `try_send` gives up. -/
def isFull (ch : SyncChannel α) (sizeBytes : UInt64) : Bool :=
  decide (ch.capacityBytes < ch.bytesInFlight + sizeBytes) && decide (0 < ch.bytesInFlight)

/-- A sender counts a message that it is about to hand over. -/
def reserve (ch : SyncChannel α) (sender : Nat) (msg : α) (sizeBytes : UInt64) : SyncChannel α :=
  { ch with
    bytesInFlight := ch.bytesInFlight + sizeBytes
    reserved := ch.reserved ++ [(sender, ⟨msg, sizeBytes⟩)] }

def manualOnReceive (ch : SyncChannel α) (sizeBytes : UInt64) : SyncChannel α :=
  { ch with bytesInFlight := U64.saturatingSub ch.bytesInFlight sizeBytes }

/-- One atomic step, unless the party cannot take it there. -/
def step (target : Target) (ch : SyncChannel α) : SyncOp α → Option (SyncChannel α)
  | .lockSender s => if ch.activeSender = none then some { ch with activeSender := some s } else none
  | .send s msg sizeBytes =>
    if target = .native ∧ ch.activeSender = some s ∧ ch.hasReserved s = false then
      if ch.mustWait sizeBytes then
        -- waiting leaves everything as it is; a channel nobody reads is an error
        some (if ch.numReceivers = 0 then { ch with activeSender := none } else ch)
      else some (ch.reserve s msg sizeBytes)
    else none
  | .trySend s msg sizeBytes =>
    if ch.activeSender = some s ∧ ch.hasReserved s = false then
      some (if ch.isFull sizeBytes then { ch with activeSender := none } else ch.reserve s msg sizeBytes)
    else none
  | .sendOnWeb s msg sizeBytes =>
    if target = .wasm32 ∧ ch.hasReserved s = false then some (ch.reserve s msg sizeBytes) else none
  | .enqueue s =>
    (Runs.takeFirst (·.1 == s) ch.reserved).map fun found =>
      { ch with reserved := found.2, queue := ch.queue ++ [found.1.2] }
  | .unlockSender s =>
    if ch.activeSender = some s ∧ ch.hasReserved s = false then some { ch with activeSender := none }
    else none
  | .dequeue r =>
    match ch.queue with
    | [] => none
    | m :: rest => some { ch with queue := rest, dequeued := ch.dequeued ++ [(r, m)] }
  | .giveBack r =>
    (Runs.takeFirst (·.1 == r) ch.dequeued).map fun found =>
      { ch.manualOnReceive found.1.2.sizeBytes with dequeued := found.2 }
  | .cloneReceiver => some { ch with numReceivers := ch.numReceivers + 1 }
  | .dropReceiver =>
    if 1 < ch.numReceivers then some { ch with numReceivers := ch.numReceivers - 1 } else none

/-! ## What is in flight -/

/-- The messages that count: reserved, queued, or dequeued and not yet given back. -/
def inFlight (ch : SyncChannel α) : List (SizedMessage α) :=
  ch.reserved.map snd ++ ch.queue ++ ch.dequeued.map snd

end SyncChannel

def totalSize {α : Type} (messages : List (SizedMessage α)) : Nat :=
  (messages.map fun m => m.sizeBytes.toNat).sum

section

variable {α : Type}

@[simp] theorem totalSize_cons (m : SizedMessage α) (messages : List (SizedMessage α)) :
    totalSize (m :: messages) = m.sizeBytes.toNat + totalSize messages := rfl

theorem totalSize_perm {messages messages' : List (SizedMessage α)} (h : messages.Perm messages') :
    totalSize messages = totalSize messages' :=
  (h.map _).sum_nat

theorem le_totalSize {messages : List (SizedMessage α)} {m : SizedMessage α} (h : m ∈ messages) :
    m.sizeBytes.toNat ≤ totalSize messages := by
  obtain ⟨before, after, rfl⟩ := append_of_mem h
  rw [totalSize_perm perm_middle, totalSize_cons]
  omega

end

namespace SyncChannel

variable {α : Type}

def sizeOfSend : SyncOp α → Nat
  | .send _ _ sizeBytes | .trySend _ _ sizeBytes | .sendOnWeb _ _ sizeBytes => sizeBytes.toNat
  | _ => 0

/-- The sizes of what is in flight and of the message to send add up to less than 2^64. -/
def FitsCounter (ch : SyncChannel α) (op : SyncOp α) : Prop := totalSize ch.inFlight + sizeOfSend op < 2 ^ 64

instance (ch : SyncChannel α) (op : SyncOp α) : Decidable (ch.FitsCounter op) :=
  inferInstanceAs (Decidable (_ < _))

/-- All the bytes in flight are those of one message, which is larger than the capacity. -/
def OneOversized (ch : SyncChannel α) : Prop :=
  ∃ m ∈ ch.inFlight, ch.capacityBytes < m.sizeBytes ∧ totalSize ch.inFlight = m.sizeBytes.toNat

structure Accounted (target : Target) (capacityBytes : UInt64) (ch : SyncChannel α) : Prop where
  capacity : ch.capacityBytes = capacityBytes
  counter : ch.bytesInFlight.toNat = totalSize ch.inFlight
  bounded : target = .native → capacityBytes < ch.bytesInFlight → ch.OneOversized

/-! ## What a step does to the bytes in flight -/

/-- A sender may count a message of this size now. -/
def Admits (target : Target) (ch : SyncChannel α) (sizeBytes : UInt64) : Prop :=
  target = .native → ch.mustWait sizeBytes = false ∨ ch.isFull sizeBytes = false

/-- A step moves messages about, counts one more, or gives the bytes of one back. -/
inductive Effect (target : Target) (ch ch' : SyncChannel α) (op : SyncOp α) : Prop where
  | moved (hcapacity : ch'.capacityBytes = ch.capacityBytes) (hcounter : ch'.bytesInFlight = ch.bytesInFlight)
      (hinFlight : ch'.inFlight.Perm ch.inFlight)
  | counted (m : SizedMessage α) (hcapacity : ch'.capacityBytes = ch.capacityBytes)
      (hadmits : ch.Admits target m.sizeBytes) (hsize : sizeOfSend op = m.sizeBytes.toNat)
      (hcounter : ch'.bytesInFlight = ch.bytesInFlight + m.sizeBytes)
      (hinFlight : ch'.inFlight.Perm (m :: ch.inFlight))
  | gaveBack (m : SizedMessage α) (hcapacity : ch'.capacityBytes = ch.capacityBytes)
      (hcounter : ch'.bytesInFlight = U64.saturatingSub ch.bytesInFlight m.sizeBytes)
      (hinFlight : ch.inFlight.Perm (m :: ch'.inFlight))

theorem reserve_inFlight (ch : SyncChannel α) (sender : Nat) (msg : α) (sizeBytes : UInt64) :
    (ch.reserve sender msg sizeBytes).inFlight.Perm (⟨msg, sizeBytes⟩ :: ch.inFlight) := by
  simp only [reserve, inFlight, map_append, map_cons, map_nil, append_assoc]
  exact perm_middle

variable {ch : SyncChannel α} {target : Target} {op : SyncOp α}

theorem reserve_effect {sender : Nat} {msg : α} {sizeBytes : UInt64}
    (hadmits : ch.Admits target sizeBytes) (hsize : sizeOfSend op = sizeBytes.toNat) :
    Effect target ch (ch.reserve sender msg sizeBytes) op :=
  .counted ⟨msg, sizeBytes⟩ rfl hadmits hsize rfl (reserve_inFlight ch sender msg sizeBytes)

variable {m : SizedMessage α}

theorem enqueue_inFlight {s : Nat} {rest : List (Nat × SizedMessage α)} (h : ch.reserved.Perm ((s, m) :: rest)) :
    ({ ch with reserved := rest, queue := ch.queue ++ [m] } : SyncChannel α).inFlight.Perm ch.inFlight := by
  have hreserved : (ch.reserved.map snd).Perm (m :: rest.map snd) := h.map snd
  simp only [inFlight, append_assoc]
  calc List.Perm (rest.map snd ++ (ch.queue ++ ([m] ++ ch.dequeued.map snd)))
        (rest.map snd ++ m :: (ch.queue ++ ch.dequeued.map snd)) :=
        perm_middle.append_left _
    List.Perm _ (m :: rest.map snd ++ (ch.queue ++ ch.dequeued.map snd)) := perm_middle
    List.Perm _ (ch.reserved.map snd ++ (ch.queue ++ ch.dequeued.map snd)) :=
        hreserved.symm.append_right _

theorem dequeue_inFlight {r : Nat} {rest : List (SizedMessage α)} (h : ch.queue = m :: rest) :
    ({ ch with queue := rest, dequeued := ch.dequeued ++ [(r, m)] } : SyncChannel α).inFlight.Perm
      ch.inFlight := by
  simp only [inFlight, h, map_append, map_cons, map_nil, append_assoc]
  apply Perm.append_left
  rw [← append_assoc]
  exact perm_append_comm

theorem giveBack_inFlight {r : Nat} {rest : List (Nat × SizedMessage α)} (h : ch.dequeued.Perm ((r, m) :: rest)) :
    ch.inFlight.Perm (m :: ({ ch.manualOnReceive m.sizeBytes with dequeued := rest } : SyncChannel α).inFlight) := by
  have hdequeued : (ch.dequeued.map snd).Perm (m :: rest.map snd) := h.map snd
  exact (hdequeued.append_left _).trans perm_middle

variable {ch' : SyncChannel α}

theorem step_effect (h : step target ch op = some ch') : Effect target ch ch' op := by
  cases op with
  | lockSender s | unlockSender s =>
    obtain ⟨-, heq⟩ := ite_none_right_eq_some.mp h
    cases heq
    exact .moved rfl rfl (.refl _)
  | send s msg sizeBytes =>
    obtain ⟨-, heq⟩ := ite_none_right_eq_some.mp h
    split at heq
    · cases heq
      split <;> exact .moved rfl rfl (.refl _)
    · next hwait =>
      cases heq
      exact reserve_effect (fun _ => .inl (Bool.eq_false_iff.mpr hwait)) rfl
  | trySend s msg sizeBytes =>
    obtain ⟨-, heq⟩ := ite_none_right_eq_some.mp h
    cases heq
    split
    · exact .moved rfl rfl (.refl _)
    · next hfull => exact reserve_effect (fun _ => .inr (Bool.eq_false_iff.mpr hfull)) rfl
  | sendOnWeb s msg sizeBytes =>
    obtain ⟨⟨htarget, -⟩, heq⟩ := ite_none_right_eq_some.mp h
    cases heq
    apply reserve_effect _ rfl
    intro hnative
    exact absurd (htarget.symm.trans hnative) (by decide)
  | enqueue s =>
    obtain ⟨⟨⟨s', m⟩, rest⟩, hfound, heq⟩ := map_eq_some_iff.mp h
    cases heq
    exact .moved rfl rfl (enqueue_inFlight (takeFirst_spec hfound).2)
  | dequeue r =>
    cases hqueue : ch.queue with
    | nil => simp [step, hqueue] at h
    | cons m rest =>
      simp only [step, hqueue, Option.some.injEq] at h
      subst h
      exact .moved rfl rfl (dequeue_inFlight hqueue)
  | giveBack r =>
    obtain ⟨⟨⟨r', m⟩, rest⟩, hfound, heq⟩ := map_eq_some_iff.mp h
    cases heq
    exact .gaveBack m rfl rfl (giveBack_inFlight (takeFirst_spec hfound).2)
  | cloneReceiver =>
    cases h
    exact .moved rfl rfl (.refl _)
  | dropReceiver =>
    obtain ⟨-, heq⟩ := ite_none_right_eq_some.mp h
    cases heq
    exact .moved rfl rfl (.refl _)

/-! ## What every step keeps -/

theorem channel_accounted (target : Target) (capacityBytes : UInt64) :
    Accounted target capacityBytes (channel (α := α) capacityBytes) where
  capacity := rfl
  counter := rfl
  bounded := fun _ h => absurd h (by simp [channel])

theorem OneOversized.of_perm (h : ch.OneOversized) (hcapacity : ch'.capacityBytes = ch.capacityBytes)
    (hperm : ch'.inFlight.Perm ch.inFlight) :
    ch'.OneOversized := by
  obtain ⟨m, hm, hover, htotal⟩ := h
  exact ⟨m, hperm.mem_iff.mpr hm, hcapacity ▸ hover, (totalSize_perm hperm).trans htotal⟩

theorem oneOversized_of_counted (hadmits : ch.Admits .native m.sizeBytes)
    (hcounter : ch.bytesInFlight.toNat = totalSize ch.inFlight)
    (hfits : totalSize ch.inFlight + m.sizeBytes.toNat < 2 ^ 64) (hcapacity : ch'.capacityBytes = ch.capacityBytes)
    (hinFlight : ch'.inFlight.Perm (m :: ch.inFlight))
    (hover : ch.capacityBytes < ch.bytesInFlight + m.sizeBytes) : ch'.OneOversized := by
  have hsum : (ch.bytesInFlight + m.sizeBytes).toNat = ch.bytesInFlight.toNat + m.sizeBytes.toNat :=
    U64.toNat_add_of_lt (by omega)
  -- both ways of being admitted above the capacity ask for a counter at zero
  have hzero : ch.bytesInFlight.toNat = 0 := by
    have hnot : ¬ 0 < ch.bytesInFlight := by
      rcases hadmits rfl with hwait | hfull
      · simp only [mustWait] at hwait
        split at hwait
        · exact absurd hover (of_decide_eq_false hwait)
        · exact of_decide_eq_false hwait
      · simp only [isFull, hover, decide_true, Bool.true_and] at hfull
        exact of_decide_eq_false hfull
    rw [UInt64.lt_iff_toNat_lt, UInt64.toNat_zero] at hnot
    omega
  have htotal : totalSize ch'.inFlight = m.sizeBytes.toNat := by
    rw [totalSize_perm hinFlight, totalSize_cons]
    omega
  refine ⟨m, hinFlight.mem_iff.mpr mem_cons_self, ?_, htotal⟩
  rw [hcapacity, UInt64.lt_iff_toNat_lt]
  rw [UInt64.lt_iff_toNat_lt] at hover
  omega

theorem OneOversized.of_gaveBack (h : ch.OneOversized) (hcapacity : ch'.capacityBytes = ch.capacityBytes)
    (hinFlight : ch.inFlight.Perm (m :: ch'.inFlight))
    (hover : ch'.capacityBytes.toNat < totalSize ch'.inFlight) : ch'.OneOversized := by
  obtain ⟨big, hbig, hbigOver, htotal⟩ := h
  have hsum := totalSize_perm hinFlight
  rw [totalSize_cons, htotal] at hsum
  rcases mem_cons.mp (hinFlight.mem_iff.mp hbig) with heq | hrest
  · rw [← heq] at hsum
    omega
  · have hle := le_totalSize hrest
    exact ⟨big, hrest, hcapacity ▸ hbigOver, by omega⟩

variable {capacityBytes : UInt64}

theorem step_accounted (h : Accounted target capacityBytes ch)
    (hfits : ch.FitsCounter op) (hstep : step target ch op = some ch') :
    Accounted target capacityBytes ch' := by
  have hcounter := h.counter
  cases step_effect hstep with
  | moved hcapacity hsame hinFlight =>
    refine ⟨hcapacity.trans h.capacity, ?_, fun hnative hover => ?_⟩
    · rw [hsame, hcounter, totalSize_perm hinFlight]
    · exact (h.bounded hnative (hsame ▸ hover)).of_perm hcapacity hinFlight
  | counted m hcapacity hadmits hsize hnew hinFlight =>
    have hfits : totalSize ch.inFlight + m.sizeBytes.toNat < 2 ^ 64 := hsize ▸ hfits
    refine ⟨hcapacity.trans h.capacity, ?_, fun hnative hover => ?_⟩
    · rw [hnew, U64.toNat_add_of_lt (by omega), totalSize_perm hinFlight, totalSize_cons, hcounter, Nat.add_comm]
    · subst hnative
      rw [hnew, ← h.capacity] at hover
      exact oneOversized_of_counted hadmits hcounter hfits hcapacity hinFlight hover
  | gaveBack m hcapacity hnew hinFlight =>
    have hsum := totalSize_perm hinFlight
    rw [totalSize_cons] at hsum
    have hcounter' : ch'.bytesInFlight.toNat = totalSize ch'.inFlight := by
      rw [hnew, U64.toNat_saturatingSub]
      omega
    refine ⟨hcapacity.trans h.capacity, hcounter', fun hnative hover => ?_⟩
    rw [UInt64.lt_iff_toNat_lt, hcounter', ← h.capacity, ← hcapacity] at hover
    apply OneOversized.of_gaveBack _ hcapacity hinFlight hover
    apply h.bounded hnative
    rw [UInt64.lt_iff_toNat_lt, ← h.capacity, ← hcapacity]
    omega

theorem run_accounted {ops : List (SyncOp α)}
    (hfits : Runs.StepsMeet (step target) FitsCounter (channel capacityBytes) ops)
    (hrun : Runs.run (step target) (channel capacityBytes) ops = some ch) :
    Accounted target capacityBytes ch :=
  run_induction (fun _ _ _ h hfits hstep => step_accounted h hfits hstep) ops _ ch
    (channel_accounted target capacityBytes) hfits hrun

theorem OneOversized.alone (h : ch.OneOversized) :
    ∃ m others, ch.inFlight.Perm (m :: others) ∧ ch.capacityBytes < m.sizeBytes ∧
      ∀ other ∈ others, other.sizeBytes = 0 := by
  obtain ⟨m, hm, hover, htotal⟩ := h
  obtain ⟨before, after, hsplit⟩ := append_of_mem hm
  have hperm : ch.inFlight.Perm (m :: (before ++ after)) := by
    rw [hsplit]
    exact perm_middle
  refine ⟨m, before ++ after, hperm, hover, fun other hother => ?_⟩
  have hle := le_totalSize hother
  rw [totalSize_perm hperm, totalSize_cons] at htotal
  apply UInt64.toNat.inj
  rw [UInt64.toNat_zero]
  omega

/-! ## What is left to hand on -/

/-- The steps that hand on a message that is in flight. -/
def handsOn : SyncOp α → Bool
  | .enqueue _ | .dequeue _ | .giveBack _ => true
  | _ => false

/-- The steps until every message in flight has been received and given back. -/
def work (ch : SyncChannel α) : Nat := 3 * ch.reserved.length + 2 * ch.queue.length + ch.dequeued.length

theorem step_work (hop : handsOn op = true) (h : step target ch op = some ch') : ch'.work + 1 = ch.work := by
  cases op with
  | enqueue s =>
    obtain ⟨found, hfound, rfl⟩ := map_eq_some_iff.mp h
    have hlength := (takeFirst_spec hfound).2.length_eq
    simp only [work, length_append, length_cons, length_nil] at hlength ⊢
    omega
  | dequeue r =>
    cases hqueue : ch.queue with
    | nil => simp [step, hqueue] at h
    | cons m rest =>
      simp only [step, hqueue, Option.some.injEq] at h
      subst h
      simp only [work, hqueue, length_append, length_cons, length_nil]
      omega
  | giveBack r =>
    obtain ⟨found, hfound, rfl⟩ := map_eq_some_iff.mp h
    have hlength := (takeFirst_spec hfound).2.length_eq
    simp only [work, manualOnReceive, length_cons] at hlength ⊢
    omega
  | _ => cases hop

theorem exists_step (target : Target) (h : ch.inFlight ≠ []) :
    ∃ op, handsOn op = true ∧ (step target ch op).isSome = true := by
  by_cases hreserved : ch.reserved = []
  · by_cases hqueue : ch.queue = []
    · obtain ⟨⟨r, m⟩, rest, hdequeued⟩ : ∃ held rest, ch.dequeued = held :: rest :=
        exists_cons_of_ne_nil fun hnil => h (by simp [inFlight, hreserved, hqueue, hnil])
      exact ⟨.giveBack r, rfl, by simp [step, hdequeued, takeFirst]⟩
    · obtain ⟨m, rest, hcons⟩ := exists_cons_of_ne_nil hqueue
      exact ⟨.dequeue 0, rfl, by simp [step, hcons]⟩
  · obtain ⟨⟨s, m⟩, rest, hcons⟩ := exists_cons_of_ne_nil hreserved
    exact ⟨.enqueue s, rfl, by simp [step, hcons, takeFirst]⟩

theorem Accounted.idle (h : Accounted target capacityBytes ch) (hnil : ch.inFlight = [])
    (sizeBytes : UInt64) : ch.mustWait sizeBytes = false ∧ ch.isFull sizeBytes = false := by
  have hzero : ch.bytesInFlight = 0 := by
    apply UInt64.toNat.inj
    rw [h.counter, hnil]
    rfl
  simp only [mustWait, isFull, hzero, UInt64.zero_add, UInt64.lt_irrefl, decide_false, Bool.and_false, and_true]
  split
  · next hle => exact decide_eq_false (UInt64.not_lt.mpr hle)
  · rfl

/-! ## Main results -/

/-- Parties that only hand on what is in flight, in any order, are done after the same number of
steps. None is stuck before that, and then no sender waits or gives up. -/
theorem handed_on (target : Target) (capacityBytes : UInt64) (ops handing : List (SyncOp α)) (ch ch' : SyncChannel α)
    (hfits : Runs.StepsMeet (step target) FitsCounter (channel capacityBytes) ops)
    (hrun : Runs.run (step target) (channel capacityBytes) ops = some ch)
    (hhanding : ∀ op ∈ handing, handsOn op = true) (hrun' : Runs.run (step target) ch handing = some ch') :
    handing.length + ch'.work = ch.work ∧
      ((∃ op, handsOn op = true ∧ (step target ch' op).isSome = true) ∨
        ch'.inFlight = [] ∧ ∀ sizeBytes, ch'.mustWait sizeBytes = false ∧ ch'.isFull sizeBytes = false) := by
  have hmeets : StepsMeet (step target) (fun _ op => handsOn op = true) ch handing :=
    .of_forall (fun op hop _ => hhanding op hop) ch
  refine ⟨run_work (fun _ _ _ => step_work) handing ch ch' hmeets hrun', ?_⟩
  by_cases hnil : ch'.inFlight = []
  · right
    -- handing on sends nothing, so the counter has room for every step
    have haccounted : Accounted target capacityBytes ch' :=
      run_induction (fun ch op _ h hop hstep => step_accounted h (by
        have hlt := ch.bytesInFlight.toNat_lt
        have hsize : sizeOfSend op = 0 := by cases op <;> first | rfl | cases hop
        have hcounter := h.counter
        rw [FitsCounter]
        omega) hstep) handing ch ch' (run_accounted hfits hrun) hmeets hrun'
    exact ⟨hnil, haccounted.idle hnil⟩
  · exact .inl (exists_step target hnil)

/-- A sender has counted a message and not handed it over yet; the next steps give its bytes back. -/
theorem handed_on_to_receiver :
    ∃ ch ch' : SyncChannel Unit, Runs.run (step .native) (channel 2) [.lockSender 0, .send 0 () 3] = some ch ∧
      Runs.run (step .native) ch [.enqueue 0, .dequeue 1, .giveBack 1] = some ch' ∧
      [SyncOp.enqueue (α := Unit) 0, .dequeue 1, .giveBack 1].length + ch'.work = ch.work ∧
      ((∃ op, handsOn op = true ∧ (step .native ch' op).isSome = true) ∨
        ch'.inFlight = [] ∧ ∀ sizeBytes, ch'.mustWait sizeBytes = false ∧ ch'.isFull sizeBytes = false) := by
  refine ⟨_, _, rfl, rfl, handed_on .native 2 [.lockSender 0, .send 0 () 3] [.enqueue 0, .dequeue 1, .giveBack 1]
    _ _ ?_ rfl (by decide) rfl⟩
  exact .cons rfl (by decide) (.cons rfl (by decide) trivial)

/-- The counter is the size of what is in flight, so nothing given back saturates; it exceeds the
capacity only while one oversized message is in flight, beside messages of no bytes. -/
theorem bytesInFlight_accounted (target : Target) (capacityBytes : UInt64) (ops : List (SyncOp α))
    (ch : SyncChannel α) (hfits : Runs.StepsMeet (step target) FitsCounter (channel capacityBytes) ops)
    (hrun : Runs.run (step target) (channel capacityBytes) ops = some ch) :
    ch.bytesInFlight.toNat = totalSize ch.inFlight ∧ (∀ held ∈ ch.dequeued, held.2.sizeBytes ≤ ch.bytesInFlight) ∧
      (target = .native → capacityBytes < ch.bytesInFlight →
        ∃ m others, ch.inFlight.Perm (m :: others) ∧ capacityBytes < m.sizeBytes ∧
          ∀ other ∈ others, other.sizeBytes = 0) := by
  have h := run_accounted hfits hrun
  refine ⟨h.counter, fun held hheld => ?_, fun hnative hover => ?_⟩
  · rw [UInt64.le_iff_toNat_le, h.counter]
    apply le_totalSize
    exact mem_append_right _ (mem_map_of_mem hheld)
  · rw [← h.capacity]
    exact (h.bounded hnative hover).alone

/-- A sender hands over a message that fills the channel, and a receiver takes it out. -/
theorem bytesInFlight_accounted_of_dequeued :
    ∃ ch : SyncChannel Unit, Runs.run (step .native) (channel 2)
        [.lockSender 0, .send 0 () 2, .enqueue 0, .unlockSender 0, .dequeue 1] = some ch ∧
      ch.bytesInFlight.toNat = totalSize ch.inFlight ∧
      (∀ held ∈ ch.dequeued, held.2.sizeBytes ≤ ch.bytesInFlight) ∧
      (Target.native = .native → 2 < ch.bytesInFlight →
        ∃ m others, ch.inFlight.Perm (m :: others) ∧ 2 < m.sizeBytes ∧ ∀ other ∈ others, other.sizeBytes = 0) := by
  refine ⟨_, rfl, bytesInFlight_accounted .native 2
    [.lockSender 0, .send 0 () 2, .enqueue 0, .unlockSender 0, .dequeue 1] _ ?_ rfl⟩
  refine .cons rfl (by decide) (.cons rfl (by decide) (.cons rfl (by decide) ?_))
  exact .cons rfl (by decide) (.cons rfl (by decide) trivial)

/-- A message of no bytes is queued when a sender that waits for an oversized message to be alone
finds no bytes in flight: both are in flight then, and the counter is above the capacity. -/
theorem oversized_not_alone :
    ¬ ∀ (capacityBytes : UInt64) (ops : List (SyncOp Unit)) (ch : SyncChannel Unit),
      Runs.StepsMeet (step .native) FitsCounter (channel capacityBytes) ops →
      Runs.run (step .native) (channel capacityBytes) ops = some ch → capacityBytes < ch.bytesInFlight →
      ∃ m, ch.inFlight = [m] ∧ capacityBytes < m.sizeBytes := by
  intro h
  obtain ⟨m, hm, -⟩ := h 1 [.lockSender 0, .send 0 () 0, .enqueue 0, .unlockSender 0, .lockSender 1, .send 1 () 2]
    _ (.cons rfl (by decide) <| .cons rfl (by decide) <| .cons rfl (by decide) <| .cons rfl (by decide) <|
      .cons rfl (by decide) <| .cons rfl (by decide) trivial) rfl (by decide)
  have hlength : 2 = 1 := congrArg List.length hm
  omega

end SyncChannel
end Dalaran
