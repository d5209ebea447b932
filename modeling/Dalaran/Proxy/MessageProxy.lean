import Mathlib.Algebra.GroupWithZero.Nat
import Mathlib.Data.List.Infix
import Mathlib.Data.List.Induction
import Mathlib.Order.MinMax
import Mathlib.Tactic.Common

/-
  The message proxy of the gRPC server (`dl_grpc_server`).

  One event loop takes the messages in. It broadcasts each to the clients that are
  there and keeps it for those to come, in one of three queues; when the memory limit
  is exceeded, the oldest messages are dropped. A client gets the history as it is
  when it joins, and every message from then on.

  Assumed of the broadcast channel: what is sent is delivered, in order, to everyone
  who has subscribed (`Quota/Delivery.lean`). Sizes are natural numbers, those of
  messages in memory. A client that leaves, and memory snapshots, are left out. So is
  what `PlaybackBehavior::NewestFirst` does to a client's stream: `PriorityMerge` takes
  the new messages first and the history when there are none.

  Correspondence (Rust ↔ Lean):
    `MessageBuffer::add_log_msg` ↔ `LogOrTableMsg.retention`, the queue it pushes to
    the loops in `MessageBuffer::gc` ↔ `MsgQueue.popUntil`
    the answer to `Event::NewClient` ↔ `Client`, with what it is sent later
-/

namespace Dalaran.Proxy

open List

inductive StoreKind where
  | unspecified
  | recording
  | blueprint
  deriving DecidableEq

inductive LogMsg where
  | setStoreInfo
  | arrowMsg (storeKind : Option StoreKind) (isStatic : Option Bool)
  | blueprintActivationCommand

inductive MsgKind where
  | logMsg (msg : Option LogMsg)
  | table
  | uiCommand

structure LogOrTableMsg (α : Type) where
  kind : MsgKind
  totalSizeBytes : Nat
  payload : α

inductive Retention where
  | disposable
  | static
  | persistent
  deriving DecidableEq

variable {α : Type}

/-- The queue a message is kept in; a log message without content is not kept. -/
def LogOrTableMsg.retention (m : LogOrTableMsg α) : Option Retention :=
  match m.kind with
  | .logMsg none => none
  | .logMsg (some .setStoreInfo) => some .persistent
  | .logMsg (some .blueprintActivationCommand) => some .persistent
  | .logMsg (some (.arrowMsg storeKind isStatic)) =>
    if storeKind = some .blueprint then some .persistent
    else if isStatic = some true then some .static
    else some .disposable
  | .table => some .disposable
  | .uiCommand => some .disposable

/-! ## Queues -/

/-- A queue of messages in order of arrival, with their total size. -/
structure MsgQueue (α : Type) where
  queue : List (LogOrTableMsg α)
  sizeBytes : Nat
  sizeBytes_eq : sizeBytes = (queue.map (·.totalSizeBytes)).sum

namespace MsgQueue

def empty : MsgQueue α := ⟨[], 0, rfl⟩

def pushBack (q : MsgQueue α) (m : LogOrTableMsg α) : MsgQueue α :=
  ⟨q.queue ++ [m], q.sizeBytes + m.totalSizeBytes, by simp [q.sizeBytes_eq]⟩

def popFront (q : MsgQueue α) : Option (LogOrTableMsg α × MsgQueue α) :=
  match h : q.queue with
  | [] => none
  | m :: rest => some (m, ⟨rest, q.sizeBytes - m.totalSizeBytes, by simp [q.sizeBytes_eq, h]⟩)

theorem popFront_eq_none {q : MsgQueue α} (h : q.popFront = none) : q.queue = [] := by
  unfold popFront at h
  split at h
  · assumption
  · cases h

theorem popFront_eq_some {q rest : MsgQueue α} {m : LogOrTableMsg α} (h : q.popFront = some (m, rest)) :
    q.queue = m :: rest.queue := by
  unfold popFront at h
  split at h
  · cases h
  · cases h
    assumption

def popUntil (isSmall : MsgQueue α → Bool) (q : MsgQueue α) : MsgQueue α :=
  match _h : q.popFront with
  | none => q
  | some (_, rest) => if isSmall rest then rest else popUntil isSmall rest
termination_by q.queue.length
decreasing_by simp [popFront_eq_some _h]

theorem popUntil_spec (isSmall : MsgQueue α → Bool) (q : MsgQueue α) :
    (popUntil isSmall q).queue <:+ q.queue ∧
      ((popUntil isSmall q).queue = [] ∨ isSmall (popUntil isSmall q) = true) := by
  fun_induction popUntil isSmall q with
  | case1 q h => exact ⟨suffix_rfl, .inl (popFront_eq_none h)⟩
  | case2 q m rest h hsmall =>
    rw [popFront_eq_some h]
    exact ⟨suffix_cons _ _, .inr hsmall⟩
  | case3 q m rest h hsmall ih =>
    rw [popFront_eq_some h]
    exact ⟨ih.1.trans (suffix_cons _ _), ih.2⟩

end MsgQueue

/-! ## The history -/

structure MessageBuffer (α : Type) where
  disposable : MsgQueue α
  static : MsgQueue α
  persistent : MsgQueue α

inductive PlaybackBehavior where
  | oldestFirst
  | newestFirst

namespace MessageBuffer

def empty : MessageBuffer α := ⟨.empty, .empty, .empty⟩

def sizeBytes (b : MessageBuffer α) : Nat := b.disposable.sizeBytes + b.static.sizeBytes + b.persistent.sizeBytes

def all (b : MessageBuffer α) : PlaybackBehavior → List (LogOrTableMsg α)
  | .oldestFirst => b.persistent.queue ++ b.static.queue ++ b.disposable.queue
  | .newestFirst => b.persistent.queue ++ b.static.queue.reverse ++ b.disposable.queue.reverse

def addMsg (b : MessageBuffer α) (m : LogOrTableMsg α) : MessageBuffer α :=
  match m.retention with
  | none => b
  | some .disposable => { b with disposable := b.disposable.pushBack m }
  | some .static => { b with static := b.static.pushBack m }
  | some .persistent => { b with persistent := b.persistent.pushBack m }

def gc (b : MessageBuffer α) (maxBytes : Nat) : MessageBuffer α :=
  if b.sizeBytes ≤ maxBytes then b
  else
    let b := { b with disposable := b.disposable.popUntil fun q => { b with disposable := q }.sizeBytes < maxBytes }
    if maxBytes < b.sizeBytes then
      { b with static := b.static.popUntil fun q => { b with static := q }.sizeBytes < maxBytes }
    else b

theorem gc_drops (b : MessageBuffer α) (maxBytes : Nat) :
    (b.gc maxBytes).persistent = b.persistent ∧ (b.gc maxBytes).static.queue <:+ b.static.queue ∧
      (b.gc maxBytes).disposable.queue <:+ b.disposable.queue ∧
      ((b.gc maxBytes).static.queue ≠ b.static.queue → (b.gc maxBytes).disposable.queue = []) ∧
      (b.gc maxBytes).sizeBytes ≤ max maxBytes b.persistent.sizeBytes := by
  unfold gc
  split
  · next hfits => exact ⟨rfl, suffix_rfl, suffix_rfl, fun h => absurd rfl h, le_max_of_le_left hfits⟩
  · obtain ⟨hsuffix, hdone⟩ :=
      MsgQueue.popUntil_spec (fun q => { b with disposable := q }.sizeBytes < maxBytes) b.disposable
    dsimp only
    split
    · next hover =>
      have hnil := hdone.resolve_right fun hsmall => Nat.lt_asymm hover (of_decide_eq_true hsmall)
      generalize b.disposable.popUntil _ = rest at *
      obtain ⟨hstatic, hdone'⟩ := MsgQueue.popUntil_spec
        (fun q => { b with disposable := rest, static := q }.sizeBytes < maxBytes) b.static
      generalize b.static.popUntil _ = static at *
      refine ⟨rfl, hstatic, hsuffix, fun _ => hnil, ?_⟩
      rcases hdone' with hempty | hsmall
      · refine le_max_of_le_right ?_
        simp [sizeBytes, MsgQueue.sizeBytes_eq, hnil, hempty]
      · exact le_max_of_le_left (Nat.le_of_lt (of_decide_eq_true hsmall))
    · next hfits =>
      exact ⟨rfl, suffix_rfl, hsuffix, fun h => absurd rfl h, le_max_of_le_left (Nat.le_of_not_lt hfits)⟩

end MessageBuffer

/-! ## The event loop -/

/-- A client: the history it was given, and what was broadcast since. -/
structure Client (α : Type) where
  history : List (LogOrTableMsg α)
  channel : List (LogOrTableMsg α)

inductive Event (α : Type) where
  | newClient
  | message (msg : LogOrTableMsg α)

structure EventLoop (α : Type) where
  playbackBehavior : PlaybackBehavior
  memoryLimit : Option Nat
  history : MessageBuffer α
  clients : List (Client α)

namespace EventLoop

def new (playbackBehavior : PlaybackBehavior) (memoryLimit : Option Nat) : EventLoop α :=
  ⟨playbackBehavior, memoryLimit, .empty, []⟩

def gcIfUsingTooMuchRam (l : EventLoop α) : MessageBuffer α :=
  match l.memoryLimit with
  | none => l.history
  | some maxBytes => l.history.gc maxBytes

/-- One turn of the loop. No history is kept under a limit of zero. -/
def handle (l : EventLoop α) : Event α → EventLoop α
  | .newClient => { l with clients := l.clients ++ [⟨l.history.all l.playbackBehavior, []⟩] }
  | .message m => { l with
      clients := l.clients.map fun c => { c with channel := c.channel ++ [m] }
      history := if l.memoryLimit = some 0 then l.history else l.gcIfUsingTooMuchRam.addMsg m }

/-- The loop once it has handled some events, in the order in which they came. -/
def run (playbackBehavior : PlaybackBehavior) (memoryLimit : Option Nat) (events : List (Event α)) : EventLoop α :=
  events.foldl handle (new playbackBehavior memoryLimit)

end EventLoop

def Event.message? : Event α → Option (LogOrTableMsg α)
  | .newClient => none
  | .message m => some m

def received (events : List (Event α)) : List (LogOrTableMsg α) := events.filterMap Event.message?

def kept (r : Retention) (msgs : List (LogOrTableMsg α)) : List (LogOrTableMsg α) :=
  msgs.filter fun m => m.retention = some r

/-! ## What is remembered -/

def MessageBuffer.queueOf (b : MessageBuffer α) : Retention → List (LogOrTableMsg α)
  | .disposable => b.disposable.queue
  | .static => b.static.queue
  | .persistent => b.persistent.queue

/-- A history of some messages: the latest of each queue, and all that are never dropped. -/
structure Remembers (memoryLimit : Option Nat) (b : MessageBuffer α) (msgs : List (LogOrTableMsg α)) : Prop where
  latest : ∀ r, b.queueOf r <:+ kept r msgs
  whole : ∀ r, r = .persistent ∨ memoryLimit = none → b.queueOf r = kept r msgs

section Remembers

variable {memoryLimit : Option Nat} {b : MessageBuffer α} {msgs : List (LogOrTableMsg α)}

theorem kept_concat (r : Retention) (msgs : List (LogOrTableMsg α)) (m : LogOrTableMsg α) :
    kept r (msgs ++ [m]) = kept r msgs ++ if m.retention = some r then [m] else [] := by
  by_cases h : m.retention = some r <;> simp [kept, h]

theorem addMsg_queueOf (r : Retention) (b : MessageBuffer α) (m : LogOrTableMsg α) :
    (b.addMsg m).queueOf r = b.queueOf r ++ if m.retention = some r then [m] else [] := by
  unfold MessageBuffer.addMsg
  cases hr : m.retention with
  | none => simp
  | some r' => cases r <;> cases r' <;> simp [MessageBuffer.queueOf, MsgQueue.pushBack]

theorem addMsg_sizeBytes (b : MessageBuffer α) (m : LogOrTableMsg α) :
    (b.addMsg m).sizeBytes ≤ b.sizeBytes + m.totalSizeBytes ∧
      b.persistent.sizeBytes ≤ (b.addMsg m).persistent.sizeBytes := by
  unfold MessageBuffer.addMsg MessageBuffer.sizeBytes MsgQueue.pushBack
  split <;> constructor <;> simp <;> omega

theorem Remembers.addMsg (h : Remembers memoryLimit b msgs) (m : LogOrTableMsg α) :
    Remembers memoryLimit (b.addMsg m) (msgs ++ [m]) := by
  refine ⟨fun r => ?_, fun r hr => ?_⟩
  · obtain ⟨dropped, hdropped⟩ := h.latest r
    rw [addMsg_queueOf, kept_concat, ← hdropped, append_assoc]
    exact suffix_append _ _
  · rw [addMsg_queueOf, kept_concat, h.whole r hr]

theorem Remembers.gc {maxBytes : Nat} (h : Remembers (some maxBytes) b msgs) :
    Remembers (some maxBytes) (b.gc maxBytes) msgs := by
  obtain ⟨hpersistent, hstatic, hdisposable, -, -⟩ := b.gc_drops maxBytes
  have hsame : (b.gc maxBytes).queueOf .persistent = b.queueOf .persistent := congrArg MsgQueue.queue hpersistent
  refine ⟨fun r => ?_, fun r hr => ?_⟩
  · cases r with
    | disposable => exact hdisposable.trans (h.latest .disposable)
    | static => exact hstatic.trans (h.latest .static)
    | persistent => exact hsame ▸ h.latest .persistent
  · obtain rfl := hr.resolve_right nofun
    exact hsame.trans (h.whole .persistent hr)

end Remembers

/-! ## Runs -/

/-- A client has the history of the messages that came before it, and the messages that came after. -/
def Served (playbackBehavior : PlaybackBehavior) (memoryLimit : Option Nat) (msgs : List (LogOrTableMsg α))
    (c : Client α) : Prop :=
  ∃ before b, msgs = before ++ c.channel ∧ Remembers memoryLimit b before ∧ c.history = b.all playbackBehavior

open EventLoop

variable {playbackBehavior : PlaybackBehavior} {memoryLimit : Option Nat}

theorem run_options (events : List (Event α)) :
    (run playbackBehavior memoryLimit events).memoryLimit = memoryLimit ∧
      (run playbackBehavior memoryLimit events).playbackBehavior = playbackBehavior := by
  induction events using reverseRecOn with
  | nil => exact ⟨rfl, rfl⟩
  | append_singleton events event ih =>
    rw [run, foldl_concat]
    cases event <;> exact ih

theorem run_served (hlimit : memoryLimit ≠ some 0) (events : List (Event α)) :
    let l := run playbackBehavior memoryLimit events
    Remembers memoryLimit l.history (received events) ∧
      ∀ c ∈ l.clients, Served playbackBehavior memoryLimit (received events) c := by
  induction events using reverseRecOn with
  | nil => exact ⟨⟨fun r => by cases r <;> exact suffix_rfl, fun r _ => by cases r <;> rfl⟩, nofun⟩
  | append_singleton events event ih =>
    obtain ⟨hremembers, hclients⟩ := ih
    obtain ⟨hmemory, hplayback⟩ := @run_options α playbackBehavior memoryLimit events
    rw [run, foldl_concat, ← run, received, filterMap_append, ← received]
    generalize run playbackBehavior memoryLimit events = l at *
    cases event with
    | newClient =>
      refine ⟨(append_nil (received events)).symm ▸ hremembers, fun c hc => ?_⟩
      rcases mem_append.mp hc with hold | hnew
      · exact (append_nil (received events)).symm ▸ hclients c hold
      · cases mem_singleton.mp hnew
        exact ⟨received events, l.history, rfl, hremembers, hplayback ▸ rfl⟩
    | message m =>
      refine ⟨?_, fun c hc => ?_⟩
      · show Remembers _ (if l.memoryLimit = some 0 then l.history else l.gcIfUsingTooMuchRam.addMsg m) _
        rw [if_neg (hmemory ▸ hlimit), gcIfUsingTooMuchRam, hmemory]
        cases memoryLimit with
        | none => exact hremembers.addMsg m
        | some maxBytes => exact hremembers.gc.addMsg m
      · obtain ⟨c, hold, rfl⟩ := mem_map.mp hc
        obtain ⟨before, b, hmsgs, hb⟩ := hclients c hold
        exact ⟨before, b, hmsgs ▸ append_assoc .., hb⟩

/-- The history never exceeds the limit, or its persistent messages, by more than one message. -/
theorem history_bounded (limit largest : Nat) (events : List (Event α))
    (hlargest : ∀ m ∈ received events, m.totalSizeBytes ≤ largest) :
    let history := (run playbackBehavior (some limit) events).history
    history.sizeBytes ≤ max limit history.persistent.sizeBytes + largest := by
  induction events using reverseRecOn with
  | nil => exact Nat.zero_le _
  | append_singleton events event ih =>
    have hmemory := (@run_options α playbackBehavior (some limit) events).1
    rw [received, filterMap_append, ← received] at hlargest
    have hbefore := ih fun m hm => hlargest m (mem_append_left _ hm)
    rw [run, foldl_concat, ← run]
    generalize run playbackBehavior (some limit) events = l at *
    cases event with
    | newClient => exact hbefore
    | message m =>
      simp only [handle, gcIfUsingTooMuchRam, hmemory]
      split
      · exact hbefore
      · obtain ⟨hpersistent, -, -, -, hfits⟩ := l.history.gc_drops limit
        have hadded := addMsg_sizeBytes (l.history.gc limit) m
        have hm := hlargest m (mem_append_right _ (mem_singleton_self m))
        rw [hpersistent] at hadded
        omega

theorem history_bounded_by_three :
    let history := (run .oldestFirst (some 10) (replicate 3 (.message (⟨.table, 8, ()⟩ : LogOrTableMsg Unit)))).history
    history.sizeBytes ≤ max 10 history.persistent.sizeBytes + 8 :=
  history_bounded 10 8 _ (by simp [received, Event.message?])

end Dalaran.Proxy
