import Dalaran.Quota.Broadcast

/-
  What the broadcast quota channel promises, over every run.

  The counters are exact after every step (`Counted`), that of the bytes modulo
  2^64. So no more messages are alive than the ring has room for, and a receiver
  that is open is never overtaken, and gets what was sent since it joined.

  A value that only a receiver in the middle of its drop still has to read can be
  overwritten. It is dropped then, and counted off, like one that was read.
-/

namespace Dalaran

open List Option RingBuffer

namespace Broadcast

variable {α : Type} {limits : BroadcastLimits}

/-! ## The messages in flight -/

variable {ch : Broadcast α}

theorem messageAt_isSome {pos : Nat} (h : pos < ch.ring.tail) : ∃ message, ch.messageAt pos = some message := by
  have hlt : pos < ch.ring.values.length := by rwa [values_length]
  exact ⟨_, List.getElem?_eq_getElem hlt⟩

theorem alive_nodup (ch : Broadcast α) : ch.alive.Nodup := nodup_range.filter _

theorem mem_alive {pos : Nat} : pos ∈ ch.alive ↔ pos < ch.ring.tail ∧ ch.isReferenced pos = true := by
  rw [alive, mem_filter, mem_range]

theorem length_filterMap_alive (ch : Broadcast α) : (ch.alive.filterMap ch.messageAt).length = ch.alive.length := by
  rw [length_filterMap_eq_countP, countP_eq_length]
  intro pos hpos
  obtain ⟨message, hmessage⟩ := messageAt_isSome (mem_alive.mp hpos).1
  rw [hmessage]
  rfl

theorem held_add_reserved_le (ch : Broadcast α) :
    ch.ring.heldPositions.length + ch.reserved.length ≤ ch.inFlight.length := by
  have hsub : ch.ring.heldPositions.Sublist ch.alive := by
    apply monotone_filter_right
    intro pos hpos
    rw [isReferenced, hpos, Bool.true_or]
  calc ch.ring.heldPositions.length + ch.reserved.length ≤ ch.alive.length + ch.reserved.length :=
        Nat.add_le_add_right hsub.length_le _
    _ = ch.inFlight.length := by
      rw [inFlight, length_append, length_filterMap_alive, Nat.add_comm]

variable {ch' : Broadcast α}

theorem inFlight_congr (hreserved : ch'.reserved = ch.reserved) (htail : ch'.ring.tail = ch.ring.tail)
    (hmessage : ∀ pos, ch'.messageAt pos = ch.messageAt pos)
    (hreferenced : ∀ pos, ch'.isReferenced pos = ch.isReferenced pos) : ch'.inFlight = ch.inFlight := by
  have halive : ch'.alive = ch.alive := by
    rw [alive, alive, htail]
    apply filter_congr
    intro pos _
    exact hreferenced pos
  rw [inFlight, inFlight, hreserved, halive, funext hmessage]

theorem inFlight_perm_of_letGo {pos : Nat} {message : SizedMessage α} (hreserved : ch'.reserved = ch.reserved)
    (htail : ch'.ring.tail = ch.ring.tail) (hmessage : ∀ pos, ch'.messageAt pos = ch.messageAt pos)
    (hother : ∀ q, q ≠ pos → ch'.isReferenced q = ch.isReferenced q) (hpos : pos ∈ ch.alive)
    (hgone : ch'.isReferenced pos = false) (hat : ch.messageAt pos = some message) :
    ch.inFlight.Perm (message :: ch'.inFlight) := by
  have halive : ch.alive.Perm (pos :: ch'.alive) := by
    apply (perm_ext_iff_of_nodup ch.alive_nodup _).mpr
    · intro q
      rw [mem_cons, mem_alive, mem_alive, htail]
      by_cases hq : q = pos
      · subst hq
        simp [mem_alive.mp hpos]
      · simp [hq, hother q hq]
    · rw [nodup_cons, mem_alive, hgone]
      exact ⟨by simp, ch'.alive_nodup⟩
  have hmessages : (ch.alive.filterMap ch.messageAt).Perm (message :: ch'.alive.filterMap ch'.messageAt) := by
    rw [funext hmessage, ← filterMap_cons_some hat]
    exact halive.filterMap _
  rw [inFlight, inFlight, hreserved]
  exact (hmessages.append_left _).trans perm_middle

/-! ## The counters -/

theorem Counted.congr (h : ch.Counted limits) (hmessages : ch'.messagesInFlight = ch.messagesInFlight)
    (hbytes : ch'.bytesInFlight = ch.bytesInFlight)
    (hinFlight : ch'.inFlight.Perm ch.inFlight) : ch'.Counted limits where
  messages := by rw [hmessages, h.messages, hinFlight.length_eq]
  bytes := by rw [hbytes, h.bytes, totalSize_perm hinFlight]
  bound := by rw [hinFlight.length_eq]; exact h.bound

theorem Counted.forget {message : SizedMessage α} (h : ch.Counted limits)
    (hmessages : ch'.messagesInFlight = ch.messagesInFlight) (hbytes : ch'.bytesInFlight = ch.bytesInFlight)
    (hinFlight : ch.inFlight.Perm (message :: ch'.inFlight)) : (ch'.forget message).Counted limits := by
  have hsame : (ch'.forget message).inFlight = ch'.inFlight := rfl
  have hlength : ch.inFlight.length = ch'.inFlight.length + 1 := hinFlight.length_eq
  have hsize : totalSize ch.inFlight = message.sizeBytes.toNat + totalSize ch'.inFlight := totalSize_perm hinFlight
  have hm := h.messages
  have hb := h.bytes
  have hone : (1 : UInt64).toNat = 1 := rfl
  refine ⟨?_, ?_, ?_⟩
  · rw [hsame, Broadcast.forget, hmessages, U64.toNat_sub_of_le (by omega)]
    omega
  · have hlt := message.sizeBytes.toNat_lt
    rw [hsame, Broadcast.forget, hbytes, UInt64.toNat_sub]
    omega
  · have hbound := h.bound
    rw [hsame]
    omega

theorem Counted.letGo {pos : Nat} (h : ch.Counted limits) (hmessages : ch'.messagesInFlight = ch.messagesInFlight)
    (hbytes : ch'.bytesInFlight = ch.bytesInFlight) (hreserved : ch'.reserved = ch.reserved)
    (htail : ch'.ring.tail = ch.ring.tail) (hmessage : ∀ pos, ch'.messageAt pos = ch.messageAt pos)
    (hother : ∀ q, q ≠ pos → ch'.isReferenced q = ch.isReferenced q) (hpos : pos ∈ ch.alive) :
    (ch'.letGo pos).Counted limits := by
  have hreferenced := (mem_alive.mp hpos).2
  obtain ⟨message, hat⟩ := messageAt_isSome (mem_alive.mp hpos).1
  unfold Broadcast.letGo
  split
  · next hstill =>
    apply h.congr hmessages hbytes
    rw [inFlight_congr hreserved htail hmessage]
    intro q
    by_cases hq : q = pos
    · rw [hq, hstill, hreferenced]
    · exact hother q hq
  · next hgone =>
    rw [hmessage pos, hat]
    exact h.forget hmessages hbytes
      (inFlight_perm_of_letGo hreserved htail hmessage hother hpos (Bool.eq_false_iff.mpr hgone) hat)

/-! ## What a receiver got -/

end Broadcast

section

variable {α : Type} {capacity : Nat} {values : List (SizedMessage α)} {c : Cursor} {handle : Handle α}

theorem Reads.send (h : Reads capacity values c handle) (message : SizedMessage α) (hnext : c.next ≤ values.length)
    (hroom : c.stop = none → values.length + 1 ≤ c.next + capacity) :
    Reads capacity (values ++ [message]) c handle where
  start_le := h.start_le
  opened := h.opened
  room := by
    intro hopen
    rw [length_append, length_singleton]
    exact hroom hopen
  inHand := h.inHand
  delivered := by
    intro hopen
    have hlength : c.next - handle.start ≤ ((values.map (·.msg)).drop handle.start).length := by
      rw [length_drop, length_map]
      omega
    have hstart := h.start_le
    have hbefore : (handle.inHand.bind fun pos => (values ++ [message])[pos]?) =
        handle.inHand.bind fun pos => values[pos]? := by
      cases hin : handle.inHand with
      | none => rfl
      | some pos =>
        have hpos := (h.inHand pos hin).2.1
        exact List.getElem?_append_left (by omega)
    rw [Handle.delivered, hbefore, map_append, drop_append_of_le_length (by rw [length_map]; omega),
      take_append_of_le_length hlength]
    exact h.delivered hopen
  got := by
    have hstart := h.start_le
    rw [map_append, drop_append_of_le_length (by rw [length_map]; omega)]
    exact h.got.trans (prefix_append ..)

theorem Reads.read (h : Reads capacity values c handle) (hopen : handle.dropping = false)
    (hin : handle.inHand = none) (hnext : c.next < values.length) :
    Reads capacity values { c with next := c.next + 1 } { handle with inHand := some c.next } where
  start_le := Nat.le_succ_of_le h.start_le
  opened := h.opened
  room := fun hopen => Nat.le_trans (h.room hopen) (by simp only; omega)
  inHand := by
    intro pos hpos
    cases hpos
    exact ⟨hopen, rfl, h.start_le⟩
  delivered := by
    intro hstop
    have hstart := h.start_le
    have hgot := h.delivered hstop
    rw [Handle.delivered, hin] at hgot
    have hlt : c.next - handle.start < ((values.map (·.msg)).drop handle.start).length := by
      rw [length_drop, length_map]
      omega
    have hsucc : c.next + 1 - handle.start = (c.next - handle.start) + 1 := by omega
    have hmsg : ((values.map (·.msg)).drop handle.start)[c.next - handle.start] = values[c.next].msg := by
      rw [getElem_drop, getElem_map]
      congr
      omega
    simp only [bind_none, map_none, toList_none, append_nil] at hgot
    simp [Handle.delivered, hsucc, take_succ_eq_append_getElem hlt, hmsg, hgot, List.getElem?_eq_getElem hnext]
  got := h.got

theorem Reads.finish (h : Reads capacity values c handle) {pos : Nat} (hpos : handle.inHand = some pos) :
    Reads capacity values c
      { handle with inHand := none, got := handle.got ++ (values[pos]?.map (·.msg)).toList } where
  start_le := h.start_le
  opened := h.opened
  room := h.room
  inHand := fun _ hnone => by cases hnone
  delivered := by
    intro hopen
    have hgot := h.delivered hopen
    rw [Handle.delivered, hpos, bind_some] at hgot
    exact (append_nil _).trans hgot
  got := by
    have hopen := h.opened (h.inHand pos hpos).1
    have hgot := h.delivered hopen
    rw [Handle.delivered, hpos, bind_some] at hgot
    simp only [hgot]
    exact take_prefix ..

theorem Reads.inHand_none (h : Reads capacity values c handle) (hdropping : handle.dropping = true) :
    handle.inHand = none := by
  cases hin : handle.inHand with
  | none => rfl
  | some pos =>
    rw [(h.inHand pos hin).1] at hdropping
    cases hdropping

theorem Reads.drop (h : Reads capacity values c handle) (hin : handle.inHand = none) :
    Reads capacity values c { handle with dropping := true } where
  start_le := h.start_le
  opened := fun hfalse => by cases hfalse
  room := h.room
  inHand := fun pos hpos => by
    rw [hin] at hpos
    cases hpos
  delivered := h.delivered
  got := h.got

theorem Reads.closed (h : Reads capacity values c handle) {c' : Cursor} (hin : handle.inHand = none)
    (hdropping : handle.dropping = true) (hclosed : c'.stop ≠ none) (hnext : c.next ≤ c'.next) :
    Reads capacity values c' handle where
  start_le := Nat.le_trans h.start_le hnext
  opened := fun hfalse => by
    rw [hdropping] at hfalse
    cases hfalse
  room := fun hopen => absurd hopen hclosed
  inHand := fun pos hpos => by
    rw [hin] at hpos
    cases hpos
  delivered := fun hopen => absurd hopen hclosed
  got := h.got

theorem Reads.new (capacity : Nat) (values : List (SizedMessage α)) :
    Reads capacity values ⟨values.length, none⟩ ⟨values.length, false, none, []⟩ where
  start_le := le_rfl
  opened := fun _ => rfl
  room := fun _ => Nat.le_add_right ..
  inHand := fun _ hnone => by cases hnone
  delivered := fun _ => by simp [Handle.delivered]
  got := nil_prefix

end

/-! ## The ring and its receivers -/

section

variable {α : Type} {limits : BroadcastLimits} {ring ring' : RingBuffer (SizedMessage α)} {handles : List (Handle α)}
  {numReceivers numReceivers' subscribing i : Nat} {c c' : Cursor} {handle handle' : Handle α}

theorem set_of_getElem? {β : Type} {l : List β} {i : Nat} {b : β} (h : l[i]? = some b) : l.set i b = l := by
  obtain ⟨hi, rfl⟩ := List.getElem?_eq_some_iff.mp h
  exact set_getElem_self hi

theorem Delivers.update (h : Delivers limits ring handles numReceivers subscribing)
    (hc : ring.cursors[i]? = some c) (hhandle : handles[i]? = some handle) (hconsistent : ring'.Consistent)
    (hcapacity : ring'.capacity = ring.capacity) (hvalues : ring'.values = ring.values)
    (hcursors : ring'.cursors = ring.cursors.set i c') (hreads : Reads ring.capacity ring.values c' handle')
    (hreceivers : numReceivers' = (handles.set i handle').countP (!·.dropping) + subscribing) :
    Delivers limits ring' (handles.set i handle') numReceivers' subscribing where
  consistent := hconsistent
  capacity := hcapacity.trans h.capacity
  aligned := by rw [hcursors, length_set, length_set, h.aligned]
  reads := by
    intro j d other hd hother
    rw [hcapacity, hvalues]
    rw [hcursors] at hd
    by_cases hij : i = j
    · subst hij
      rw [List.getElem?_set_self (List.getElem?_eq_some_iff.mp hc).1] at hd
      rw [List.getElem?_set_self (List.getElem?_eq_some_iff.mp hhandle).1] at hother
      cases hd
      cases hother
      exact hreads
    · rw [List.getElem?_set_ne hij] at hd hother
      exact h.reads j d other hd hother
  receivers := hreceivers

theorem countP_set_handle (hhandle : handles[i]? = some handle) (h : handle'.dropping = handle.dropping) :
    (handles.set i handle').countP (!·.dropping) = handles.countP (!·.dropping) := by
  obtain ⟨hi, hget⟩ := List.getElem?_eq_some_iff.mp hhandle
  have hpos : (!handle.dropping) = true → 0 < handles.countP (!·.dropping) := fun hlive =>
    countP_pos_iff.mpr ⟨handle, mem_of_getElem? hhandle, hlive⟩
  rw [countP_set hi, hget, h]
  split
  · next hlive =>
    have hlive := hpos hlive
    omega
  · omega

theorem countP_set_dropping (hhandle : handles[i]? = some handle) (h : handle.dropping = false) :
    (handles.set i { handle with dropping := true }).countP (!·.dropping) = handles.countP (!·.dropping) - 1 := by
  obtain ⟨hi, hget⟩ := List.getElem?_eq_some_iff.mp hhandle
  rw [countP_set hi, hget, h]
  rfl

theorem Delivers.updateHandle (h : Delivers limits ring handles numReceivers subscribing)
    (hc : ring.cursors[i]? = some c) (hhandle : handles[i]? = some handle)
    (hreads : Reads ring.capacity ring.values c handle')
    (hreceivers : numReceivers' = (handles.set i handle').countP (!·.dropping) + subscribing) :
    Delivers limits ring (handles.set i handle') numReceivers' subscribing :=
  h.update hc hhandle h.consistent rfl rfl (set_of_getElem? hc).symm hreads hreceivers

theorem Delivers.updateCursor (h : Delivers limits ring handles numReceivers subscribing)
    (hc : ring.cursors[i]? = some c) (hhandle : handles[i]? = some handle) (hconsistent : ring'.Consistent)
    (hcapacity : ring'.capacity = ring.capacity) (hvalues : ring'.values = ring.values)
    (hcursors : ring'.cursors = ring.cursors.set i c') (hreads : Reads ring.capacity ring.values c' handle) :
    Delivers limits ring' handles numReceivers subscribing := by
  have hset := set_of_getElem? hhandle
  have hreceivers := h.receivers
  rw [← hset]
  rw [← hset] at hreceivers
  exact h.update hc hhandle hconsistent hcapacity hvalues hcursors hreads hreceivers

theorem Delivers.send (h : Delivers limits ring handles numReceivers subscribing) (message : SizedMessage α)
    (hreceivers : 0 < ring.receiverCount)
    (hroom : ∀ c ∈ ring.cursors, c.stop = none → ring.tail + 1 ≤ c.next + ring.capacity) :
    Delivers limits (ring.send message) handles numReceivers subscribing where
  consistent := send_consistent h.consistent message hreceivers
  capacity := h.capacity
  aligned := h.aligned
  reads := by
    intro j d other hd hother
    have hmem : d ∈ ring.cursors := mem_of_getElem? hd
    rw [send_values]
    apply (h.reads j d other hd hother).send message
    · rw [values_length]
      exact h.consistent.next_le d hmem
    · rw [values_length]
      exact hroom d hmem
  receivers := h.receivers

theorem Delivers.subscribe (h : Delivers limits ring handles numReceivers subscribing) (hpending : 0 < subscribing) :
    Delivers limits ring.subscribe (handles ++ [⟨ring.tail, false, none, []⟩]) numReceivers (subscribing - 1) where
  consistent := subscribe_consistent h.consistent
  capacity := h.capacity
  aligned := by rw [RingBuffer.subscribe, length_append, length_append, h.aligned]; rfl
  reads := by
    intro j d other hd hother
    rw [RingBuffer.subscribe] at hd
    rcases Nat.lt_or_ge j ring.cursors.length with hlt | hge
    · rw [List.getElem?_append_left hlt] at hd
      rw [List.getElem?_append_left (h.aligned ▸ hlt)] at hother
      exact h.reads j d other hd hother
    · rw [List.getElem?_append_right hge] at hd
      rw [List.getElem?_append_right (h.aligned ▸ hge), h.aligned] at hother
      obtain ⟨hj, rfl⟩ := List.getElem?_eq_some_iff.mp hd
      obtain ⟨-, rfl⟩ := List.getElem?_eq_some_iff.mp hother
      have hzero : j - ring.cursors.length = 0 := by
        rw [length_singleton] at hj
        omega
      simp only [hzero, getElem_cons_zero]
      rw [← values_length]
      exact Reads.new ring.capacity ring.values
  receivers := by
    have hreceivers := h.receivers
    rw [countP_append, countP_singleton, hreceivers]
    simp only [Bool.not_false, if_true]
    omega

end

namespace Broadcast

variable {α : Type} {limits : BroadcastLimits}

/-! ## What a step keeps -/

section

variable (ch : Broadcast α) (pos : Nat)

theorem letGo_eq : ∃ bytes messages, ch.letGo pos =
    { ch with bytesInFlight := bytes, messagesInFlight := messages } := by
  unfold letGo
  split
  · exact ⟨_, _, rfl⟩
  · split
    · exact ⟨_, _, rfl⟩
    · exact ⟨_, _, rfl⟩

end

variable {ch : Broadcast α}

theorem Sound.letGo {pos : Nat} (hcounted : (ch.letGo pos).Counted limits)
    (hdelivers : Delivers limits ch.ring ch.handles ch.numReceivers ch.subscribing) (hlagged : ch.lagged = false) :
    (ch.letGo pos).Sound limits := by
  obtain ⟨bytes, messages, heq⟩ := letGo_eq ch pos
  rw [heq] at hcounted ⊢
  exact ⟨hcounted, hdelivers, hlagged⟩

variable {handle : Handle α} {i : Nat} {c : Cursor}

theorem not_lags_of_open (h : ch.Sound limits) (hc : ch.ring.cursors[i]? = some c)
    (hhandle : ch.handles[i]? = some handle) (hopen : c.stop = none) :
    ch.ring.lags c = false := by
  have hroom := (h.delivers.reads i c handle hc hhandle).room hopen
  rw [values_length] at hroom
  exact decide_eq_false (Nat.not_lt.mpr hroom)

theorem next_mem_alive (h : ch.Sound limits) (hc : ch.ring.cursors[i]? = some c) (hunread : c.unread c.next = true)
    (hlt : c.next < ch.ring.tail) (hlags : ch.ring.lags c = false) : c.next ∈ ch.alive := by
  have hroom := of_decide_eq_false hlags
  refine mem_alive.mpr ⟨hlt, ?_⟩
  rw [isReferenced, holds_of_next_le h.delivers.consistent (mem_of_getElem? hc) hunread (by omega) hlt,
    Bool.true_or]

variable {handle' : Handle α}

theorem any_inHand_set {handles : List (Handle α)} {q : Nat} (hhandle : handles[i]? = some handle)
    (h : (handle'.inHand == some q) = (handle.inHand == some q)) :
    (handles.set i handle').any (·.inHand == some q) = handles.any (·.inHand == some q) := by
  obtain ⟨hi, hget⟩ := List.getElem?_eq_some_iff.mp hhandle
  have hset := set_perm_cons_eraseIdx hi handle'
  have hself := getElem_cons_eraseIdx_perm hi
  rw [hget] at hself
  rw [hset.any_eq, ← hself.any_eq, any_cons, any_cons, h]

variable {message : SizedMessage α}

theorem reserve_sound (h : ch.Sound limits) : (ch.reserve limits message).Sound limits := by
  have hcounted := h.counted
  unfold reserve
  split
  · exact h
  · split
    · next hroom =>
      refine ⟨?_, h.delivers, h.lagged⟩
      have hm := hcounted.messages
      have hb := hcounted.bytes
      have hbound := hcounted.bound
      have hmax := limits.maxMessages_lt
      have hone : (1 : UInt64).toNat = 1 := rfl
      have hperm : ∀ bytes messages, ({ ch with
            bytesInFlight := bytes, messagesInFlight := messages,
            reserved := ch.reserved ++ [message] } : Broadcast α).inFlight.Perm (message :: ch.inFlight) := by
        intro bytes messages
        simp only [inFlight, append_assoc]
        exact perm_middle
      have hnew : (ch.messagesInFlight + 1).toNat = ch.messagesInFlight.toNat + 1 :=
        U64.toNat_add_of_lt (by omega)
      have hlength : ch.inFlight.length + 1 ≤ limits.maxMessages.toNat := by
        rcases Bool.or_eq_true_iff.mp hroom with hfit | hfirst
        · have hle := of_decide_eq_true (Bool.and_eq_true_iff.mp hfit).1
          rw [UInt64.le_iff_toNat_le, hnew] at hle
          omega
        · have hzero : ch.messagesInFlight = 0 := by simpa using (Bool.and_eq_true_iff.mp hfirst).2
          have hpos := limits.maxMessages_pos
          rw [hzero, UInt64.toNat_zero] at hm
          omega
      refine ⟨?_, ?_, ?_⟩
      · rw [(hperm _ _).length_eq, length_cons, hnew, hm]
      · rw [totalSize_perm (hperm _ _), totalSize_cons, UInt64.toNat_add, hb, Nat.mod_add_mod, Nat.add_comm]
      · rw [(hperm _ _).length_eq, length_cons]
        exact hlength
    · exact h

theorem inFlight_perm_of_reserved {sender : Nat} (h : ch.reserved[sender]? = some message) :
    ch.inFlight.Perm (message :: ({ ch with reserved := ch.reserved.eraseIdx sender } : Broadcast α).inFlight) := by
  obtain ⟨hi, rfl⟩ := List.getElem?_eq_some_iff.mp h
  exact (getElem_cons_eraseIdx_perm hi).symm.append_right _

theorem append_inFlight (ch : Broadcast α) (message : SizedMessage α) :
    ({ ch with ring := ch.ring.append message } : Broadcast α).inFlight = ch.inFlight ++ [message] := by
  have hbefore : ∀ pos ∈ List.range ch.ring.tail,
      ({ ch with ring := ch.ring.append message } : Broadcast α).isReferenced pos = ch.isReferenced pos := by
    intro pos hpos
    have hne : ¬ pos = ch.ring.tail := Nat.ne_of_lt (mem_range.mp hpos)
    simp only [isReferenced, append_holds, if_neg hne]
  have hnew : ({ ch with ring := ch.ring.append message } : Broadcast α).isReferenced ch.ring.tail = true := by
    simp [isReferenced, append_holds]
  have halive : ({ ch with ring := ch.ring.append message } : Broadcast α).alive = ch.alive ++ [ch.ring.tail] := by
    simp only [alive, append_tail, range_succ, filter_append, filter_congr hbefore]
    rw [filter_cons_of_pos hnew]
    rfl
  have hat : ∀ pos ∈ ch.alive,
      ({ ch with ring := ch.ring.append message } : Broadcast α).messageAt pos = ch.messageAt pos := by
    intro pos hpos
    rw [messageAt, append_values, List.getElem?_append_left]
    · rfl
    · rw [values_length]
      exact (mem_alive.mp hpos).1
  have hlast : ({ ch with ring := ch.ring.append message } : Broadcast α).messageAt ch.ring.tail = some message := by
    rw [messageAt, append_values, ← values_length]
    exact List.getElem?_concat_length
  rw [inFlight, halive, filterMap_append, filterMap_congr hat, filterMap_cons_some hlast, inFlight, append_assoc]
  rfl

theorem push_counted (hconsistent : ch.ring.Consistent)
    (h : ({ ch with ring := ch.ring.append message } : Broadcast α).Counted limits) :
    (ch.push message).Counted limits := by
  have hcapacity := hconsistent.capacity_pos
  have htail : (ch.ring.send message).tail = (ch.ring.append message).tail := by
    rw [send_tail, append_tail]
  have hmessage : ∀ pos, ({ ch with ring := ch.ring.send message } : Broadcast α).messageAt pos =
      ({ ch with ring := ch.ring.append message } : Broadcast α).messageAt pos := by
    intro pos
    rw [messageAt, messageAt, send_values, append_values]
  have hreferenced : ∀ pos, pos + ch.ring.capacity ≠ ch.ring.tail ∨ ch.ring.holds pos = false →
      ({ ch with ring := ch.ring.send message } : Broadcast α).isReferenced pos =
        ({ ch with ring := ch.ring.append message } : Broadcast α).isReferenced pos := by
    intro pos hpos
    simp only [isReferenced, send_holds hcapacity]
    rcases hpos with hne | hnot
    · rw [bne_iff_ne.mpr hne, Bool.and_true]
    · by_cases heq : pos + ch.ring.capacity = ch.ring.tail
      · have hother : ¬ pos = ch.ring.tail := by omega
        rw [append_holds, if_neg hother, hnot, Bool.false_and]
      · rw [bne_iff_ne.mpr heq, Bool.and_true]
  simp only [push]
  split
  · next hover =>
    refine h.letGo ?_ ?_ ?_ htail hmessage ?_ ?_
    iterate 3 rfl
    · intro q hq
      exact hreferenced q (.inl (by omega))
    · apply mem_alive.mpr
      refine ⟨by rw [append_tail]; omega, ?_⟩
      have hne : ¬ ch.ring.tail - ch.ring.capacity = ch.ring.tail := by omega
      rw [isReferenced, append_holds, if_neg hne, hover.2, Bool.true_or]
  · next hnot =>
    refine h.congr ?_ ?_ (Perm.of_eq (inFlight_congr rfl htail hmessage fun pos => ?_))
    iterate 2 rfl
    apply hreferenced
    by_cases heq : pos + ch.ring.capacity = ch.ring.tail
    · right
      have hpos : ch.ring.tail - ch.ring.capacity = pos := by omega
      rw [hpos] at hnot
      exact Bool.eq_false_iff.mpr fun hholds => hnot ⟨by omega, hholds⟩
    · exact .inl heq

theorem push_sound (hreceivers : ch.ring.receiverCount ≠ 0)
    (hdelivers : Delivers limits ch.ring ch.handles ch.numReceivers ch.subscribing) (hlagged : ch.lagged = false)
    (hroom : ∀ c ∈ ch.ring.cursors, c.stop = none → ch.ring.tail + 1 ≤ c.next + ch.ring.capacity)
    (hcounted : ({ ch with ring := ch.ring.append message } : Broadcast α).Counted limits) :
    (ch.push message).Sound limits := by
  have hcounted := push_counted hdelivers.consistent hcounted
  have hdelivers := hdelivers.send message (Nat.pos_of_ne_zero hreceivers) hroom
  simp only [push] at hcounted ⊢
  split at hcounted
  · next hover =>
    rw [if_pos hover]
    exact Sound.letGo hcounted hdelivers hlagged
  · next hnot =>
    rw [if_neg hnot]
    exact ⟨hcounted, hdelivers, hlagged⟩

theorem sendInner_sound {sender : Nat} (h : ch.Sound limits)
    (hsender : ch.reserved[sender]? = some message) : (ch.sendInner sender message).Sound limits := by
  have hperm := inFlight_perm_of_reserved hsender
  simp only [sendInner]
  split
  · exact ⟨h.counted.forget rfl rfl hperm, h.delivers, h.lagged⟩
  · next hreceivers =>
    refine push_sound ?_ ?_ ?_ ?_ ?_
    · exact hreceivers
    · exact h.delivers
    · exact h.lagged
    · -- the message itself is in flight, so there is room for one more than is alive
      intro c hc hopen
      obtain ⟨i, hi⟩ := mem_iff_getElem?.mp hc
      have hlt : i < ch.handles.length := h.delivers.aligned ▸ (List.getElem?_eq_some_iff.mp hi).1
      have hlags := not_lags_of_open h hi (List.getElem?_eq_getElem hlt) hopen
      have hunread := unread_le_held h.delivers.consistent hc hopen (Nat.not_lt.mp (of_decide_eq_false hlags))
      have hheld := held_add_reserved_le ch
      have hbound := h.counted.bound
      have hcapacity := h.delivers.capacity
      have hmax := limits.maxMessages_le
      have hreserved : 0 < ch.reserved.length := Nat.zero_lt_of_lt (List.getElem?_eq_some_iff.mp hsender).1
      have hnext := h.delivers.consistent.next_le c hc
      show ch.ring.tail + 1 ≤ c.next + ch.ring.capacity
      omega
    · refine h.counted.congr ?_ ?_ ?_
      iterate 2 rfl
      rw [append_inFlight]
      exact (perm_append_singleton ..).trans hperm.symm

theorem subscribeInner_sound (h : ch.Sound limits) (hpending : 0 < ch.subscribing) :
    ({ ch with
      subscribing := ch.subscribing - 1
      ring := ch.ring.subscribe
      handles := ch.handles ++ [⟨ch.ring.tail, false, none, []⟩] } : Broadcast α).Sound limits := by
  refine ⟨?_, h.delivers.subscribe hpending, h.lagged⟩
  refine h.counted.congr ?_ ?_ (Perm.of_eq (inFlight_congr ?_ ?_ (fun _ => ?_) fun pos => ?_))
  iterate 5 rfl
  have hnew : ((none : Option Nat) == some pos) = false := rfl
  simp only [isReferenced, any_append, any_cons, any_nil, hnew, Bool.or_false]
  rfl

theorem recv_sound (h : ch.Sound limits) (hc : ch.ring.cursors[i]? = some c) (hhandle : ch.handles[i]? = some handle)
    (hlive : handle.dropping = false) (hin : handle.inHand = none)
    (hlt : c.next < ch.ring.tail) : (ch.recv i c handle).Sound limits := by
  have hreads := h.delivers.reads i c handle hc hhandle
  have hopen := hreads.opened hlive
  have hlags := not_lags_of_open h hc hhandle hopen
  have hunread : c.unread c.next = true :=
    unread_eq_true_iff.mpr ⟨le_rfl, fun stop hstop => absurd (hopen.symm.trans hstop) (by simp)⟩
  have halive := next_mem_alive h hc hunread hlt hlags
  rw [recv, hlags, if_neg Bool.false_ne_true]
  refine ⟨?_, ?_, h.lagged⟩
  · -- the clone in hand takes the place of the ring's
    refine h.counted.congr ?_ ?_ (Perm.of_eq (inFlight_congr ?_ (read_tail ..) (fun pos => ?_) fun pos => ?_))
    iterate 3 rfl
    · simp only [messageAt, read_values]
    · by_cases hpos : pos = c.next
      · have hmem : { handle with inHand := some c.next } ∈ ch.handles.set i { handle with inHand := some c.next } :=
          mem_set (List.getElem?_eq_some_iff.mp hhandle).1 _
        rw [hpos, (mem_alive.mp halive).2, isReferenced, Bool.or_eq_true_iff]
        exact .inr (List.any_eq_true.mpr ⟨_, hmem, by simp⟩)
      · have hother : ((some c.next : Option Nat) == some pos) = (handle.inHand == some pos) := by
          rw [hin]
          simp [Ne.symm hpos]
        simp only [isReferenced, read_holds hpos]
        rw [any_inHand_set hhandle hother]
  · apply h.delivers.update hc hhandle (read_consistent h.delivers.consistent hc hlt hunread) rfl
      (read_values ..) rfl
    · apply hreads.read hlive hin
      rw [values_length]
      exact hlt
    · rw [countP_set_handle hhandle (rfl : ({ handle with inHand := some c.next } : Handle α).dropping = handle.dropping)]
      exact h.delivers.receivers

variable {pos : Nat}

theorem finishRecv_sound (h : ch.Sound limits) (hhandle : ch.handles[i]? = some handle)
    (hin : handle.inHand = some pos) :
    (ch.finishRecv i handle pos).Sound limits := by
  obtain ⟨c, hc⟩ : ∃ c, ch.ring.cursors[i]? = some c :=
    ⟨_, List.getElem?_eq_getElem (h.delivers.aligned ▸ (List.getElem?_eq_some_iff.mp hhandle).1)⟩
  have hreads := h.delivers.reads i c handle hc hhandle
  have halive : pos ∈ ch.alive := by
    have hnext := h.delivers.consistent.next_le c (mem_of_getElem? hc)
    have hpos := (hreads.inHand pos hin).2.1
    refine mem_alive.mpr ⟨by omega, ?_⟩
    rw [isReferenced, Bool.or_eq_true_iff]
    exact .inr (List.any_eq_true.mpr ⟨handle, mem_of_getElem? hhandle, by simp [hin]⟩)
  refine Sound.letGo (h.counted.letGo ?_ ?_ ?_ ?_ (fun _ => ?_) (fun q hq => ?_) halive) ?_ ?_
  iterate 5 rfl
  · have hother : ((none : Option Nat) == some q) = (handle.inHand == some q) := by
      rw [hin]
      simp [Ne.symm hq]
    simp only [isReferenced]
    rw [any_inHand_set hhandle hother]
  · apply h.delivers.updateHandle hc hhandle (hreads.finish hin)
    rw [countP_set_handle hhandle]
    · exact h.delivers.receivers
    · rfl
  · exact h.lagged

theorem dropReceiver_sound (h : ch.Sound limits) (hhandle : ch.handles[i]? = some handle)
    (hlive : handle.dropping = false) (hin : handle.inHand = none) :
    ({ ch with
      numReceivers := ch.numReceivers - 1
      handles := ch.handles.set i { handle with dropping := true } } : Broadcast α).Sound limits := by
  obtain ⟨c, hc⟩ : ∃ c, ch.ring.cursors[i]? = some c :=
    ⟨_, List.getElem?_eq_getElem (h.delivers.aligned ▸ (List.getElem?_eq_some_iff.mp hhandle).1)⟩
  refine ⟨?_, ?_, h.lagged⟩
  · refine h.counted.congr ?_ ?_ (Perm.of_eq (inFlight_congr ?_ ?_ (fun _ => ?_) fun pos => ?_))
    iterate 5 rfl
    simp only [isReferenced]
    rw [any_inHand_set hhandle]
    rfl
  · apply h.delivers.updateHandle hc hhandle ((h.delivers.reads i c handle hc hhandle).drop hin)
    have hpos : 0 < ch.handles.countP (!·.dropping) :=
      countP_pos_iff.mpr ⟨handle, mem_of_getElem? hhandle, by rw [hlive]; rfl⟩
    have hreceivers := h.delivers.receivers
    rw [countP_set_dropping hhandle hlive]
    show ch.numReceivers - 1 = ch.handles.countP (!·.dropping) - 1 + ch.subscribing
    omega

theorem dropInner_sound (h : ch.Sound limits) (hc : ch.ring.cursors[i]? = some c)
    (hhandle : ch.handles[i]? = some handle) (hdropping : handle.dropping = true) (hopen : c.stop = none) :
    ({ ch with ring := ch.ring.close i c } : Broadcast α).Sound limits := by
  have hreads := h.delivers.reads i c handle hc hhandle
  refine ⟨?_, ?_, h.lagged⟩
  · refine h.counted.congr ?_ ?_ (Perm.of_eq (inFlight_congr ?_ ?_ (fun _ => ?_) fun pos => ?_))
    iterate 6 rfl
  · apply h.delivers.updateCursor hc hhandle (close_consistent h.delivers.consistent hc hopen) rfl rfl rfl
    apply hreads.closed (hreads.inHand_none hdropping) hdropping
    · exact some_ne_none _
    · exact le_rfl

variable {stop : Nat}

theorem drain_sound (h : ch.Sound limits) (hc : ch.ring.cursors[i]? = some c) (hstop : c.stop = some stop)
    (hlt : c.next < stop) :
    (ch.drain i c).Sound limits := by
  obtain ⟨handle, hhandle⟩ : ∃ handle, ch.handles[i]? = some handle :=
    ⟨_, List.getElem?_eq_getElem (h.delivers.aligned.symm ▸ (List.getElem?_eq_some_iff.mp hc).1)⟩
  have hreads := h.delivers.reads i c handle hc hhandle
  have hclosed : c.stop ≠ none := by simp [hstop]
  have hdropping : handle.dropping = true :=
    eq_true_of_ne_false fun hlive => hclosed (hreads.opened hlive)
  have hin := hreads.inHand_none hdropping
  have htail := h.delivers.consistent.stop_le c (mem_of_getElem? hc) stop hstop
  simp only [drain]
  split
  · next hlags =>
    refine ⟨?_, ?_, h.lagged⟩
    · refine h.counted.congr ?_ ?_ (Perm.of_eq (inFlight_congr ?_ ?_ (fun _ => ?_) fun pos => ?_))
      iterate 6 rfl
    · apply h.delivers.updateCursor hc hhandle (skip_consistent h.delivers.consistent hc hlags) rfl rfl rfl
      have hover := of_decide_eq_true hlags
      refine hreads.closed hin hdropping ?_ ?_
      · exact hclosed
      · show c.next ≤ ch.ring.tail - ch.ring.capacity
        omega
  · next hlags =>
    have hunread : c.unread c.next = true :=
      unread_eq_true_iff.mpr ⟨le_rfl, fun s hs => mem_unique hstop hs ▸ hlt⟩
    have halive := next_mem_alive h hc hunread (by omega) (Bool.eq_false_iff.mpr hlags)
    refine Sound.letGo (h.counted.letGo ?_ ?_ ?_ (read_tail ..) (fun _ => ?_) (fun q hq => ?_) halive) ?_ ?_
    iterate 3 rfl
    · simp only [messageAt, read_values]
    · simp only [isReferenced, read_holds hq]
    · apply h.delivers.updateCursor hc hhandle
        (read_consistent h.delivers.consistent hc (by omega) hunread) rfl (read_values ..) rfl
      refine hreads.closed hin hdropping ?_ ?_
      · exact hclosed
      · exact Nat.le_succ _
    · exact h.lagged

theorem channel_sound (limits : BroadcastLimits) : (channel (α := α) limits).Sound limits where
  counted := ⟨rfl, rfl, Nat.zero_le _⟩
  delivers :=
    { consistent :=
        { capacity_pos := Nat.lt_of_lt_of_le limits.maxMessages_pos limits.maxMessages_le
          rem := fun pos slot hslot => by simp [channel] at hslot
          overwritten := fun pos slot hslot => by simp [channel] at hslot
          next_le := fun c hc => by simp [channel] at hc; simp [hc]
          stop_le := fun c hc stop hstop => by simp [channel] at hc; simp [hc] at hstop }
      capacity := rfl
      aligned := rfl
      reads := by
        intro i c handle hc hhandle
        have hi : i = 0 := by
          have hlt := (List.getElem?_eq_some_iff.mp hc).1
          simp only [channel, length_singleton] at hlt
          omega
        subst hi
        cases hc
        cases hhandle
        exact Reads.new limits.ringCapacity []
      receivers := rfl }
  lagged := rfl

variable {ch' : Broadcast α}

theorem step_sound {op : BroadcastOp α} (h : ch.Sound limits)
    (hstep : step limits ch op = some ch') : ch'.Sound limits := by
  cases op with
  | reserve message =>
    cases hstep
    exact reserve_sound h
  | sendInner sender =>
    obtain ⟨message, hsender, heq⟩ := map_eq_some_iff.mp hstep
    cases heq
    exact sendInner_sound h hsender
  | subscribe =>
    cases hstep
    refine ⟨h.counted.congr rfl rfl (.refl _), ?_, h.lagged⟩
    have hreceivers := h.delivers.receivers
    exact { h.delivers with receivers := by simp only; omega }
  | subscribeInner =>
    obtain ⟨hpending, heq⟩ := ite_none_right_eq_some.mp hstep
    cases heq
    exact subscribeInner_sound h hpending
  | recv receiver =>
    simp only [step] at hstep
    split at hstep
    · next c handle hc hhandle =>
      obtain ⟨⟨hlive, hin, hlt⟩, heq⟩ := ite_none_right_eq_some.mp hstep
      cases heq
      exact recv_sound h hc hhandle hlive hin hlt
    · cases hstep
  | finishRecv receiver =>
    simp only [step] at hstep
    split at hstep
    · next handle hhandle =>
      obtain ⟨pos, hin, heq⟩ := map_eq_some_iff.mp hstep
      cases heq
      exact finishRecv_sound h hhandle hin
    · cases hstep
  | dropReceiver receiver =>
    simp only [step] at hstep
    split at hstep
    · next handle hhandle =>
      obtain ⟨⟨hlive, hin⟩, heq⟩ := ite_none_right_eq_some.mp hstep
      cases heq
      exact dropReceiver_sound h hhandle hlive hin
    · cases hstep
  | dropInner receiver =>
    simp only [step] at hstep
    split at hstep
    · next c handle hc hhandle =>
      obtain ⟨⟨hdropping, hopen⟩, heq⟩ := ite_none_right_eq_some.mp hstep
      cases heq
      exact dropInner_sound h hc hhandle hdropping hopen
    · cases hstep
  | drain receiver =>
    simp only [step] at hstep
    split at hstep
    · next c hc =>
      split at hstep
      · next stop hstop =>
        obtain ⟨hlt, heq⟩ := ite_none_right_eq_some.mp hstep
        cases heq
        exact drain_sound h hc hstop hlt
      · cases hstep
    · cases hstep

theorem run_sound {ops : List (BroadcastOp α)}
    (hrun : Runs.run (step limits) (channel limits) ops = some ch) : ch.Sound limits :=
  Runs.run_invariant (fun _ _ _ h hstep => step_sound h hstep) ops _ ch (channel_sound limits) hrun

/-! ## Main results -/

/-- The messages that were sent successfully, in order. -/
def sent (ch : Broadcast α) : List α := ch.ring.values.map (·.msg)

/-- Nobody is sending or reading, and every receiver has read everything or is dropped. -/
structure AllConsumed (ch : Broadcast α) : Prop where
  reserved : ch.reserved = []
  inHand : ∀ handle ∈ ch.handles, handle.inHand = none
  read : ∀ c ∈ ch.ring.cursors, c.stop.getD ch.ring.tail ≤ c.next

theorem inFlight_of_allConsumed (h : ch.Sound limits) (hall : ch.AllConsumed) : ch.inFlight = [] := by
  have halive : ch.alive = [] := by
    apply filter_eq_nil_iff.mpr
    intro pos hpos hreferenced
    rcases Bool.or_eq_true_iff.mp hreferenced with hholds | hin
    · obtain ⟨c, hc, hunread⟩ := unread_of_holds h.delivers.consistent hholds
      obtain ⟨hnext, hstop⟩ := unread_eq_true_iff.mp hunread
      have hread := hall.read c hc
      have hlt := mem_range.mp hpos
      cases hc' : c.stop with
      | none =>
        rw [hc', getD_none] at hread
        omega
      | some stop =>
        have hbefore := hstop stop hc'
        rw [hc', getD_some] at hread
        omega
    · obtain ⟨handle, hhandle, heq⟩ := List.any_eq_true.mp hin
      rw [hall.inHand handle hhandle] at heq
      cases heq
  rw [inFlight, hall.reserved, halive]
  rfl

/-- What the channel promises. -/
structure Delivery (ch : Broadcast α) : Prop where
  /-- What a receiver has got so far is the beginning of what was sent since it joined. -/
  got : ∀ handle ∈ ch.handles, handle.got <+: ch.sent.drop handle.start
  /-- A receiver that is in use has got, or is reading, everything in front of its position. -/
  delivered : ∀ (i : Nat) (c : Cursor) (handle : Handle α), ch.ring.cursors[i]? = some c →
    ch.handles[i]? = some handle → handle.dropping = false →
    handle.delivered ch.ring.values = (ch.sent.drop handle.start).take (c.next - handle.start)
  /-- One that has caught up has got all of it. -/
  complete : ∀ (i : Nat) (c : Cursor) (handle : Handle α), ch.ring.cursors[i]? = some c →
    ch.handles[i]? = some handle → handle.dropping = false → handle.inHand = none → c.next = ch.ring.tail →
    handle.got = ch.sent.drop handle.start
  notLagged : ch.lagged = false
  messages : ch.messagesInFlight.toNat = ch.inFlight.length
  bytes : ch.bytesInFlight.toNat = totalSize ch.inFlight % 2 ^ 64
  /-- Neither counter is lowered below zero; that of the bytes where they add up to less than 2^64. -/
  noUnderflow : ∀ message ∈ ch.inFlight, 1 ≤ ch.messagesInFlight ∧
    (totalSize ch.inFlight < 2 ^ 64 → message.sizeBytes ≤ ch.bytesInFlight)
  backToZero : ch.AllConsumed → ch.messagesInFlight = 0 ∧ ch.bytesInFlight = 0

/-- Every receiver gets what was sent since it joined, in order and once; it is never overtaken; and
the counters are exact and end at zero. That of the bytes is so up to its width: it does not underflow
while the sizes in flight add up to less than 2^64. -/
theorem broadcast_delivers (limits : BroadcastLimits) (ops : List (BroadcastOp α)) (ch : Broadcast α)
    (hrun : Runs.run (step limits) (channel limits) ops = some ch) : ch.Delivery := by
  have h := run_sound hrun
  have hm := h.counted.messages
  have hb := h.counted.bytes
  refine ⟨fun handle hhandle => ?_, fun i c handle hc hhandle hlive => ?_,
    fun i c handle hc hhandle hlive hin hnext => ?_, h.lagged, hm, hb, fun message hmessage => ?_, fun hall => ?_⟩
  · obtain ⟨i, hi⟩ := mem_iff_getElem?.mp hhandle
    have hlt : i < ch.ring.cursors.length := h.delivers.aligned ▸ (List.getElem?_eq_some_iff.mp hi).1
    exact (h.delivers.reads i _ handle (List.getElem?_eq_getElem hlt) hi).got
  · have hreads := h.delivers.reads i c handle hc hhandle
    exact hreads.delivered (hreads.opened hlive)
  · have hreads := h.delivers.reads i c handle hc hhandle
    have hgot := hreads.delivered (hreads.opened hlive)
    rw [Handle.delivered, hin] at hgot
    have hlength : ((ch.ring.values.map (·.msg)).drop handle.start).length = c.next - handle.start := by
      rw [length_drop, length_map, values_length, hnext]
    rw [← hlength, take_length] at hgot
    exact (append_nil _).symm.trans hgot
  · have hlength := length_pos_of_mem hmessage
    have hone : (1 : UInt64).toNat = 1 := rfl
    rw [UInt64.le_iff_toNat_le, UInt64.le_iff_toNat_le, hm, hb, hone]
    exact ⟨hlength, fun hfits => (Nat.mod_eq_of_lt hfits).symm ▸ le_totalSize hmessage⟩
  · have hnil := inFlight_of_allConsumed h hall
    rw [hnil] at hm hb
    exact ⟨UInt64.toNat.inj hm, UInt64.toNat.inj hb⟩

def smallLimits : BroadcastLimits where
  maxMessages := 2
  maxBytes := 4
  ringCapacity := 2
  maxMessages_pos := by decide
  maxMessages_lt := by decide
  maxMessages_le := by decide

/-- Two senders reserve, and send in the other order. The first receiver reads one of the two messages
and is dropped, the second one, which joined before, reads both. Then a message larger than all of the
limit is sent, and a third receiver joins. -/
def twoReceivers : List (BroadcastOp Char) :=
  [.subscribe, .subscribeInner, .reserve ⟨'a', 3⟩, .reserve ⟨'b', 1⟩, .sendInner 1, .recv 0, .sendInner 0, .recv 1,
    .finishRecv 0, .dropReceiver 0, .dropInner 0, .finishRecv 1, .drain 0, .recv 1, .finishRecv 1, .reserve ⟨'c', 5⟩,
    .sendInner 0, .subscribe, .subscribeInner, .recv 1]

theorem broadcast_delivers_twoReceivers :
    ∃ ch : Broadcast Char, Runs.run (step smallLimits) (channel smallLimits) twoReceivers = some ch ∧
      ch.handles.map (·.got) = [['b'], ['b', 'a'], []] ∧ ch.Delivery :=
  ⟨_, rfl, rfl, broadcast_delivers smallLimits twoReceivers _ rfl⟩

/-- Two messages of 2^63 bytes are in flight and the byte counter is at zero: the sum of their sizes
wrapped, and within the limit. Dropping one of them underflows. -/
theorem byte_counter_wraps :
    ¬ ∀ (limits : BroadcastLimits) (ops : List (BroadcastOp Char)) (ch : Broadcast Char),
      Runs.run (step limits) (channel limits) ops = some ch →
      ∀ message ∈ ch.inFlight, message.sizeBytes ≤ ch.bytesInFlight := by
  intro h
  have hle := h smallLimits [.reserve ⟨'a', 9223372036854775808⟩, .reserve ⟨'b', 9223372036854775808⟩] _ rfl
  exact absurd hle (by decide)

end Broadcast
end Dalaran
