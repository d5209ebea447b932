import Dalaran.Dlr.Panics

/-
  Messages in a row.

  `deliver` says what a decoder gives for a row of messages: each payload is decoded
  by itself, and one that fails changes nothing for the ones behind it. The machine
  follows it (`path_frames`) where no payload panics.

  The exception is the end of a stream. Its payload is decoded with a `?` in front
  of the change of state: where it fails, the decoder goes on to wait for a payload
  of the same length (`resynchronises_iff`).
-/

namespace Dalaran

open Reader LittleEndian List MessageHeader Control

variable {Msg Cache Manifest : Type}

/-- A message as it stands in a stream; its payload was a `Vec`. -/
structure Frame where
  kind : MessageKind
  payload : Bytes
  payload_le : payload.length ≤ ISIZE_MAX

namespace Frame

def header (f : Frame) : MessageHeader := ⟨f.kind, UInt64.ofNat f.payload.length⟩

def bytes (f : Frame) : Bytes := f.header.toDlrBytes ++ f.payload

theorem header_len (f : Frame) : f.header.len.toNat = f.payload.length := by
  have hle := f.payload_le
  unfold ISIZE_MAX at hle
  have hlt : f.payload.length < UInt64.size := by
    unfold UInt64.size
    omega
  exact UInt64.toNat_ofNat_of_lt' hlt

theorem bytes_length (f : Frame) : f.bytes.length = MessageHeader.ENCODED_SIZE_BYTES + f.payload.length := by
  rw [bytes, length_append, toDlrBytes_length]

end Frame

def framesBytes (fs : List Frame) : Bytes := fs.flatMap Frame.bytes

@[simp] theorem framesBytes_nil : framesBytes [] = [] := rfl

@[simp] theorem framesBytes_cons (f : Frame) (fs : List Frame) :
    framesBytes (f :: fs) = f.bytes ++ framesBytes fs := rfl

theorem length_le_framesBytes (fs : List Frame) : fs.length ≤ (framesBytes fs).length := by
  induction fs with
  | nil => exact Nat.le_refl 0
  | cons f fs ih =>
    rw [framesBytes_cons, length_append, Frame.bytes_length, length_cons]
    unfold MessageHeader.ENCODED_SIZE_BYTES
    omega

/-! ## What is delivered -/

namespace Control

variable (codec : Codec Msg Cache Manifest)

/-- What a caller sees of a payload that fails; of a panic, nothing more. -/
def failure : Fault → List (Except CodecError Msg)
  | .panic _ => []
  | .err (.storeIdMissingApplicationId _ _) => []
  | .err e => [.error e]

/-- The results for a row of messages, and the decoder behind them. -/
def deliver : Control Cache Manifest → List Frame → List (Except CodecError Msg) × Control Cache Manifest
  | c, [] => ([], c)
  | c, f :: fs =>
    match codec.decode c.appIdCache c.version f.kind f.payload with
    | .error fault => (failure fault ++ (deliver c fs).1, (deliver c fs).2)
    | .ok (message, cache) =>
      (.ok message :: (deliver { c with appIdCache := cache } fs).1, (deliver { c with appIdCache := cache } fs).2)

def survivors : Control Cache Manifest → List Frame → List Frame
  | _, [] => []
  | c, f :: fs =>
    match codec.decode c.appIdCache c.version f.kind f.payload with
    | .error _ => survivors c fs
    | .ok (_, cache) => f :: survivors { c with appIdCache := cache } fs

end Control

def messages (out : List (Except CodecError Msg)) : List Msg := out.filterMap Except.toOption

@[simp] theorem messages_failure (fault : Fault) :
    messages (Control.failure fault : List (Except CodecError Msg)) = [] := by
  cases fault with
  | panic p => rfl
  | err e => cases e <;> rfl

theorem messages_append (a b : List (Except CodecError Msg)) : messages (a ++ b) = messages a ++ messages b :=
  filterMap_append

variable {codec : Codec Msg Cache Manifest} {c : Control Cache Manifest} {k : Nat} {x : Bytes}

theorem Control.deliver_state (hc : c.state = .waitingForMessageHeader) (fs : List Frame) :
    (c.deliver codec fs).2.state = .waitingForMessageHeader := by
  induction fs generalizing c with
  | nil => exact hc
  | cons f fs ih =>
    unfold deliver
    cases codec.decode c.appIdCache c.version f.kind f.payload with
    | error e => exact ih hc
    | ok r =>
      obtain ⟨message, cache⟩ := r
      apply ih
      exact hc

theorem Control.deliver_survivors (c : Control Cache Manifest) (fs : List Frame) :
    c.deliver codec (c.survivors codec fs) =
      ((messages (c.deliver codec fs).1).map .ok, (c.deliver codec fs).2) := by
  induction fs generalizing c with
  | nil => rfl
  | cons f fs ih =>
    cases hd : codec.decode c.appIdCache c.version f.kind f.payload with
    | error e =>
      rw [survivors, hd, deliver, hd]
      rw [messages_append, messages_failure, nil_append]
      exact ih c
    | ok r =>
      rw [survivors, hd]
      rw [deliver, hd, deliver, hd]
      dsimp only
      rw [ih]
      rfl

theorem Control.survivors_subset (c : Control Cache Manifest) (fs : List Frame) : c.survivors codec fs ⊆ fs := by
  induction fs generalizing c with
  | nil => exact Subset.refl _
  | cons f fs ih =>
    unfold survivors
    cases codec.decode c.appIdCache c.version f.kind f.payload with
    | error e => exact subset_cons_of_subset f (ih c)
    | ok r => exact cons_subset_cons f (ih _)

/-- Decoding the payload does not panic. The source looks at neither the cache nor the version before
everything that can. -/
def Frame.Returns (codec : Codec Msg Cache Manifest) (f : Frame) : Prop :=
  ∀ c : Control Cache Manifest, c.Returns codec f.header f.payload

/-! ## The machine on a message -/

theorem Control.move_messageHeader (hc : c.state = .waitingForMessageHeader) (f : Frame) (x : Bytes) :
    Control.move codec (c, k) (f.bytes ++ x) =
        .goOn ({ c with state := .waitingForMessagePayload f.header }, k + MessageHeader.ENCODED_SIZE_BYTES)
          MessageHeader.ENCODED_SIZE_BYTES ∧
      (f.bytes ++ x).drop MessageHeader.ENCODED_SIZE_BYTES = f.payload ++ x := by
  have hlen := toDlrBytes_length f.header
  have htake : (f.bytes ++ x).take MessageHeader.ENCODED_SIZE_BYTES = f.header.toDlrBytes := by
    exact take_left' hlen
  refine ⟨?_, ?_⟩
  · have hlook : c.look codec k ((f.bytes ++ x).take MessageHeader.ENCODED_SIZE_BYTES) =
        .ok ({ c with state := .waitingForMessagePayload f.header }, true, .again) := by
      unfold look
      rw [hc]
      rw [htake]
      unfold onMessageHeader
      rw [fromDlrBytes_toDlrBytes]
    exact move_turn (by rw [hc]; rfl) (by decide) (by rw [length_append, Frame.bytes_length]; omega) hlook
  · rw [Frame.bytes, append_assoc]
    exact drop_left' hlen

theorem Control.move_payload {f : Frame} (hc : c.state = .waitingForMessagePayload f.header)
    {c' : Control Cache Manifest} {turn : Turn Msg}
    (h : c.onMessagePayload codec f.header f.payload = .ok (c', turn)) (x : Bytes) :
    Control.move codec (c, k) (f.payload ++ x) = turn.move (c', k + f.payload.length) f.payload.length ∧
      (f.payload ++ x).drop f.payload.length = x := by
  have hle := f.payload_le
  have htake : (f.payload ++ x).take f.payload.length = f.payload := take_left' rfl
  refine ⟨?_, drop_left' rfl⟩
  have hlook : c.look codec k ((f.payload ++ x).take f.payload.length) = .ok (c', true, turn) := by
    unfold look
    rw [hc]
    dsimp only
    rw [htake, h]
    rfl
  exact move_turn (by rw [hc, DecoderState.need, Frame.header_len]) (by omega)
    (by rw [length_append]; omega) hlook

variable {header : MessageHeader}

theorem Frame.decode_cases {f : Frame} (hreturns : f.Returns codec) (hne : f.kind ≠ .end) (c : Control Cache Manifest) :
    (∃ e, codec.decode c.appIdCache c.version f.kind f.payload = .error (.err e)) ∨
      ∃ message cache, codec.decode c.appIdCache c.version f.kind f.payload = .ok (message, cache) := by
  cases hd : codec.decode c.appIdCache c.version f.kind f.payload with
  | error fault =>
    cases fault with
    | panic p => exact absurd hd (hreturns c hne p)
    | err e => exact .inl ⟨e, rfl⟩
  | ok r => exact .inr ⟨r.1, r.2, rfl⟩

theorem Control.onMessagePayload_of_ne (hne : header.kind ≠ .end) (payload : Bytes) :
    c.onMessagePayload codec header payload = match codec.decode c.appIdCache c.version header.kind payload with
      | .error (.panic p) => .error p
      | .error (.err e) => .ok ({ c with state := .waitingForMessageHeader }, .err e)
      | .ok (message, cache) =>
        .ok ({ c with appIdCache := cache, state := .waitingForMessageHeader }, .ok (some message)) := by
  exact if_neg hne

theorem Control.onMessagePayload_deliver (hc : c.state = .waitingForMessageHeader) {f : Frame} (hne : f.kind ≠ .end)
    (hreturns : f.Returns codec) :
    (∃ e, onMessagePayload codec { c with state := .waitingForMessagePayload f.header } f.header f.payload =
        .ok ((c.deliver codec [f]).2, .err e) ∧ (c.deliver codec [f]).1 = Control.failure (.err e)) ∨
      ∃ message, onMessagePayload codec { c with state := .waitingForMessagePayload f.header } f.header f.payload =
        .ok ((c.deliver codec [f]).2, .ok (some message)) ∧ (c.deliver codec [f]).1 = [.ok message] := by
  have hback : { c with state := .waitingForMessageHeader } = c := by
    cases c
    cases hc
    rfl
  have hpayload := @onMessagePayload_of_ne _ _ _ codec { c with state := .waitingForMessagePayload f.header }
    f.header hne f.payload
  rw [show f.header.kind = f.kind from rfl] at hpayload
  rcases Frame.decode_cases hreturns hne c with ⟨e, hd⟩ | ⟨message, cache, hd⟩
  · refine .inl ⟨e, ?_, ?_⟩
    · rw [hpayload, hd, deliver, hd]
      dsimp only [deliver]
      rw [hback]
    · rw [deliver, hd]
      dsimp only [deliver]
      rw [append_nil]
  · refine .inr ⟨message, ?_, ?_⟩
    · rw [hpayload, hd, deliver, hd]
      dsimp only [deliver]
      rw [← hc]
    · rw [deliver, hd]
      rfl

variable {s s' : Control Cache Manifest × Nat} {e : CodecError}

theorem path_of_err {n : Nat} (h : Control.move codec s x = (Turn.err e).move s' n) :
    (decoderMachine codec).Path s x (Control.failure (.err e)) s' (x.drop n) := by
  cases e with
  | storeIdMissingApplicationId kind id => exact .goOn h (.refl _ _)
  | invalidOptions e => exact .answer h (.refl _ _)
  | incompatibleDalaranVersion file localVersion => exact .answer h (.refl _ _)
  | notAnRrd expected actual => exact .answer h (.refl _ _)
  | oldRrdVersion => exact .answer h (.refl _ _)
  | frameDecoding text => exact .answer h (.refl _ _)
  | crcMismatch expected got => exact .answer h (.refl _ _)
  | io text => exact .answer h (.refl _ _)
  | payload text => exact .answer h (.refl _ _)

theorem path_frame (hc : c.state = .waitingForMessageHeader) (f : Frame) (hne : f.kind ≠ .end)
    (hreturns : f.Returns codec) (rest : Bytes) :
    (decoderMachine codec).Path (c, k) (f.bytes ++ rest) (c.deliver codec [f]).1
      ((c.deliver codec [f]).2, k + f.bytes.length) rest := by
  obtain ⟨hheader, hdrop⟩ := @Control.move_messageHeader _ _ _ codec c k hc f rest
  refine .goOn hheader ?_
  rw [hdrop, Frame.bytes_length, ← Nat.add_assoc]
  rcases onMessagePayload_deliver hc hne hreturns with ⟨e, hturn, hout⟩ | ⟨message, hturn, hout⟩
  · obtain ⟨hpayload, hdrop'⟩ := @Control.move_payload _ _ _ codec _ (k + MessageHeader.ENCODED_SIZE_BYTES) f rfl
      _ _ hturn rest
    have hpath := path_of_err hpayload
    rw [hdrop'] at hpath
    rw [hout]
    exact hpath
  · obtain ⟨hpayload, hdrop'⟩ := @Control.move_payload _ _ _ codec _ (k + MessageHeader.ENCODED_SIZE_BYTES) f rfl
      _ _ hturn rest
    rw [hout]
    refine .answer hpayload ?_
    rw [hdrop']
    exact .refl _ _

theorem Control.deliver_cons (c : Control Cache Manifest) (f : Frame) (fs : List Frame) :
    c.deliver codec (f :: fs) = ((c.deliver codec [f]).1 ++ ((c.deliver codec [f]).2.deliver codec fs).1,
      ((c.deliver codec [f]).2.deliver codec fs).2) := by
  cases hd : codec.decode c.appIdCache c.version f.kind f.payload with
  | error e | ok r =>
    rw [deliver, deliver, hd]
    simp [deliver]

theorem path_frames (hc : c.state = .waitingForMessageHeader) (fs : List Frame) (hne : ∀ f ∈ fs, f.kind ≠ .end)
    (hreturns : ∀ f ∈ fs, f.Returns codec) (rest : Bytes) :
    (decoderMachine codec).Path (c, k) (framesBytes fs ++ rest) (c.deliver codec fs).1
      ((c.deliver codec fs).2, k + (framesBytes fs).length) rest := by
  induction fs generalizing c k with
  | nil => exact .refl _ _
  | cons f fs ih =>
    have hfirst := @path_frame _ _ _ codec c k hc f (hne f mem_cons_self) (hreturns f mem_cons_self)
      (framesBytes fs ++ rest)
    have hrest := @ih (c.deliver codec [f]).2 (k + f.bytes.length) (deliver_state hc [f])
      (fun g hg => hne g (mem_cons_of_mem _ hg)) fun g hg => hreturns g (mem_cons_of_mem _ hg)
    rw [framesBytes_cons, append_assoc, length_append, ← Nat.add_assoc, deliver_cons]
    exact hfirst.trans hrest

/-! ## The number of bytes read only tells the first header -/

theorem Control.look_numRead {k' : Nat} (hk : 0 < k) (hk' : 0 < k') (frame : Bytes) :
    c.look codec k frame = c.look codec k' frame := by
  have h : (k == 0) = (k' == 0) := by
    rw [beq_eq_false_iff_ne.mpr (Nat.pos_iff_ne_zero.mp hk), beq_eq_false_iff_ne.mpr (Nat.pos_iff_ne_zero.mp hk')]
  unfold look
  rw [h]

/-- Decoders that differ in the number of bytes they have read, behind the first header. -/
def SameControl (s t : Control Cache Manifest × Nat) : Prop := s.1 = t.1 ∧ 0 < s.2 ∧ 0 < t.2

variable {t : Control Cache Manifest × Nat}

theorem Turn.move_sameControl (h : SameControl s t) (n : Nat) (turn : Turn Msg) :
    Machine.SameMove SameControl (turn.move s n : Move _ _ Panic) (turn.move t n) := by
  rw [Decoder.move_eq, Decoder.move_eq]
  cases (Decoder.result? turn).bind Decoder.answer? with
  | none => exact .goOn n h
  | some r => exact .answer r n h

theorem move_sameControl (s t : Control Cache Manifest × Nat) (x : Bytes) (h : SameControl s t) :
    Machine.SameMove SameControl ((decoderMachine codec).move s x) ((decoderMachine codec).move t x) := by
  obtain ⟨c, k⟩ := s
  obtain ⟨c', k'⟩ := t
  obtain ⟨rfl, hk, hk'⟩ := h
  show Machine.SameMove SameControl (move codec (c, k) x) (move codec (c, k') x)
  cases hneed : c.state.need with
  | none =>
    rw [move_of_need_none hneed, move_of_need_none hneed]
    exact .wait
  | some n =>
    rw [move_of_need hneed, move_of_need hneed, look_numRead hk hk']
    split
    · exact .breakDown _
    · split
      · exact .wait
      · cases c.look codec k' (x.take n) with
        | error p => exact .breakDown p
        | ok r =>
          obtain ⟨c₁, isRead, turn⟩ := r
          cases isRead with
          | true =>
            apply Turn.move_sameControl
            exact ⟨rfl, Nat.add_pos_left hk n, Nat.add_pos_left hk' n⟩
          | false =>
            apply Turn.move_sameControl
            exact ⟨rfl, hk, hk'⟩

theorem drain_numRead {k' : Nat} (hk : 0 < k) (hk' : 0 < k') (x : Bytes) :
    ((decoderMachine codec).drain (c, k) x).1 = ((decoderMachine codec).drain (c, k') x).1 :=
  Machine.drain_of_sameMove move_sameControl (c, k) x ⟨rfl, hk, hk'⟩

/-- A decoder is behind a header only if it has read one. -/
def Started (s : Control Cache Manifest × Nat) : Prop := s.1.state ≠ .waitingForStreamHeader → 0 < s.2

theorem started_of_turn {n : Nat} {c' : Control Cache Manifest} {isRead : Bool} {turn : Turn Msg}
    (h : Started (c, k)) (hneed : c.state.need = some n)
    (hlook : c.look codec k (x.take n) = .ok (c', isRead, turn)) :
    Started (c', k + if isRead then n else 0) := by
  intro _
  by_cases hstate : c.state = .waitingForStreamHeader
  · have hn : n = 12 := by
      rw [hstate] at hneed
      exact (Option.some.inj hneed).symm
    have hisRead : isRead = true := by
      unfold look at hlook
      rw [hstate] at hlook
      cases hr : (c.onStreamHeader (k == 0) (x.take n) : Except Panic (Control Cache Manifest × Turn Msg)) with
      | error p => simp [hr, Except.map] at hlook
      | ok r =>
        simp only [hr, Except.map, Except.ok.injEq, Prod.mk.injEq] at hlook
        exact hlook.2.1.symm
    rw [hisRead, if_pos rfl]
    omega
  · exact Nat.add_pos_left (h hstate) _

theorem keeps_started (codec : Codec Msg Cache Manifest) : (decoderMachine codec).Keeps Started where
  goOn := by
    intro s x s' n h hmove
    obtain ⟨c, k⟩ := s
    rcases move_cases codec c k x with hw | ⟨p, hp⟩ | ⟨m, c', isRead, turn, hneed, -, -, hlook, hm⟩
    · cases hw.symm.trans hmove
    · cases hp.symm.trans hmove
    · obtain ⟨rfl, rfl⟩ := Turn.move_eq_goOn (hm.symm.trans hmove)
      exact started_of_turn h hneed hlook
  answer := by
    intro s x r s' n h hmove
    obtain ⟨c, k⟩ := s
    rcases move_cases codec c k x with hw | ⟨p, hp⟩ | ⟨m, c', isRead, turn, hneed, -, -, hlook, hm⟩
    · cases hw.symm.trans hmove
    · cases hp.symm.trans hmove
    · obtain ⟨rfl, rfl⟩ := Turn.move_eq_answer (hm.symm.trans hmove)
      exact started_of_turn h hneed hlook

/-! ## Bad payloads -/

/-- A payload fails to decode. The end of a stream has a footer for a payload, or none. -/
def Control.Fails (codec : Codec Msg Cache Manifest) (c : Control Cache Manifest) (header : MessageHeader)
    (payload : Bytes) (e : CodecError) : Prop :=
  if header.kind = .end then payload ≠ [] ∧ codec.decodeFooter payload = .error e
  else codec.decode c.appIdCache c.version header.kind payload = .error (.err e)

/-- Wherever a payload fails, exactly that payload is read, the error is returned and a message header
is expected next, by a decoder that has not changed otherwise. -/
def Resynchronises (codec : Codec Msg Cache Manifest) (s : Control Cache Manifest × Nat) (bytes : Bytes) : Prop :=
  ∀ out c k x header e, (decoderMachine codec).Path s bytes out (c, k) x →
    c.state = .waitingForMessagePayload header → header.len.toNat ≤ ISIZE_MAX → header.len.toNat ≤ x.length →
    c.Fails codec header (x.take header.len.toNat) e →
    Control.move codec (c, k) x =
      (Turn.err e).move ({ c with state := .waitingForMessageHeader }, k + header.len.toNat) header.len.toNat

structure MessageStream where
  messages : List Frame
  messages_kind : ∀ f ∈ messages, f.kind ≠ .end
  finish : Option Frame
  finish_kind : ∀ f ∈ finish, f.kind = .end

namespace MessageStream

def finishBytes (s : MessageStream) : Bytes := (s.finish.map Frame.bytes).getD []

def bytes (s : MessageStream) : Bytes := framesBytes s.messages ++ s.finishBytes

end MessageStream

theorem Control.move_of_fails (hstate : c.state = .waitingForMessagePayload header)
    (hcap : header.len.toNat ≤ ISIZE_MAX) (hlen : header.len.toNat ≤ x.length)
    (hfails : c.Fails codec header (x.take header.len.toNat) e) :
    Control.move codec (c, k) x = (Turn.err e).move
      (if header.kind = .end then c else { c with state := .waitingForMessageHeader }, k + header.len.toNat)
        header.len.toNat := by
  have hlook : c.look codec k (x.take header.len.toNat) =
      .ok (if header.kind = .end then c else { c with state := .waitingForMessageHeader }, true, .err e) := by
    unfold look
    rw [hstate]
    dsimp only
    unfold onMessagePayload
    unfold Fails at hfails
    by_cases hkind : header.kind = .end
    · rw [if_pos hkind] at hfails ⊢
      rw [if_neg (by rw [List.isEmpty_iff]; exact hfails.1), hfails.2, if_pos hkind]
      rfl
    · rw [if_neg hkind] at hfails ⊢
      rw [hfails, if_neg hkind]
      rfl
  exact move_turn (by rw [hstate]; rfl) (by omega) (by omega) hlook

theorem path_frames_cases (fs : List Frame) : ∀ {c : Control Cache Manifest} {k : Nat} {rest : Bytes}
    {out : List (Except CodecError Msg)} {c₁ : Control Cache Manifest} {k₁ : Nat} {x : Bytes} {header : MessageHeader},
    c.state = .waitingForMessageHeader → (∀ f ∈ fs, f.kind ≠ .end) → (∀ f ∈ fs, f.Returns codec) →
    (decoderMachine codec).Path (c, k) (framesBytes fs ++ rest) out (c₁, k₁) x →
    c₁.state = .waitingForMessagePayload header →
      header.kind ≠ .end ∨ ∃ out' c' k', c'.state = .waitingForMessageHeader ∧
        (decoderMachine codec).Path (c', k') rest out' (c₁, k₁) x := by
  induction fs with
  | nil =>
    intro c k rest out c₁ k₁ x header hc _ _ hpath _
    exact .inr ⟨out, c, k, hc, hpath⟩
  | cons f fs ih =>
    intro c k rest out c₁ k₁ x header hc hne hreturns hpath hc₁
    have hf := hne f mem_cons_self
    have hfs : ∀ g ∈ fs, g.kind ≠ .end := fun g hg => hne g (mem_cons_of_mem _ hg)
    have hrs : ∀ g ∈ fs, g.Returns codec := fun g hg => hreturns g (mem_cons_of_mem _ hg)
    rw [framesBytes_cons, append_assoc] at hpath
    obtain ⟨hheader, hdrop⟩ := @Control.move_messageHeader _ _ _ codec c k hc f (framesBytes fs ++ rest)
    obtain ⟨turn, hturn⟩ : ∃ turn : Turn Msg, onMessagePayload codec
        { c with state := .waitingForMessagePayload f.header } f.header f.payload =
          .ok ((c.deliver codec [f]).2, turn) := by
      rcases onMessagePayload_deliver hc hf (hreturns f mem_cons_self) with ⟨e, h, -⟩ | ⟨message, h, -⟩
      · exact ⟨_, h⟩
      · exact ⟨_, h⟩
    obtain ⟨hpayload, hdrop'⟩ := @Control.move_payload _ _ _ codec _ (k + MessageHeader.ENCODED_SIZE_BYTES) f rfl
      _ _ hturn (framesBytes fs ++ rest)
    have hstate := @Control.deliver_state _ _ _ codec c hc [f]
    cases hpath with
    | refl =>
      rw [hc] at hc₁
      cases hc₁
    | answer h _ => cases h.symm.trans hheader
    | goOn h hrest =>
      obtain ⟨rfl, rfl⟩ := Move.goOn.inj (h.symm.trans hheader)
      rw [hdrop] at hrest
      cases hrest with
      | refl =>
        cases hc₁
        exact .inl hf
      | goOn h' hrest' =>
        obtain ⟨rfl, rfl⟩ := Turn.move_eq_goOn (hpayload.symm.trans h')
        rw [hdrop'] at hrest'
        exact ih hstate hfs hrs hrest' hc₁
      | answer h' hrest' =>
        obtain ⟨rfl, rfl⟩ := Turn.move_eq_answer (hpayload.symm.trans h')
        rw [hdrop'] at hrest'
        exact ih hstate hfs hrs hrest' hc₁

/-! ## The end of a stream -/

theorem Turn.err_move_inj {σ : Type} {s s' : σ} {n n' : Nat}
    (h : ((Turn.err e : Turn Msg).move s n : Move σ _ _) = (Turn.err e).move s' n') : s = s' := by
  cases e with
  | storeIdMissingApplicationId kind id => exact (Move.goOn.inj h).1
  | invalidOptions e => exact (Move.answer.inj h).2.1
  | incompatibleDalaranVersion file localVersion => exact (Move.answer.inj h).2.1
  | notAnRrd expected actual => exact (Move.answer.inj h).2.1
  | oldRrdVersion => exact (Move.answer.inj h).2.1
  | frameDecoding text => exact (Move.answer.inj h).2.1
  | crcMismatch expected got => exact (Move.answer.inj h).2.1
  | io text => exact (Move.answer.inj h).2.1
  | payload text => exact (Move.answer.inj h).2.1

/-- The payload of the end of a stream is empty or a footer. -/
def Frame.GoodEnd (codec : Codec Msg Cache Manifest) (f : Frame) : Prop :=
  f.payload = [] ∨ ∃ manifests, codec.decodeFooter f.payload = .ok manifests

theorem Control.onMessagePayload_end {f : Frame} (hkind : f.kind = .end) (hgood : f.GoodEnd codec) :
    ∃ manifests, c.onMessagePayload codec f.header f.payload =
      .ok ({ c with dlrManifests := c.dlrManifests ++ manifests, state := .waitingForStreamFooter }, .again) := by
  unfold onMessagePayload
  rw [if_pos (show f.header.kind = .end from hkind)]
  by_cases hempty : f.payload = []
  · refine ⟨[], ?_⟩
    rw [if_pos (List.isEmpty_iff.mpr hempty), append_nil]
  · obtain ⟨manifests, hfooter⟩ := hgood.resolve_left hempty
    refine ⟨manifests, ?_⟩
    rw [if_neg (by rw [List.isEmpty_iff]; exact hempty), hfooter]

theorem path_nil {n : Nat} (hneed : c.state.need = some (n + 1)) (hcap : n < ISIZE_MAX)
    {out : List (Except CodecError Msg)} (h : (decoderMachine codec).Path (c, k) [] out s x) : s = (c, k) := by
  have hmove : move codec (c, k) [] = .wait := by
    rw [move_of_need hneed, if_neg (by omega), if_pos (by rw [length_nil]; omega)]
  cases h with
  | refl => rfl
  | goOn h _ => cases hmove.symm.trans h
  | answer h _ => cases hmove.symm.trans h

theorem not_fails_of_goodEnd (hc : c.state = .waitingForMessageHeader) {f : Frame} (hkind : f.kind = .end)
    (hgood : f.GoodEnd codec) {out : List (Except CodecError Msg)} {c₁ : Control Cache Manifest} {k₁ : Nat}
    (hpath : (decoderMachine codec).Path (c, k) f.bytes out (c₁, k₁) x)
    (hc₁ : c₁.state = .waitingForMessagePayload header) :
    ¬ c₁.Fails codec header (x.take header.len.toNat) e := by
  obtain ⟨hheader, hdrop⟩ := @Control.move_messageHeader _ _ _ codec c k hc f []
  obtain ⟨manifests, hend⟩ := @Control.onMessagePayload_end _ _ _ codec
    { c with state := .waitingForMessagePayload f.header } f hkind hgood
  obtain ⟨hpayload, hdrop'⟩ := @Control.move_payload _ _ _ codec _ (k + MessageHeader.ENCODED_SIZE_BYTES) f rfl
    _ _ hend []
  rw [append_nil] at hheader hdrop hpayload hdrop'
  rw [append_nil] at hdrop
  cases hpath with
  | refl =>
    rw [hc] at hc₁
    cases hc₁
  | answer h _ => cases h.symm.trans hheader
  | goOn h hrest =>
    obtain ⟨rfl, rfl⟩ := Move.goOn.inj (h.symm.trans hheader)
    rw [hdrop] at hrest
    cases hrest with
    | refl =>
      cases hc₁
      unfold Fails
      rw [if_pos (show f.header.kind = .end from hkind), Frame.header_len, take_length]
      intro hfails
      obtain ⟨manifests', hfooter⟩ := hgood.resolve_left hfails.1
      cases hfooter.symm.trans hfails.2
    | answer h' _ => cases h'.symm.trans hpayload
    | goOn h' hrest' =>
      obtain ⟨rfl, rfl⟩ := Move.goOn.inj (h'.symm.trans hpayload)
      rw [hdrop'] at hrest'
      have hplace := path_nil (show _ = some (31 + 1) from rfl) (by decide) hrest'
      obtain ⟨rfl, -⟩ := Prod.mk.inj hplace
      cases hc₁

namespace Decoder

theorem resynchronises_place_iff (hc : c.state = .waitingForMessageHeader) (s : MessageStream)
    (hreturns : ∀ f ∈ s.messages, f.Returns codec) :
    Resynchronises codec (c, k) s.bytes ↔ ∀ f, s.finish = some f → f.GoodEnd codec := by
  constructor
  · intro hsync f hf
    by_contra hbad
    have hkind := s.finish_kind f hf
    have hfinish : s.finishBytes = f.bytes ++ [] := by
      rw [MessageStream.finishBytes, hf, append_nil]
      rfl
    have hrow := @path_frames _ _ _ codec c k hc s.messages s.messages_kind hreturns s.finishBytes
    rw [hfinish] at hrow
    have hstate := @Control.deliver_state _ _ _ codec c hc s.messages
    obtain ⟨hheader, hdrop⟩ := @Control.move_messageHeader _ _ _ codec (c.deliver codec s.messages).2
      (k + (framesBytes s.messages).length) hstate f []
    have hpath := hrow.trans (.goOn hheader (.refl _ _))
    simp only [append_nil] at hpath
    -- the decoder stands in front of the bad payload
    have hne : f.payload ≠ [] := fun h => hbad (.inl h)
    cases hfooter : codec.decodeFooter f.payload with
    | ok manifests => exact hbad (.inr ⟨manifests, hfooter⟩)
    | error e =>
      have hlen := f.header_len
      have htake : f.payload.take f.header.len.toNat = f.payload := by rw [hlen, take_length]
      have hfails : ({ (c.deliver codec s.messages).2 with
          state := .waitingForMessagePayload f.header } : Control Cache Manifest).Fails codec f.header
          (f.payload.take f.header.len.toNat) e := by
        unfold Fails
        rw [htake, if_pos (show f.header.kind = .end from hkind)]
        exact ⟨hne, hfooter⟩
      have hcap : f.header.len.toNat ≤ ISIZE_MAX := by
        rw [hlen]
        exact f.payload_le
      have hmove := hsync _ _ _ _ f.header e (by
        rw [MessageStream.bytes, hfinish, append_nil]
        exact hpath) rfl hcap (Nat.le_of_eq hlen) hfails
      have hactual := @Control.move_of_fails _ _ _ codec _ (k + (framesBytes s.messages).length +
        MessageHeader.ENCODED_SIZE_BYTES) f.payload f.header e rfl hcap (Nat.le_of_eq hlen) hfails
      have hplace := Turn.err_move_inj (hactual.symm.trans hmove)
      rw [if_pos (show f.header.kind = .end from hkind)] at hplace
      have hsame := congrArg (fun s : Control Cache Manifest × Nat => s.1.state) hplace
      cases hsame
  · intro hgood out c₁ k₁ x header e hpath hc₁ hcap hlen hfails
    rw [move_of_fails hc₁ hcap hlen hfails]
    rcases path_frames_cases s.messages hc s.messages_kind hreturns hpath hc₁ with hkind | ⟨out', c', k', hc', hpath'⟩
    · rw [if_neg hkind]
    · cases hf : s.finish with
      | none =>
        have hfinish : s.finishBytes = [] := by
          rw [MessageStream.finishBytes, hf]
          rfl
        rw [hfinish] at hpath'
        have hplace := path_nil (by rw [hc']; rfl) (by decide) hpath'
        obtain ⟨rfl, -⟩ := Prod.mk.inj hplace
        rw [hc'] at hc₁
        cases hc₁
      | some f =>
        have hfinish : s.finishBytes = f.bytes := by
          rw [MessageStream.finishBytes, hf]
          rfl
        rw [hfinish] at hpath'
        exact absurd hfails (not_fails_of_goodEnd hc' (s.finish_kind f hf) (hgood f hf) hpath' hc₁)

theorem calls_started (cache : Cache) {ops : List (Machine.Op UInt8)} {d : Decoder Cache Manifest}
    (h : (calls codec (new cache) ops).2 = .ok d) : d.Ready ∧ Started d.place := by
  obtain ⟨hready, hcalls⟩ := calls_refines codec ops _ (ready_new cache)
  refine ⟨hready d h, ?_⟩
  have hnew : Started (new cache : Decoder Cache Manifest).place := fun hne => absurd rfl hne
  have hstand : ((decoderMachine codec).calls (.on (new cache).place []) ops).2 =
      .on d.place d.byteChunks.pending := by
    rw [show (decoderMachine codec).calls (.on (new cache).place []) ops = _ from hcalls, h]
    rfl
  exact (keeps_started codec).calls ops _ _ hnew hstand

theorem readAll_frames {d : Decoder Cache Manifest} (hready : d.Ready) (hstate : d.state = .waitingForMessageHeader)
    (hpending : d.byteChunks.pending = []) (fs : List Frame) (hne : ∀ f ∈ fs, f.kind ≠ .end)
    (hreturns : ∀ f ∈ fs, f.Returns codec) (rest : Bytes) :
    (readAll codec (d.pushByteChunk (framesBytes fs ++ rest))).1 = (d.deliver codec fs).1 ++
      ((decoderMachine codec).drain ((d.deliver codec fs).2, d.byteChunks.numRead + (framesBytes fs).length) rest).1 := by
  have hall := (readAll_refines codec (hready.push (framesBytes fs ++ rest))).2
  rw [pushByteChunk_place, pushByteChunk_pending, hpending, nil_append] at hall
  have hpath := @path_frames _ _ _ codec d.toControl d.byteChunks.numRead hstate fs hne hreturns rest
  rw [show d.place = (d.toControl, d.byteChunks.numRead) from rfl, hpath.drain] at hall
  exact (Prod.mk.inj hall).1.symm

/-- Bad payloads in a stream, met by any decoder that expects a message. Where decoding no payload panics,
it resynchronises behind each of the bad ones if and only if the end of the stream is not one; and the
results for the messages are those of the good ones alone with the errors of the bad ones in between,
whatever comes behind. -/
theorem resynchronises_iff (codec : Codec Msg Cache Manifest) (cache : Cache) (ops : List (Machine.Op UInt8))
    (d : Decoder Cache Manifest) (hreached : (calls codec (new cache) ops).2 = .ok d)
    (hstate : d.state = .waitingForMessageHeader) (hpending : d.byteChunks.pending = []) (s : MessageStream)
    (hreturns : ∀ f ∈ s.messages, f.Returns codec) :
    (Resynchronises codec d.place s.bytes ↔ ∀ f, s.finish = some f → f.GoodEnd codec) ∧
    ∀ tail, ∃ later,
      (readAll codec (d.pushByteChunk (s.bytes ++ tail))).1 = (d.deliver codec s.messages).1 ++ later ∧
      (readAll codec (d.pushByteChunk (framesBytes (d.survivors codec s.messages) ++ (s.finishBytes ++ tail)))).1 =
        (messages (d.deliver codec s.messages).1).map .ok ++ later := by
  obtain ⟨hready, hstarted⟩ := calls_started cache hreached
  have hnum : 0 < d.byteChunks.numRead := by
    apply hstarted
    rw [show d.place.1.state = d.state from rfl, hstate]
    intro h
    cases h
  refine ⟨resynchronises_place_iff hstate s hreturns, ?_⟩
  intro tail
  have hsubset := @survivors_subset _ _ _ codec d.toControl s.messages
  refine ⟨((decoderMachine codec).drain ((d.deliver codec s.messages).2,
    d.byteChunks.numRead + (framesBytes s.messages).length) (s.finishBytes ++ tail)).1, ?_, ?_⟩
  · rw [MessageStream.bytes, append_assoc]
    exact readAll_frames hready hstate hpending s.messages s.messages_kind hreturns (s.finishBytes ++ tail)
  · rw [readAll_frames hready hstate hpending _ (fun f hf => s.messages_kind f (hsubset hf))
      (fun f hf => hreturns f (hsubset hf)), deliver_survivors]
    refine congrArg _ (drain_numRead ?_ ?_ _)
    · omega
    · omega

/-- A decoder that has read such a header. -/
def behindHeader : Decoder Unit Bytes where
  version := some ⟨0, 1, 0, none⟩
  options := .PROTOBUF_UNCOMPRESSED
  state := .waitingForMessageHeader
  appIdCache := ()
  dlrManifests := []
  byteChunks := ⟨[], 0, [], 12⟩

def plainStoreInfo : Frame := ⟨.setStoreInfo, [7], by decide⟩

def oneBadMessage : MessageStream where
  messages := [⟨.arrowMsg, [255], by decide⟩, plainStoreInfo]
  messages_kind := by decide
  finish := some ⟨.end, [], by decide⟩
  finish_kind := by decide

theorem plain_returns (f : Frame) : f.Returns Codec.plain := by
  intro c _ p hp
  unfold Codec.plain at hp
  dsimp only at hp
  split at hp <;> cases hp

theorem resynchronises_oneBadMessage :
    (calls Codec.plain (new ()) [.push plainHeader, .read]).2 = .ok behindHeader ∧
      Resynchronises Codec.plain behindHeader.place oneBadMessage.bytes := by
  have h := resynchronises_iff Codec.plain () [.push plainHeader, .read] behindHeader rfl rfl rfl oneBadMessage
    fun f _ => plain_returns f
  refine ⟨rfl, h.1.mpr ?_⟩
  intro f hf
  cases hf
  exact .inl rfl

def badEnd : Bytes :=
  plainHeader ++ Frame.bytes ⟨.end, [255], by decide⟩ ++ Frame.bytes ⟨.setStoreInfo, [7], by decide⟩

/-- After the error for the end of a stream, the decoder waits for another payload of its length, and
the message behind it is lost. -/
theorem badEnd_desynchronises :
    (calls Codec.plain (new ()) [.push badEnd, .read]).1 = [.error (.payload "failed to decode Protobuf message")] ∧
    (∃ d, (calls Codec.plain (new ()) [.push badEnd, .read]).2 = .ok d ∧
      d.state = .waitingForMessagePayload ⟨.end, 1⟩ ∧
      d.byteChunks.pending = Frame.bytes ⟨.setStoreInfo, [7], by decide⟩) ∧
    (readAll Codec.plain ((new ()).pushByteChunk badEnd)).1 =
      [.error (.payload "failed to decode Protobuf message")] := by
  refine ⟨rfl, ⟨_, rfl, rfl, rfl⟩, rfl⟩

end Decoder

end Dalaran
