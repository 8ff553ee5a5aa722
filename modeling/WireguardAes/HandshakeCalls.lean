import WireguardAes.HandshakeRuns

/-!
# The calls that carry out a handshake (`receive.c`, `send.c`, `noise.c`)

`HandshakeRuns` has the sections of `noise.c`; here they are put together as
`wg_receive_handshake_packet` and `wg_packet_send_handshake_response` call them. A worker that has
accepted an initiation goes on to create a response, to begin a session and to send the response;
one that has accepted a response begins a session. The initiation worker and
`wg_noise_handshake_clear` are steps of their own. Sections of different calls interleave in any
order, messages are presented any number of times, and the clock does not go back.

What the statements need of the past is recorded beside the state.
-/

namespace WireguardAes

open Runs

/-- Where a handshake worker is in its call, with what it holds on its stack. The numbers are
history: how many initiations had been accepted when this one was checked, how often the handshake's
entry had been inserted when the response was looked up, how many keys had been generated with the
response's. A call that has accepted a response keeps its receiver index for the record. -/
inductive HandshakeCall where
  | idle
  /-- `consume_initiation`, neither a replay nor a flood. -/
  | checked (src : MessageHandshakeInitiation) (t chainingKey hash : Bytes) (accepted : Nat)
  /-- `wg_packet_send_handshake_response`. -/
  | respond
  /-- After `create_response`, which left this chaining key. -/
  | responding (packet : MessageHandshakeResponse) (chainingKey : Bytes) (generated : Nat)
  /-- `consume_response`, after `wg_index_hashtable_lookup`. -/
  | found (src : MessageHandshakeResponse) (inserted : Nat)
  /-- `consume_response`, after `message_decrypt`. -/
  | opened (src : MessageHandshakeResponse) (copied : NoiseHandshake) (chainingKey hash : Bytes) (inserted : Nat)
  /-- After `consume_response`. -/
  | accepted (receiverIndex : U32) (inserted : Nat)

/-- The callers of `wg_noise_handshake_begin_session`. -/
def HandshakeCall.beginsSession : HandshakeCall → Bool
  | .responding _ _ _ => true
  | .accepted _ _ => true
  | _ => false

/-- The receiver index of the response that the call has accepted. -/
def HandshakeCall.response : HandshakeCall → Option U32
  | .accepted i _ => some i
  | _ => none

structure AcceptedInitiation where
  src : MessageHandshakeInitiation
  t : Bytes
  time : U64

/-- A keypair handed to `add_new_keypair`, with the index it is registered under and the receiver
index of the response that the same call had accepted, if it had. -/
structure InstalledSession where
  keypair : NoiseKeypair
  chainingKey : Bytes
  index : Option U32
  response : Option U32

/-- A response that was transmitted, with the chaining key `create_response` left. -/
structure SentResponse where
  packet : MessageHandshakeResponse
  chainingKey : Bytes
  session : InstalledSession

structure HandshakeCalls where
  hs : NoiseHandshake
  /-- The index of the handshake's entry while it is in the index hashtable. -/
  entry : Option U32
  call : Nat → HandshakeCall
  clock : U64
  accepted : List AcceptedInitiation
  generated : Nat
  inserted : Nat
  installed : List InstalledSession
  sent : List SentResponse

inductive CallEvent where
  | createInitiation (secret timestamp : Bytes) (index : U32)
  | checkInitiation (w : Nat) (src : MessageHandshakeInitiation) (now : U64)
  | writeInitiation (w : Nat) (now : U64)
  | createResponse (w : Nat) (secret : Bytes) (index : U32)
  | lookupResponse (w : Nat) (src : MessageHandshakeResponse)
  | readResponse (w : Nat)
  | writeResponse (w : Nat)
  | beginSession (w : Nat) (outcome : SessionOutcome) (birthdate : U64)
  | handshakeClear

/-- The worker whose call goes on. -/
def CallEvent.worker : CallEvent → Option Nat
  | .checkInitiation w _ _ => some w
  | .writeInitiation w _ => some w
  | .createResponse w _ _ => some w
  | .lookupResponse w _ => some w
  | .readResponse w => some w
  | .writeResponse w => some w
  | .beginSession w _ _ => some w
  | .createInitiation _ _ _ => none
  | .handshakeClear => none

def initiationInterval : Nat := nsecPerSec / initiationsPerSecond

namespace HandshakeCalls

def init (hs : NoiseHandshake) : HandshakeCalls where
  hs
  entry := none
  call _ := .idle
  clock := 0
  accepted := []
  generated := 0
  inserted := 0
  installed := []
  sent := []

def goto (s : HandshakeCalls) (w : Nat) (x : HandshakeCall) : HandshakeCalls :=
  { s with call := Function.update s.call w x }

/-- The boot-time clock, in nanoseconds, is far from the end of its range. -/
def ClockOk (s : HandshakeCalls) (now : U64) : Prop :=
  s.clock.toNat ≤ now.toNat ∧ now.toNat + initiationInterval < 2 ^ 63

instance (s : HandshakeCalls) (now : U64) : Decidable (s.ClockOk now) := inferInstanceAs (Decidable (_ ∧ _))

/-- A section of `create_initiation` or `create_response` that generated a key; `sent` is the index
of the message, if it got that far. -/
def generate (s : HandshakeCalls) (hs : NoiseHandshake) (sent : Option U32) : HandshakeCalls :=
  { s with
    hs
    entry := sent <|> s.entry
    generated := s.generated + 1
    inserted := if sent.isSome then s.inserted + 1 else s.inserted }

/-- The last section of `begin_session`: the keypair's entry takes the place of the handshake's. -/
def install (s : HandshakeCalls) (x : InstalledSession) : HandshakeCalls :=
  { s with
    hs := handshakeZero s.hs
    entry := none
    installed := x :: s.installed }

/-- `wg_packet_send_handshake_response` transmits if `begin_session` returned true, which is what
`wg_index_hashtable_replace` returns. -/
def transmit (s : HandshakeCalls) (x : InstalledSession) : HandshakeCall → List SentResponse
  | .responding packet chainingKey _ => if x.index.isSome then ⟨packet, chainingKey, x⟩ :: s.sent else s.sent
  | _ => s.sent

section
variable (C : Crypto) (identity : NoiseStaticIdentity) (isChacha : Bool)

def session (s : HandshakeCalls) (w : Nat) (keypair : NoiseKeypair) : InstalledSession :=
  ⟨keypair, s.hs.chainingKey, s.entry, (s.call w).response⟩

def step (s : HandshakeCalls) : CallEvent → Option HandshakeCalls
  | .createInitiation secret timestamp index =>
    if !identity.hasIdentity then some s else
    let r := createInitiation C identity s.hs secret timestamp index
    some (s.generate r.1 (r.2.map (·.senderIndex)))
  | .checkInitiation w src now =>
    match s.call w with
    | .idle =>
      (openStatic C identity src).bind fun (pub, chainingKey, hash) =>
      if pub ≠ s.hs.remoteStatic then none else
      (openTimestamp C s.hs src chainingKey hash).bind fun (t, chainingKey, hash) =>
      if ¬ s.ClockOk now ∨ replayAttack s.hs t ∨ floodAttack s.hs now then none
      else some { s.goto w (.checked src t chainingKey hash s.accepted.length) with clock := now }
    | _ => none
  | .writeInitiation w now =>
    match s.call w with
    | .checked src t chainingKey hash _ =>
      if ¬ s.ClockOk now then none else
      some { s.goto w .respond with
        hs := writeInitiation s.hs src t chainingKey hash now
        clock := now
        accepted := ⟨src, t, now⟩ :: s.accepted }
    | _ => none
  | .createResponse w secret index =>
    match s.call w with
    | .respond =>
      if s.hs.state ≠ .consumedInitiation then some (s.goto w .idle) else
      let r := createResponse C s.hs secret index
      some ((s.generate r.1 (r.2.map (·.senderIndex))).goto w
        (r.2.elim .idle fun packet => .responding packet r.1.chainingKey (s.generated + 1)))
    | _ => none
  | .lookupResponse w src =>
    match s.call w with
    | .idle =>
      if identity.hasIdentity ∧ s.entry = some src.receiverIndex then some (s.goto w (.found src s.inserted)) else none
    | _ => none
  | .readResponse w =>
    match s.call w with
    | .found src n =>
      match openResponse C identity s.hs src with
      | none => some (s.goto w .idle)
      | some (chainingKey, hash) => some (s.goto w (.opened src s.hs chainingKey hash n))
    | _ => none
  | .writeResponse w =>
    match s.call w with
    | .opened src copied chainingKey hash n =>
      if s.hs.state ≠ copied.state then some (s.goto w .idle)
      else some { s.goto w (.accepted src.receiverIndex n) with hs := writeResponse s.hs src chainingKey hash }
    | _ => none
  | .beginSession w outcome birthdate =>
    if !(s.call w).beginsSession then none else
    match newKeypair C isChacha s.hs birthdate, outcome with
    | none, _ => some (s.goto w .idle)
    | some _, .noKeypair => some (s.goto w .idle)
    | some _, .aeadFailed => if isChacha then none else some (s.goto w .idle)
    | some _, .dead => some { s.goto w .idle with hs := handshakeZero s.hs }
    | some keypair, .installed =>
      let x := s.session w keypair
      some { (s.install x).goto w .idle with sent := s.transmit x (s.call w) }
  | .handshakeClear => some { s with hs := handshakeZero s.hs, entry := none }

/-! ### What a step can do -/

inductive Step (s : HandshakeCalls) : CallEvent → HandshakeCalls → Prop
  | noIdentity {secret timestamp : Bytes} {index : U32} : Step s (.createInitiation secret timestamp index) s
  | stopInitiation {secret timestamp : Bytes} {index : U32} {hs : NoiseHandshake}
      (hr : WireguardAes.createInitiation C identity s.hs secret timestamp index = (hs, none)) :
      Step s (.createInitiation secret timestamp index) (s.generate hs none)
  | createInitiation {secret timestamp : Bytes} {index : U32} {hs : NoiseHandshake}
      {packet : MessageHandshakeInitiation}
      (hr : WireguardAes.createInitiation C identity s.hs secret timestamp index = (hs, some packet)) :
      Step s (.createInitiation secret timestamp index) (s.generate hs (some packet.senderIndex))
  | checkInitiation {w : Nat} {src : MessageHandshakeInitiation} {now : U64} {t ck ck' hash hash' : Bytes}
      (hclock : s.ClockOk now) (hs : openStatic C identity src = some (s.hs.remoteStatic, ck, hash))
      (ht : openTimestamp C s.hs src ck hash = some (t, ck', hash')) (hreplay : replayAttack s.hs t = false)
      (hflood : floodAttack s.hs now = false) :
      Step s (.checkInitiation w src now)
        { s.goto w (.checked src t ck' hash' s.accepted.length) with clock := now }
  | writeInitiation {w : Nat} {now : U64} {src : MessageHandshakeInitiation} {t ck hash : Bytes} {n : Nat}
      (hw : s.call w = .checked src t ck hash n) (hclock : s.ClockOk now) :
      Step s (.writeInitiation w now) { s.goto w .respond with
        hs := WireguardAes.writeInitiation s.hs src t ck hash now
        clock := now
        accepted := ⟨src, t, now⟩ :: s.accepted }
  | stopResponse {w : Nat} {secret : Bytes} {index : U32} {hs : NoiseHandshake}
      (hr : WireguardAes.createResponse C s.hs secret index = (hs, none)) :
      Step s (.createResponse w secret index) ((s.generate hs none).goto w .idle)
  | createResponse {w : Nat} {secret : Bytes} {index : U32} {hs : NoiseHandshake} {packet : MessageHandshakeResponse}
      (hr : WireguardAes.createResponse C s.hs secret index = (hs, some packet)) :
      Step s (.createResponse w secret index) ((s.generate hs (some packet.senderIndex)).goto w
        (.responding packet hs.chainingKey (s.generated + 1)))
  | lookupResponse {w : Nat} {src : MessageHandshakeResponse} (he : s.entry = some src.receiverIndex) :
      Step s (.lookupResponse w src) (s.goto w (.found src s.inserted))
  | readResponse {w : Nat} {src : MessageHandshakeResponse} {n : Nat} {ck hash : Bytes}
      (hw : s.call w = .found src n) (ho : openResponse C identity s.hs src = some (ck, hash)) :
      Step s (.readResponse w) (s.goto w (.opened src s.hs ck hash n))
  | writeResponse {w : Nat} {src : MessageHandshakeResponse} {copied : NoiseHandshake} {ck hash : Bytes} {n : Nat}
      (hw : s.call w = .opened src copied ck hash n) (hst : s.hs.state = copied.state) :
      Step s (.writeResponse w) { s.goto w (.accepted src.receiverIndex n) with
        hs := WireguardAes.writeResponse s.hs src ck hash }
  | dead {w : Nat} {outcome : SessionOutcome} {birthdate : U64} :
      Step s (.beginSession w outcome birthdate) { s.goto w .idle with hs := handshakeZero s.hs }
  | install {w : Nat} {birthdate : U64} {keypair : NoiseKeypair}
      (hk : newKeypair C isChacha s.hs birthdate = some keypair) :
      Step s (.beginSession w .installed birthdate)
        { (s.install (s.session w keypair)).goto w .idle with sent := s.transmit (s.session w keypair) (s.call w) }
  /-- A call that ends without having touched the handshake in this section. -/
  | endCall {ev : CallEvent} {w : Nat} (hw : ev.worker = some w) : Step s ev (s.goto w .idle)
  | handshakeClear : Step s .handshakeClear { s with hs := handshakeZero s.hs, entry := none }

end

variable {C : Crypto} {identity : NoiseStaticIdentity} {isChacha : Bool} {s s' : HandshakeCalls} {ev : CallEvent}

theorem step_cases (h : step C identity isChacha s ev = some s') : Step C identity isChacha s ev s' := by
  cases ev with
  | createInitiation secret timestamp index =>
    cases hid : identity.hasIdentity with
    | false =>
      simp only [step, hid, Bool.not_false, if_true, Option.some.injEq] at h
      exact h ▸ .noIdentity
    | true =>
    cases hr : WireguardAes.createInitiation C identity s.hs secret timestamp index with
    | mk hs packet =>
    simp only [step, hid, Bool.not_true, Bool.false_eq_true, if_false, hr, Option.some.injEq] at h
    cases packet with
    | none => exact h ▸ .stopInitiation hr
    | some packet => exact h ▸ .createInitiation hr
  | checkInitiation w src now =>
    cases hw : s.call w with
    | idle =>
      simp only [step, hw] at h
      obtain ⟨⟨pub, ck, hash⟩, hs, h⟩ := Option.bind_eq_some_iff.mp h
      obtain ⟨hpub, h⟩ := Option.ite_none_left_eq_some.mp h
      obtain ⟨⟨t, ck', hash'⟩, ht, h⟩ := Option.bind_eq_some_iff.mp h
      obtain ⟨hok, h⟩ := Option.ite_none_left_eq_some.mp h
      simp only [not_or, not_not, Bool.not_eq_true] at hok
      cases h
      obtain rfl : pub = s.hs.remoteStatic := not_ne_iff.mp hpub
      exact .checkInitiation hok.1 hs ht hok.2.1 hok.2.2
    | _ => simp only [step, hw, reduceCtorEq] at h
  | writeInitiation w now =>
    cases hw : s.call w with
    | checked src t ck hash n =>
      simp only [step, hw] at h
      obtain ⟨hclock, h⟩ := Option.ite_none_left_eq_some.mp h
      cases h
      exact .writeInitiation hw (not_not.mp hclock)
    | _ => simp only [step, hw, reduceCtorEq] at h
  | createResponse w secret index =>
    cases hw : s.call w with
    | respond =>
      simp only [step, hw] at h
      by_cases hst : s.hs.state = .consumedInitiation
      · cases hr : WireguardAes.createResponse C s.hs secret index with
        | mk hs packet =>
        rw [if_neg (not_not.mpr hst), hr] at h
        cases packet with
        | none => cases h; exact .stopResponse hr
        | some packet => cases h; exact .createResponse hr
      · rw [if_pos hst] at h
        cases h
        exact .endCall rfl
    | _ => simp only [step, hw, reduceCtorEq] at h
  | lookupResponse w src =>
    cases hw : s.call w with
    | idle =>
      simp only [step, hw] at h
      obtain ⟨he, h⟩ := Option.ite_none_right_eq_some.mp h
      cases h
      exact .lookupResponse he.2
    | _ => simp only [step, hw, reduceCtorEq] at h
  | readResponse w =>
    cases hw : s.call w with
    | found src n =>
      simp only [step, hw] at h
      rcases ho : openResponse C identity s.hs src with - | ⟨ck, hash⟩
      · rw [ho] at h
        cases h
        exact .endCall rfl
      · rw [ho] at h
        cases h
        exact .readResponse hw ho
    | _ => simp only [step, hw, reduceCtorEq] at h
  | writeResponse w =>
    cases hw : s.call w with
    | opened src copied ck hash n =>
      simp only [step, hw] at h
      by_cases hst : s.hs.state = copied.state
      · rw [if_neg (not_not.mpr hst)] at h
        cases h
        exact .writeResponse hw hst
      · rw [if_pos hst] at h
        cases h
        exact .endCall rfl
    | _ => simp only [step, hw, reduceCtorEq] at h
  | beginSession w outcome birthdate =>
    obtain ⟨-, h⟩ := Option.ite_none_left_eq_some.mp h
    rcases hk : newKeypair C isChacha s.hs birthdate with - | keypair
    · rw [hk] at h
      cases h
      exact .endCall rfl
    rw [hk] at h
    cases outcome with
    | noKeypair => cases h; exact .endCall rfl
    | aeadFailed =>
      obtain ⟨-, h⟩ := Option.ite_none_left_eq_some.mp h
      cases h
      exact .endCall rfl
    | dead => cases h; exact .dead
    | installed => cases h; exact .install hk
  | handshakeClear => cases h; exact .handshakeClear

theorem forall_goto {P : HandshakeCall → Prop} (h : ∀ w, P (s.call w)) (w : Nat) {x : HandshakeCall} (hx : P x) :
    ∀ w', P ((s.goto w x).call w') :=
  (Function.forall_update_iff s.call fun _ x => P x).mpr ⟨hx, fun w' _ => h w'⟩

end HandshakeCalls

section
variable {C : Crypto} {identity : NoiseStaticIdentity} {h h' : NoiseHandshake}
variable {secret : Bytes} {index : U32}

theorem SameRecord.createInitiation {timestamp : Bytes}
    {packet : Option MessageHandshakeInitiation}
    (hr : createInitiation C identity h secret timestamp index = (h', packet)) : SameRecord h h' := by
  have hc := (createInitiation_cases C identity h secret timestamp index).1
  rwa [hr] at hc

theorem SameRecord.createResponse {packet : Option MessageHandshakeResponse}
    (hr : createResponse C h secret index = (h', packet)) : SameRecord h h' := by
  have hc := (createResponse_cases C h secret index).1
  rwa [hr] at hc

theorem createInitiation_stopped {timestamp : Bytes}
    (hr : createInitiation C identity h secret timestamp index = (h', none)) :
    h'.state = h.state := by
  have hc := (createInitiation_cases C identity h secret timestamp index).2.2
  rw [hr] at hc
  rcases hc with ⟨-, hst, -⟩ | ⟨_, _, _, hp, -⟩
  · exact hst
  · cases hp

theorem createResponse_stopped
    (hr : createResponse C h secret index = (h', none)) : h'.state = h.state := by
  have hc := (createResponse_cases C h secret index).2.2
  rw [hr] at hc
  rcases hc with ⟨-, hst, -⟩ | ⟨_, _, _, _, hp, -⟩
  · exact hst
  · cases hp

theorem createResponse_sent {packet : MessageHandshakeResponse}
    (hr : createResponse C h secret index = (h', some packet)) : h'.state = .createdResponse := by
  have hc := (createResponse_cases C h secret index).2.2
  rw [hr] at hc
  rcases hc with ⟨hp, -⟩ | ⟨_, _, _, _, -, -, -, hst, -⟩
  · cases hp
  · exact hst

theorem createResponse_from {packet : MessageHandshakeResponse}
    (hr : createResponse C h secret index = (h', some packet)) : h.state = .consumedInitiation := by
  have hc := (createResponse_cases C h secret index).2.2
  rw [hr] at hc
  rcases hc with ⟨hp, -⟩ | ⟨_, _, _, _, -, -, hst, -⟩
  · cases hp
  · exact hst

theorem openResponse_state {src : MessageHandshakeResponse} {r : Bytes × Bytes}
    (ho : openResponse C identity h src = some r) : h.state = .createdInitiation := by
  by_contra hst
  simp [openResponse, hst] at ho

end

theorem SameRecord.writeResponse (h : NoiseHandshake) (src : MessageHandshakeResponse) (ck hash : Bytes) :
    SameRecord h (writeResponse h src ck hash) := ⟨⟨rfl, rfl, rfl⟩, rfl, rfl⟩

theorem SameRecord.handshakeZero (h : NoiseHandshake) : SameRecord h (handshakeZero h) := ⟨⟨rfl, rfl, rfl⟩, rfl, rfl⟩

/-! ### Sample runs -/

open HandshakeRun (plainIdentity)

/-- An initiation of the peer with the public key `[7, 7]`, whose timestamp has all bytes `t`. -/
def plainInitiation (senderIndex : U32) (t : UInt8) : MessageHandshakeInitiation :=
  ⟨senderIndex, [3], tagged 1 [7, 7], tagged 1 (List.replicate noiseTimestampLen t)⟩

abbrev plainCalls (ok : HandshakeCalls → CallEvent → Prop) (s : HandshakeCalls) : Prop :=
  Exec (HandshakeCalls.step plainCrypto plainIdentity true) ok
    (.init (noiseHandshakeInit plainCrypto plainIdentity [7, 7] [4])) s

end WireguardAes
