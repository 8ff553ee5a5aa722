import WireguardAes.HandshakeCalls
import WireguardAes.KeyConfirmation

/-!
# Changing the private key of a device (`netlink.c`)

A `wg_set_device` request with another private key holds the lock of the static identity for writing
while it sets the key and goes through the peers: for each it computes the shared static secret
anew, clears the handshake, and marks the next and the current keypair as not to be sent with. The
functions that create or consume handshake messages hold the same lock for reading from beginning to
end; `begin_session` and the data paths do not. The sections of all of these interleave.

Private keys are numbered, and so it can be said under which one a handshake was started and up to
which one the loop has passed a peer.
-/

namespace WireguardAes

open Function Runs

/-! ### The device and its peers -/

/-- The private key under which something was started, and the one up to which the loop had passed
the peer at that time. -/
structure Stamp where
  under : Nat
  passed : Nat

structure IdentityPeer where
  calls : HandshakeCalls
  keys : KeyUse
  /-- The private key under which the handshake was started. -/
  startedUnder : Nat
  /-- The same for the messages the workers are consuming. -/
  callUnder : Nat → Nat
  /-- The same for the keypairs, by `internal_id`. -/
  keyUnder : Nat → Nat
  passed : Nat
  /-- `passed` when the call of `wg_packet_send_staged_packets` took its keypair. -/
  takenAfter : Nat → Nat
  /-- The keypairs installed by `begin_session`. -/
  installs : List Stamp
  nonces : List Stamp

/-- What the loop does next with a peer. -/
inductive LoopSection where
  | precompute
  | handshakeClear
  | expire

structure IdentityDevice where
  identity : NoiseStaticIdentity
  /-- How often the private key has been set. -/
  generation : Nat
  /-- Peers are numbered as they are created. -/
  peers : Nat → IdentityPeer
  peerCount : Nat
  peerList : List Nat
  /-- The workers that hold the lock of the static identity for reading. -/
  readers : List (Nat × Nat)
  /-- The peers the loop has yet to pass while it holds the lock for writing. -/
  request : Option (List Nat × LoopSection)

inductive IdentityEvent where
  | createPeer (publicKey presharedKey : Bytes)
  | handshake (p : Nat) (ev : CallEvent)
  | keys (p : Nat) (ev : KeyUseEvent)
  | setPrivateKey (privateKey : Bytes)
  | loop

/-- The calls that are between two sections of `consume_initiation` or `consume_response`. -/
def HandshakeCall.holdsIdentity : HandshakeCall → Bool
  | .checked _ _ _ _ _ => true
  | .found _ _ => true
  | .opened _ _ _ _ _ => true
  | _ => false

/-- The sections that begin with `down_read(&static_identity->lock)`. -/
def CallEvent.takesIdentity : CallEvent → Bool
  | .createInitiation _ _ _ => true
  | .checkInitiation _ _ _ => true
  | .createResponse _ _ _ => true
  | .lookupResponse _ _ => true
  | _ => false

def curve25519ClampSecret (secret : Bytes) : Bytes :=
  (secret.modify 0 (· &&& 248)).modify 31 fun b => (b &&& 127) ||| 64

def setStaticIdentityPrivateKey (C : Crypto) (identity : NoiseStaticIdentity) (privateKey : Bytes) :
    NoiseStaticIdentity where
  staticPrivate := curve25519ClampSecret privateKey
  staticPublic := (C.curve25519GeneratePublic privateKey).getD identity.staticPublic
  hasIdentity := (C.curve25519GeneratePublic privateKey).isSome

namespace IdentityPeer

/-- `wg_peer_create`. -/
def create (C : Crypto) (identity : NoiseStaticIdentity) (publicKey presharedKey : Bytes) (generation : Nat) :
    IdentityPeer where
  calls := .init (noiseHandshakeInit C identity publicKey presharedKey)
  keys := .init
  startedUnder := generation
  callUnder _ := generation
  keyUnder _ := generation
  passed := generation
  takenAfter _ := generation
  installs := []
  nonces := []

/-- A handshake starts where an initiation is sent or accepted; one that `consume_response` writes
back is the one it had copied. -/
def startedAfter (p : IdentityPeer) (generation : Nat) (calls : HandshakeCalls) : CallEvent → Nat
  | .createInitiation _ _ _ => if calls.inserted = p.calls.inserted then p.startedUnder else generation
  | .writeInitiation w _ =>
    if calls.accepted.length = p.calls.accepted.length then p.startedUnder else p.callUnder w
  | .writeResponse w => if (calls.call w).beginsSession then p.callUnder w else p.startedUnder
  | _ => p.startedUnder

def callAfter (p : IdentityPeer) (generation : Nat) : CallEvent → Nat → Nat
  | .checkInitiation w _ _ => update p.callUnder w generation
  | .lookupResponse w _ => update p.callUnder w generation
  | .readResponse w => update p.callUnder w p.startedUnder
  | _ => p.callUnder

/-- `add_new_keypair`, which `begin_session` calls with the lock of the handshake held. -/
def addNewKeypair (p : IdentityPeer) (x : InstalledSession) : Option IdentityPeer :=
  (p.keys.step (.addNewKeypair x.keypair.iAmTheInitiator)).map fun keys =>
    { p with
      keys
      keyUnder := update p.keyUnder p.keys.installed.length p.startedUnder
      installs := ⟨p.startedUnder, p.passed⟩ :: p.installs }

def callStep (C : Crypto) (identity : NoiseStaticIdentity) (isChacha : Bool) (generation : Nat) (p : IdentityPeer)
    (ev : CallEvent) : Option IdentityPeer :=
  (p.calls.step C identity isChacha ev).bind fun calls =>
    let p' := { p with
      calls
      startedUnder := p.startedAfter generation calls ev
      callUnder := p.callAfter generation ev }
    if calls.installed.length = p.calls.installed.length then some p' else calls.installed.head?.bind p'.addNewKeypair

def assigned (p : IdentityPeer) : KeyUseEvent → List Stamp
  | .assignNonce c _ _ => match p.keys.send c with
    | .assigning k => [⟨p.keyUnder k.id, p.takenAfter c⟩]
    | _ => []
  | _ => []

/-- `takenAfter` in the next state, in which a call may just have taken its keypair. -/
def takes (p : IdentityPeer) (keys : KeyUse) (c : Nat) : Nat :=
  match p.keys.send c, keys.send c with
  | .idle, .taken _ => p.passed
  | _, _ => p.takenAfter c

def keyStep (p : IdentityPeer) (ev : KeyUseEvent) : Option IdentityPeer :=
  (p.keys.step ev).map fun keys =>
    { p with
      keys
      takenAfter := p.takes keys
      nonces := p.assigned ev ++ p.nonces }

/-- `wg_noise_precompute_static_static`. -/
def precompute (C : Crypto) (identity : NoiseStaticIdentity) (p : IdentityPeer) : IdentityPeer :=
  let hs := p.calls.hs
  { p with calls := { p.calls with
      hs := { hs with precomputedStaticStatic := precomputeStaticStatic C identity hs.remoteStatic } } }

end IdentityPeer

namespace IdentityDevice

def init (C : Crypto) (identity : NoiseStaticIdentity) : IdentityDevice where
  identity
  generation := 0
  peers _ := .create C identity [] [] 0
  peerCount := 0
  peerList := []
  readers := []
  request := none

def setPeer (s : IdentityDevice) (p : Nat) (x : IdentityPeer) : IdentityDevice :=
  { s with peers := update s.peers p x }

/-- Who holds the lock after a section of a call. -/
def readersAfter (s : IdentityDevice) (p : Nat) (ev : CallEvent) (calls : HandshakeCalls) : List (Nat × Nat) :=
  match ev.worker with
  | none => s.readers
  | some w => if (calls.call w).holdsIdentity then (p, w) :: s.readers else s.readers.filter (· ≠ (p, w))

/-- A peer with the public key of the new identity is removed first. -/
def removeSelf (C : Crypto) (s : IdentityDevice) (privateKey : Bytes) : List Nat :=
  match C.curve25519GeneratePublic privateKey with
  | none => s.peerList
  | some publicKey => s.peerList.filter fun p => (s.peers p).calls.hs.remoteStatic ≠ publicKey

def step (C : Crypto) (isChacha : Bool) (s : IdentityDevice) : IdentityEvent → Option IdentityDevice
  | .createPeer publicKey presharedKey =>
    if s.request.isSome then none else
    some { s.setPeer s.peerCount (.create C s.identity publicKey presharedKey s.generation) with
      peerCount := s.peerCount + 1
      peerList := s.peerList ++ [s.peerCount] }
  | .handshake p ev =>
    if p < s.peerCount ∧ (ev.takesIdentity → s.request.isNone) then
      ((s.peers p).callStep C s.identity isChacha s.generation ev).map fun x =>
        { s.setPeer p x with readers := s.readersAfter p ev x.calls }
    else none
  | .keys p ev =>
    match ev with
    -- Keypairs are added by `begin_session` only.
    | .addNewKeypair _ => none
    | _ => if p < s.peerCount then ((s.peers p).keyStep ev).map (s.setPeer p) else none
  | .setPrivateKey privateKey =>
    if s.request.isSome ∨ s.readers ≠ [] ∨ s.identity.staticPrivate = privateKey then none else
    let peerList := s.removeSelf C privateKey
    some { s with
      identity := setStaticIdentityPrivateKey C s.identity privateKey
      generation := s.generation + 1
      peerList
      request := some (peerList, .precompute) }
  | .loop =>
    match s.request with
    | none => none
    | some ([], _) => some { s with request := none }
    | some (p :: ps, .precompute) =>
      some { s.setPeer p ((s.peers p).precompute C s.identity) with request := some (p :: ps, .handshakeClear) }
    | some (p :: ps, .handshakeClear) =>
      ((s.peers p).callStep C s.identity isChacha s.generation .handshakeClear).map fun x =>
        { s.setPeer p x with request := some (p :: ps, .expire) }
    | some (p :: ps, .expire) =>
      ((s.peers p).keyStep .expireCurrentPeerKeypairs).map fun x =>
        { s.setPeer p { x with passed := s.generation } with request := some (ps, .precompute) }

end IdentityDevice

/-! ### What the data paths do to the keypairs -/

namespace KeyUse

variable {s s' : KeyUse}

/-- A step that adds no keypair. -/
structure Continues (s s' : KeyUse) : Prop where
  installed : s'.installed = s.installed
  current : ∀ k ∈ s'.slots.currentKeypair, k ∈ s.slots.currentKeypair ∨ k ∈ s.slots.nextKeypair
  next : ∀ k ∈ s'.slots.nextKeypair, k ∈ s.slots.nextKeypair
  valid : ∀ k, s.sendingValid k = false → s'.sendingValid k = false
  send : ∀ c, s'.send c = s.send c ∨ s'.send c = .idle ∨
    (∃ k ∈ s.slots.currentKeypair, s.send c = .idle ∧ s'.send c = .taken k) ∨
    ∃ k, s.send c = .taken k ∧ s.sendingValid k = true ∧ s'.send c = .assigning k

theorem Continues.refl (s : KeyUse) : s.Continues s :=
  ⟨rfl, fun _ => .inl, fun _ => id, fun _ => id, fun _ => .inl rfl⟩

theorem invalidate_valid (k : Option SessionKeypair) {x : SessionKeypair} (h : s.sendingValid x = false) :
    (s.invalidate k).sendingValid x = false := by
  cases k with
  | none => exact h
  | some k =>
    by_cases hx : x = k
    · subst hx; exact update_self ..
    · exact (update_of_ne hx ..).trans h

theorem invalidate_self (k : SessionKeypair) : (s.invalidate (some k)).sendingValid k = false :=
  update_self ..

theorem Continues.invalidate (h : s.Continues s') (k : Option SessionKeypair) : s.Continues (s'.invalidate k) := by
  cases k with
  | none => exact h
  | some k =>
    exact ⟨h.installed, h.current, h.next, fun x hx => invalidate_valid (some k) (h.valid x hx), h.send⟩

theorem Continues.setSend (c : Nat) {x : StagedCall}
    (h : x = .idle ∨ (∃ k ∈ s.slots.currentKeypair, s.send c = .idle ∧ x = .taken k) ∨
      ∃ k, s.send c = .taken k ∧ s.sendingValid k = true ∧ x = .assigning k) : s.Continues (s.setSend c x) := by
  refine { Continues.refl s with send := fun c' => ?_ }
  by_cases hc : c' = c
  · subst hc
    have hx : (s.setSend c' x).send c' = x := update_self ..
    rw [hx]
    exact .inr h
  · exact .inl (update_of_ne hc ..)

theorem Continues.step {ev : KeyUseEvent} (hev : ∀ i, ev ≠ .addNewKeypair i) (hs : s.step ev = some s') :
    s.Continues s' := by
  cases ev with
  | addNewKeypair i => exact absurd rfl (hev i)
  | decryptPacket k =>
    simp only [KeyUse.step] at hs
    split at hs <;> cases hs
    exact { Continues.refl s with }
  | rxPoll p i valid =>
    simp only [KeyUse.step] at hs
    split at hs
    · obtain ⟨k, -, rfl⟩ := Option.map_eq_some_iff.mp hs
      cases valid <;> exact { Continues.refl s with }
    · cases hs
  | checkNext p =>
    simp only [KeyUse.step] at hs
    split at hs <;> cases hs
    exact { Continues.refl s with }
  | receivedWithKeypair p =>
    simp only [KeyUse.step] at hs
    split at hs <;> cases hs
    refine { Continues.refl s with current := fun x hx => ?_, next := receivedWithKeypair_next }
    unfold NoiseKeypairs.receivedWithKeypair at hx
    split_ifs at hx with hnext
    · exact .inr (hnext.trans hx)
    · exact .inl hx
  | keypairsClear =>
    cases hs
    refine { Continues.refl s with current := ?_, next := ?_ } <;> rintro _ ⟨⟩
  | expireCurrentPeerKeypairs =>
    cases hs
    exact ((Continues.refl s).invalidate _).invalidate _
  | takeKeypair c =>
    simp only [KeyUse.step] at hs
    split at hs
    case h_1 hc =>
      obtain ⟨k, hk, rfl⟩ := Option.map_eq_some_iff.mp hs
      exact .setSend c (.inr (.inl ⟨k, hk, hc, rfl⟩))
    · cases hs
  | checkKeypair c expired =>
    simp only [KeyUse.step] at hs
    split at hs
    case h_1 k hc =>
      split at hs
      · cases hs; exact .setSend c (.inl rfl)
      case isFalse hv =>
      split at hs <;> cases hs
      · exact (Continues.setSend c (.inl rfl)).invalidate _
      · exact .setSend c (.inr (.inr ⟨k, hc, by simpa using hv, rfl⟩))
    · cases hs
  | assignNonce c exhausted last =>
    simp only [KeyUse.step] at hs
    split at hs
    case h_1 k hc =>
      split at hs <;> cases hs
      · have h := (Continues.setSend (s := s) c (.inl rfl)).invalidate (some k)
        exact ⟨h.installed, h.current, h.next, h.valid, h.send⟩
      · split
        · have h := Continues.setSend (s := s) c (.inl rfl)
          exact ⟨h.installed, h.current, h.next, h.valid, h.send⟩
        · exact { Continues.refl s with }
    · cases hs

/-- A step that adds a keypair. -/
structure Adds (s s' : KeyUse) : Prop where
  installed : s'.installed.length = s.installed.length + 1
  slots : ∀ k, k ∈ s'.slots.currentKeypair ∨ k ∈ s'.slots.nextKeypair →
    k.id = s.installed.length ∨ k ∈ s.slots.currentKeypair
  valid : ∀ k : SessionKeypair, k.id < s.installed.length → s'.sendingValid k = s.sendingValid k
  send : s'.send = s.send

theorem Adds.step {i : Bool} (hs : s.step (.addNewKeypair i) = some s') : s.Adds s' := by
  cases hs
  let new : SessionKeypair := ⟨s.installed.length, i⟩
  refine ⟨rfl, fun k hk => ?_, fun k hk => update_of_ne ?_ .., rfl⟩
  · rcases hk with hk | hk
    · rcases addNewKeypair_current s.slots new k hk with hk | ⟨rfl, -⟩
      · exact .inr hk
      · exact .inl rfl
    · obtain ⟨rfl, -⟩ := addNewKeypair_next s.slots new k hk
      exact .inl rfl
  · rintro rfl
    exact Nat.lt_irrefl _ hk

theorem invalidate_slots (s : KeyUse) (k : Option SessionKeypair) : (s.invalidate k).slots = s.slots := by
  cases k <;> rfl

theorem expireCurrentPeerKeypairs_invalid (hs : s.step .expireCurrentPeerKeypairs = some s') (k : SessionKeypair)
    (hk : k ∈ s'.slots.currentKeypair ∨ k ∈ s'.slots.nextKeypair) : s'.sendingValid k = false := by
  cases hs
  rw [invalidate_slots, invalidate_slots] at hk
  rcases hk with hk | hk
  · rw [show s.slots.currentKeypair = some k from hk]
    exact invalidate_self k
  · rw [show s.slots.nextKeypair = some k from hk]
    exact invalidate_valid _ (invalidate_self k)

end KeyUse

/-! ### What a section of a call does -/

namespace HandshakeCalls

variable {C : Crypto} {identity : NoiseStaticIdentity} {isChacha : Bool} {s s' : HandshakeCalls} {ev : CallEvent}

theorem goto_of_ne {w w' : Nat} (x : HandshakeCall) (h : w' ≠ w) : (s.goto w x).call w' = s.call w' :=
  update_of_ne h ..

theorem goto_self (w : Nat) (x : HandshakeCall) : (s.goto w x).call w = x := update_self ..

theorem Step.sameConfig (h : Step C identity isChacha s ev s') : SameConfig s.hs s'.hs := by
  cases h with
  | stopInitiation hr => exact (SameRecord.createInitiation hr).toSameConfig
  | createInitiation hr => exact (SameRecord.createInitiation hr).toSameConfig
  | stopResponse hr => exact (SameRecord.createResponse hr).toSameConfig
  | createResponse hr => exact (SameRecord.createResponse hr).toSameConfig
  | _ => exact ⟨rfl, rfl, rfl⟩

theorem Step.other (h : Step C identity isChacha s ev s') {w : Nat} (hw : ev.worker ≠ some w) :
    s'.call w = s.call w := by
  have hne {w' : Nat} (h' : ev.worker = some w') : w ≠ w' := by
    rintro rfl
    exact hw h'
  cases h with
  | noIdentity => rfl
  | stopInitiation => rfl
  | createInitiation => rfl
  | handshakeClear => rfl
  | endCall hw' => exact goto_of_ne _ (hne hw')
  | _ => exact goto_of_ne _ (hne rfl)

theorem Step.installed (h : Step C identity isChacha s ev s') :
    s'.installed = s.installed ∨
      s.hs.state ≠ .zeroed ∧ ∃ w outcome birthdate, ev = .beginSession w outcome birthdate := by
  cases h with
  | install hk =>
    refine .inr ⟨fun hz => ?_, _, _, _, rfl⟩
    simp [newKeypair, hz] at hk
  | _ => exact .inl rfl

/-- Without the lock of the static identity no call comes to hold it, and no handshake starts. -/
theorem Step.unlocked (h : Step C identity isChacha s ev s') (hev : ev.takesIdentity = false)
    (hw : ∀ w, (s.call w).holdsIdentity = false) :
    (∀ w, (s'.call w).holdsIdentity = false) ∧ (s.hs.state = .zeroed → s'.hs.state = .zeroed) := by
  have hgoto (w : Nat) {x : HandshakeCall} (hx : x.holdsIdentity = false) :=
    forall_goto (P := fun x => x.holdsIdentity = false) hw w hx
  cases h with
  | noIdentity => exact ⟨hw, id⟩
  | stopInitiation => cases hev
  | createInitiation => cases hev
  | checkInitiation => cases hev
  | @writeInitiation w _ _ _ _ _ _ hc => have h := hw w; rw [hc] at h; cases h
  | stopResponse => cases hev
  | createResponse => cases hev
  | lookupResponse => cases hev
  | @readResponse w _ _ _ _ hc => have h := hw w; rw [hc] at h; cases h
  | @writeResponse w _ _ _ _ _ hc => have h := hw w; rw [hc] at h; cases h
  | @dead w => exact ⟨hgoto w rfl, fun _ => rfl⟩
  | @install w => exact ⟨hgoto w rfl, fun _ => rfl⟩
  | @endCall _ w => exact ⟨hgoto w rfl, id⟩
  | handshakeClear => exact ⟨hw, fun _ => rfl⟩

theorem Step.cleared (h : Step C identity isChacha s .handshakeClear s') : s'.hs.state = .zeroed := by
  cases h with
  | endCall hw => cases hw
  | handshakeClear => rfl

end HandshakeCalls

namespace IdentityPeer

variable {C : Crypto} {identity : NoiseStaticIdentity} {isChacha : Bool} {generation : Nat} {p p' : IdentityPeer}

def Precomputed (C : Crypto) (identity : NoiseStaticIdentity) (p : IdentityPeer) : Prop :=
  p.calls.hs.precomputedStaticStatic = precomputeStaticStatic C identity p.calls.hs.remoteStatic

/-- A handshake that may still lead to a session, and one that a worker is about to write, was
started under a key the loop has not gone beyond. -/
structure HandshakeOk (p : IdentityPeer) : Prop where
  started : p.calls.hs.state ≠ .zeroed → p.passed ≤ p.startedUnder
  calls : ∀ w, (p.calls.call w).holdsIdentity = true → p.passed ≤ p.callUnder w

theorem startedAfter_endCall {ev : CallEvent} {w : Nat} (hw : ev.worker = some w) :
    p.startedAfter generation (p.calls.goto w .idle) ev = p.startedUnder := by
  cases ev with
  | createInitiation => cases hw
  | writeInitiation => exact if_pos rfl
  | writeResponse w' =>
    cases hw
    simp only [startedAfter, HandshakeCalls.goto_self, HandshakeCall.beginsSession, Bool.false_eq_true, if_false]
  | _ => rfl

theorem callAfter_of_ne {ev : CallEvent} {w w' : Nat} (hw : ev.worker = some w) (h : w' ≠ w) :
    p.callAfter generation ev w' = p.callUnder w' := by
  cases ev with
  | checkInitiation => cases hw; exact update_of_ne h ..
  | lookupResponse => cases hw; exact update_of_ne h ..
  | readResponse => cases hw; exact update_of_ne h ..
  | _ => rfl

theorem HandshakeOk.goto (h : p.HandshakeOk) {s : HandshakeCalls} (hcall : s.call = p.calls.call) (w : Nat)
    {x : HandshakeCall} (hx : x.holdsIdentity = true → p.passed ≤ p.callUnder w) :
    ∀ w', ((s.goto w x).call w').holdsIdentity = true → p.passed ≤ p.callUnder w' := by
  refine (forall_update_iff s.call fun w x => x.holdsIdentity = true → p.passed ≤ p.callUnder w).mpr
    ⟨hx, fun w' _ => ?_⟩
  rw [hcall]
  exact h.calls w'

theorem HandshakeOk.checked (h : p.HandshakeOk) (w n : Nat) (hn : p.passed ≤ n) {x : HandshakeCall} (w' : Nat)
    (hx : ((p.calls.goto w x).call w').holdsIdentity = true) : p.passed ≤ update p.callUnder w n w' := by
  by_cases hw : w' = w
  · subst hw; rwa [update_self]
  · rw [update_of_ne hw]
    rw [HandshakeCalls.goto_of_ne _ hw] at hx
    exact h.calls w' hx

theorem HandshakeOk.step (h : p.HandshakeOk) (hp : p.passed ≤ generation) {ev : CallEvent} {calls : HandshakeCalls}
    (hs : HandshakeCalls.Step C identity isChacha p.calls ev calls) :
    HandshakeOk { p with
      calls
      startedUnder := p.startedAfter generation calls ev
      callUnder := p.callAfter generation ev } := by
  have hst := h.started
  have hc := h.calls
  cases hs with
  | noIdentity =>
    refine ⟨fun hz => ?_, hc⟩
    simp only [startedAfter, if_true]
    exact hst hz
  | stopInitiation hr =>
    refine ⟨fun hz => ?_, hc⟩
    simp only [startedAfter, HandshakeCalls.generate, Option.isSome_none, Bool.false_eq_true, if_false, if_true]
    exact hst fun hz' => hz ((createInitiation_stopped hr).trans hz')
  | createInitiation hr =>
    refine ⟨fun _ => ?_, hc⟩
    simp only [startedAfter, HandshakeCalls.generate, Option.isSome_some, if_true, Nat.succ_ne_self, if_false]
    exact hp
  | checkInitiation => exact ⟨hst, h.checked _ _ hp⟩
  | @writeInitiation w _ _ _ _ _ _ hw =>
    have hu : p.passed ≤ p.callUnder w := hc w (by rw [hw]; rfl)
    refine ⟨fun _ => ?_, h.goto rfl w (by rintro ⟨⟩)⟩
    simp only [startedAfter, List.length_cons, Nat.succ_ne_self, if_false]
    exact hu
  | @stopResponse w _ _ _ hr =>
    exact ⟨fun hz => hst fun hz' => hz ((createResponse_stopped hr).trans hz'), h.goto rfl w (by rintro ⟨⟩)⟩
  | @createResponse w _ _ _ _ hr =>
    refine ⟨fun _ => hst ?_, h.goto rfl w (by rintro ⟨⟩)⟩
    rw [createResponse_from hr]
    decide
  | lookupResponse => exact ⟨hst, h.checked _ _ hp⟩
  | readResponse hw ho =>
    have hu : p.passed ≤ p.startedUnder := hst (by rw [openResponse_state ho]; decide)
    exact ⟨hst, h.checked _ _ hu⟩
  | @writeResponse w _ _ _ _ _ hw =>
    have hu : p.passed ≤ p.callUnder w := hc w (by rw [hw]; rfl)
    refine ⟨fun _ => ?_, h.goto rfl w (by rintro ⟨⟩)⟩
    simp only [startedAfter]
    rw [if_pos (by simp only [HandshakeCalls.goto, update_self]; rfl)]
    exact hu
  | @dead w => exact ⟨fun hz => absurd rfl hz, h.goto rfl w (by rintro ⟨⟩)⟩
  | @install w => exact ⟨fun hz => absurd rfl hz, h.goto rfl w (by rintro ⟨⟩)⟩
  | @endCall _ w hw =>
    refine ⟨fun hz => ?_, fun w' hw' => ?_⟩
    · rw [startedAfter_endCall hw]
      exact hst hz
    · by_cases hne : w' = w
      · subst hne
        rw [HandshakeCalls.goto_self] at hw'
        cases hw'
      · rw [HandshakeCalls.goto_of_ne _ hne] at hw'
        exact Nat.le_trans (hc w' hw') (Nat.le_of_eq (callAfter_of_ne hw hne).symm)
  | handshakeClear => exact ⟨fun hz => absurd rfl hz, hc⟩

/-- What is known of the keypair a call of `wg_packet_send_staged_packets` holds. -/
def SendOk (keys : KeyUse) (under : Nat → Nat) (after : Nat) : StagedCall → Prop
  | .idle => True
  | .taken k => k.id < keys.installed.length ∧ (under k.id < after → keys.sendingValid k = false)
  | .assigning k => k.id < keys.installed.length ∧ after ≤ under k.id

/-- Keypairs of a handshake the loop has gone beyond are not sent with. -/
structure KeysOk (keys : KeyUse) (under : Nat → Nat) (passed : Nat) (after : Nat → Nat) : Prop where
  slots : ∀ k, k ∈ keys.slots.currentKeypair ∨ k ∈ keys.slots.nextKeypair →
    k.id < keys.installed.length ∧ (under k.id < passed → keys.sendingValid k = false)
  send : ∀ c, SendOk keys under (after c) (keys.send c)

namespace KeysOk

variable {keys keys' : KeyUse} {under after : Nat → Nat} {passed : Nat}

theorem adds (h : KeysOk keys under passed after) (ha : keys.Adds keys') {n : Nat} (hn : passed ≤ n) :
    KeysOk keys' (update under keys.installed.length n) passed after := by
  have hunder {k : SessionKeypair} (hk : k.id < keys.installed.length) :
      update under keys.installed.length n k.id = under k.id :=
    update_of_ne (Nat.ne_of_lt hk) ..
  have hlen {k : SessionKeypair} (hk : k.id < keys.installed.length) : k.id < keys'.installed.length := by
    rw [ha.installed]
    exact Nat.lt_succ_of_lt hk
  refine ⟨fun k hk => ?_, fun c => ?_⟩
  · rcases ha.slots k hk with hid | hk
    · rw [hid, ha.installed, update_self]
      exact ⟨Nat.lt_succ_self _, fun hlt => absurd hn (Nat.not_le_of_lt hlt)⟩
    · obtain ⟨hid, hold⟩ := h.slots k (.inl hk)
      rw [hunder hid, ha.valid k hid]
      exact ⟨hlen hid, hold⟩
  · have hc := h.send c
    rw [ha.send]
    cases hx : keys.send c with
    | idle => trivial
    | taken k =>
      rw [hx] at hc
      rw [SendOk, hunder hc.1, ha.valid k hc.1]
      exact ⟨hlen hc.1, hc.2⟩
    | assigning k =>
      rw [hx] at hc
      rw [SendOk, hunder hc.1]
      exact ⟨hlen hc.1, hc.2⟩

theorem sendOk_mono {x : StagedCall} {n : Nat} (hc : keys.Continues keys') (h : SendOk keys under n x) :
    SendOk keys' under n x := by
  cases x with
  | idle => trivial
  | taken k => exact ⟨hc.installed ▸ h.1, fun hlt => hc.valid k (h.2 hlt)⟩
  | assigning k => exact ⟨hc.installed ▸ h.1, h.2⟩

theorem continues (h : KeysOk p.keys under p.passed p.takenAfter) (hc : p.keys.Continues keys') :
    KeysOk keys' under p.passed (p.takes keys') := by
  refine ⟨fun k hk => ?_, fun c => ?_⟩
  · have hk : k ∈ p.keys.slots.currentKeypair ∨ k ∈ p.keys.slots.nextKeypair :=
      hk.elim (hc.current k) fun hk => .inr (hc.next k hk)
    obtain ⟨hid, hold⟩ := h.slots k hk
    exact ⟨hc.installed ▸ hid, fun hlt => hc.valid k (hold hlt)⟩
  · have hsend := h.send c
    rcases hc.send c with heq | hidle | ⟨k, hcur, hidle, htaken⟩ | ⟨k, htaken, hvalid, hassign⟩
    · have hafter : p.takes keys' c = p.takenAfter c := by
        unfold takes
        rw [heq]
        cases p.keys.send c <;> rfl
      rw [hafter, heq]
      exact sendOk_mono hc hsend
    · rw [hidle]
      trivial
    · have hafter : p.takes keys' c = p.passed := by simp only [takes, hidle, htaken]
      rw [hafter, htaken]
      exact sendOk_mono hc (h.slots k (.inl hcur))
    · -- The keypair is valid, so it is not one of those the loop had gone beyond.
      have hafter : p.takes keys' c = p.takenAfter c := by simp only [takes, htaken, hassign]
      rw [htaken] at hsend
      rw [hafter, hassign]
      refine ⟨hc.installed ▸ hsend.1, Nat.le_of_not_lt fun hlt => ?_⟩
      rw [hsend.2 hlt] at hvalid
      cases hvalid

theorem pass (h : KeysOk keys under passed after) (passed' : Nat)
    (hv : ∀ k, k ∈ keys.slots.currentKeypair ∨ k ∈ keys.slots.nextKeypair → keys.sendingValid k = false) :
    KeysOk keys under passed' after :=
  ⟨fun k hk => ⟨(h.slots k hk).1, fun _ => hv k hk⟩, h.send⟩

end KeysOk

/-! ### Peers -/

structure Ok (C : Crypto) (identity : NoiseStaticIdentity) (generation : Nat) (p : IdentityPeer) : Prop extends
    HandshakeOk p where
  passed : p.passed ≤ generation
  precomputed : p.passed = generation → p.Precomputed C identity
  keys : KeysOk p.keys p.keyUnder p.passed p.takenAfter
  installs : ∀ x ∈ p.installs, x.passed ≤ x.under
  nonces : ∀ x ∈ p.nonces, x.passed ≤ x.under

namespace Ok

theorem create (C : Crypto) (identity : NoiseStaticIdentity) (publicKey presharedKey : Bytes) (generation : Nat) :
    (IdentityPeer.create C identity publicKey presharedKey generation).Ok C identity generation where
  started _ := Nat.le_refl _
  calls _ _ := Nat.le_refl _
  passed := Nat.le_refl _
  precomputed _ := rfl
  keys := by
    refine ⟨fun k hk => ?_, fun _ => trivial⟩
    rcases hk with hk | hk <;> cases hk
  installs := List.forall_mem_nil _
  nonces := List.forall_mem_nil _

theorem keyStep (h : p.Ok C identity generation) {ev : KeyUseEvent} (hev : ∀ i, ev ≠ .addNewKeypair i)
    (hs : p.keyStep ev = some p') : p'.Ok C identity generation := by
  obtain ⟨keys, hk, rfl⟩ := Option.map_eq_some_iff.mp hs
  refine ⟨⟨h.started, h.calls⟩, h.passed, h.precomputed, h.keys.continues (.step hev hk), h.installs, ?_⟩
  refine List.forall_mem_append.mpr ⟨fun x hx => ?_, h.nonces⟩
  unfold assigned at hx
  split at hx
  case h_1 c _ _ =>
    split at hx
    case h_1 k hc =>
      have hsend := h.keys.send c
      rw [hc] at hsend
      rw [List.mem_singleton.mp hx]
      exact hsend.2
    · cases hx
  · cases hx

theorem callStep (h : p.Ok C identity generation) {ev : CallEvent}
    (hs : p.callStep C identity isChacha generation ev = some p') : p'.Ok C identity generation := by
  obtain ⟨calls, hc, hs⟩ := Option.bind_eq_some_iff.mp hs
  have hstep := HandshakeCalls.step_cases hc
  have hok := h.toHandshakeOk.step h.passed hstep
  have hpre : p.passed = generation → calls.hs.precomputedStaticStatic =
      precomputeStaticStatic C identity calls.hs.remoteStatic := by
    intro hp
    rw [hstep.sameConfig.precomputed, hstep.sameConfig.remoteStatic]
    exact h.precomputed hp
  simp only at hs
  split_ifs at hs with hlen
  · cases hs
    exact ⟨hok, h.passed, hpre, h.keys, h.installs, h.nonces⟩
  · obtain ⟨x, -, hs⟩ := Option.bind_eq_some_iff.mp hs
    obtain ⟨keys, hk, rfl⟩ := Option.map_eq_some_iff.mp hs
    rcases hstep.installed with heq | ⟨hz, w, outcome, birthdate, rfl⟩
    · exact absurd (congrArg List.length heq) hlen
    · have hp : p.passed ≤ p.startedUnder := h.started hz
      exact ⟨⟨hok.started, hok.calls⟩, h.passed, hpre, h.keys.adds (.step hk) hp,
        List.forall_mem_cons.mpr ⟨hp, h.installs⟩, h.nonces⟩

theorem precompute (h : p.Ok C identity generation) : (p.precompute C identity).Ok C identity generation :=
  ⟨⟨h.started, h.calls⟩, h.passed, fun _ => rfl, h.keys, h.installs, h.nonces⟩

theorem pass (h : p.Ok C identity generation) (hz : p.calls.hs.state = .zeroed)
    (hw : ∀ w, (p.calls.call w).holdsIdentity = false) (hpre : p.Precomputed C identity)
    (hs : p.keyStep .expireCurrentPeerKeypairs = some p') :
    Ok C identity generation { p' with passed := generation } := by
  have hok := h.keyStep (by rintro _ ⟨⟩) hs
  obtain ⟨keys, hk, rfl⟩ := Option.map_eq_some_iff.mp hs
  refine ⟨⟨fun hz' => absurd hz hz', fun w hw' => ?_⟩, Nat.le_refl _, fun _ => hpre,
    hok.keys.pass generation (KeyUse.expireCurrentPeerKeypairs_invalid hk), hok.installs, hok.nonces⟩
  rw [hw w] at hw'
  cases hw'

theorem newIdentity (h : p.Ok C identity generation) (identity' : NoiseStaticIdentity) :
    p.Ok C identity' (generation + 1) :=
  ⟨h.toHandshakeOk, Nat.le_succ_of_le h.passed, fun hp => absurd (hp ▸ h.passed) (Nat.not_succ_le_self _), h.keys,
    h.installs, h.nonces⟩

end Ok

theorem callStep_calls {ev : CallEvent} (hs : p.callStep C identity isChacha generation ev = some p') :
    HandshakeCalls.Step C identity isChacha p.calls ev p'.calls := by
  obtain ⟨calls, hc, hs⟩ := Option.bind_eq_some_iff.mp hs
  simp only at hs
  split at hs
  · cases hs
    exact HandshakeCalls.step_cases hc
  · obtain ⟨x, -, hs⟩ := Option.bind_eq_some_iff.mp hs
    obtain ⟨keys, -, rfl⟩ := Option.map_eq_some_iff.mp hs
    exact HandshakeCalls.step_cases hc

theorem keyStep_calls {ev : KeyUseEvent} (hs : p.keyStep ev = some p') : p'.calls = p.calls := by
  obtain ⟨keys, -, rfl⟩ := Option.map_eq_some_iff.mp hs
  rfl

/-- Where the loop is with the peer it has not passed yet. -/
def Reached (C : Crypto) (identity : NoiseStaticIdentity) (p : IdentityPeer) : LoopSection → Prop
  | .precompute => True
  | .handshakeClear => p.Precomputed C identity
  | .expire => p.Precomputed C identity ∧ p.calls.hs.state = .zeroed

theorem Reached.mono {x : LoopSection} (h : p.Reached C identity x) (hsame : SameConfig p.calls.hs p'.calls.hs)
    (hz : p.calls.hs.state = .zeroed → p'.calls.hs.state = .zeroed) : p'.Reached C identity x := by
  have hpre (h : p.Precomputed C identity) : p'.Precomputed C identity := by
    unfold Precomputed
    rw [hsame.precomputed, hsame.remoteStatic]
    exact h
  cases x with
  | precompute => trivial
  | handshakeClear => exact hpre h
  | expire => exact ⟨hpre h.1, hz h.2⟩

end IdentityPeer

/-! ### The device -/

namespace IdentityDevice

variable {C : Crypto} {isChacha : Bool} {s s' : IdentityDevice}
variable {x : IdentityPeer}

structure Inv (C : Crypto) (s : IdentityDevice) : Prop where
  peers : ∀ p, (s.peers p).Ok C s.identity s.generation
  readers : ∀ p w, ((s.peers p).calls.call w).holdsIdentity = true → (p, w) ∈ s.readers
  /-- The lock is not held for reading and for writing at once. -/
  locked : s.request.isSome = true → s.readers = []
  reached : ∀ p ps x, s.request = some (p :: ps, x) → (s.peers p).Reached C s.identity x

namespace Inv

theorem unheld (h : s.Inv C) (hr : s.request.isSome = true) (p w : Nat) :
    ((s.peers p).calls.call w).holdsIdentity = false := by
  by_contra hw
  have hmem := h.readers p w (by simpa using hw)
  rw [h.locked hr] at hmem
  cases hmem

theorem change (h : s.Inv C) (p : Nat) {readers : List (Nat × Nat)}
    {request : Option (List Nat × LoopSection)} (hx : x.Ok C s.identity s.generation)
    (hw : ∀ w, (x.calls.call w).holdsIdentity = true → (p, w) ∈ readers)
    (hkept : ∀ p' w, p' ≠ p → (p', w) ∈ s.readers → (p', w) ∈ readers)
    (hlock : request.isSome = true → readers = [])
    (hr : ∀ ps y, request = some (p :: ps, y) → x.Reached C s.identity y)
    (hother : ∀ p' ps y, p' ≠ p → request = some (p' :: ps, y) → (s.peers p').Reached C s.identity y) :
    Inv C { s.setPeer p x with readers, request } where
  peers := (forall_update_iff s.peers fun _ x => x.Ok C s.identity s.generation).mpr
    ⟨hx, fun p' _ => h.peers p'⟩
  readers := (forall_update_iff s.peers fun p x => ∀ w, (x.calls.call w).holdsIdentity = true →
    (p, w) ∈ readers).mpr ⟨hw, fun p' hp w hw' => hkept p' w hp (h.readers p' w hw')⟩
  locked := hlock
  reached := (forall_update_iff s.peers fun p x => ∀ ps y, request = some (p :: ps, y) →
    x.Reached C s.identity y).mpr ⟨hr, fun p' hp ps y => hother p' ps y hp⟩

theorem setPeer (h : s.Inv C) (p : Nat) (hx : x.Ok C s.identity s.generation)
    (hw : ∀ w, (x.calls.call w).holdsIdentity = true → (p, w) ∈ s.readers)
    (hr : ∀ ps y, s.request = some (p :: ps, y) → x.Reached C s.identity y) : (s.setPeer p x).Inv C :=
  h.change p hx hw (fun _ _ _ => id) h.locked hr fun p' ps y _ => h.reached p' ps y

theorem createPeer (h : s.Inv C) (hr : s.request = none) (p : Nat) (publicKey presharedKey : Bytes) :
    (s.setPeer p (.create C s.identity publicKey presharedKey s.generation)).Inv C := by
  refine h.setPeer p (.create C s.identity publicKey presharedKey s.generation) (by rintro _ ⟨⟩) fun ps y hy => ?_
  rw [hr] at hy
  cases hy

theorem keys (h : s.Inv C) {p : Nat} {ev : KeyUseEvent} (hev : ∀ i, ev ≠ .addNewKeypair i)
    (hx : (s.peers p).keyStep ev = some x) : (s.setPeer p x).Inv C := by
  have hc := IdentityPeer.keyStep_calls hx
  refine h.setPeer p ((h.peers p).keyStep hev hx) (fun w hw => h.readers p w (hc ▸ hw)) fun ps y hy => ?_
  exact (h.reached p ps y hy).mono (by rw [hc]; exact ⟨rfl, rfl, rfl⟩) (by rw [hc]; exact id)

theorem mem_readersAfter {p w : Nat} {ev : CallEvent} {calls : HandshakeCalls}
    (hw : ev.worker = some w) (h : (calls.call w).holdsIdentity = true) : (p, w) ∈ s.readersAfter p ev calls := by
  simp only [readersAfter, hw, h, if_true]
  exact List.mem_cons_self

theorem mem_readersAfter_of_mem {p p' w : Nat} {ev : CallEvent} {calls : HandshakeCalls}
    (h : (p', w) ∈ s.readers) (hne : p' = p → ev.worker ≠ some w) : (p', w) ∈ s.readersAfter p ev calls := by
  unfold readersAfter
  split
  · exact h
  case h_2 w' hw' =>
    split
    · exact List.mem_cons_of_mem _ h
    · refine List.mem_filter.mpr ⟨h, decide_eq_true fun heq => ?_⟩
      obtain ⟨rfl, rfl⟩ := Prod.mk.inj heq
      exact hne rfl hw'

theorem handshake (h : s.Inv C) {p : Nat} {ev : CallEvent}
    (hev : ev.takesIdentity = true → s.request.isNone = true)
    (hx : (s.peers p).callStep C s.identity isChacha s.generation ev = some x) :
    Inv C { s.setPeer p x with readers := s.readersAfter p ev x.calls } := by
  have hstep := IdentityPeer.callStep_calls hx
  have hfree (hr : s.request.isSome = true) := hstep.unlocked
    (by cases ht : ev.takesIdentity with
        | false => rfl
        | true => rw [Option.isNone_iff_eq_none.mp (hev ht)] at hr; cases hr) (h.unheld hr p)
  refine h.change p ((h.peers p).callStep hx) (fun w hw => ?_) (fun p' w hp hmem => ?_) (fun hr => ?_)
    (fun ps y hy => ?_) fun p' ps y _ => h.reached p' ps y
  · by_cases hw' : ev.worker = some w
    · exact mem_readersAfter hw' hw
    · rw [hstep.other hw'] at hw
      exact mem_readersAfter_of_mem (h.readers p w hw) fun _ => hw'
  · exact mem_readersAfter_of_mem hmem fun heq => absurd heq hp
  · have hnil : s.readers = [] := h.locked hr
    simp only [readersAfter, hnil, List.filter_nil]
    split
    · rfl
    · rw [(hfree hr).1]
      rfl
  · have hr : s.request = some (p :: ps, y) := hy
    exact (h.reached p ps y hr).mono hstep.sameConfig (hfree (by rw [hr]; rfl)).2

theorem loop (h : s.Inv C) (hr : s.request.isSome = true) {p : Nat}
    (hx : x.Ok C s.identity s.generation) (hw : ∀ w, (x.calls.call w).holdsIdentity = false) {qs : List Nat}
    {y : LoopSection} (hy : y = .precompute ∨ qs.head? = some p ∧ x.Reached C s.identity y) :
    Inv C { s.setPeer p x with request := some (qs, y) } := by
  refine h.change p hx (fun w hw' => ?_) (fun _ _ _ => id) (fun _ => h.locked hr) (fun ps y' hq => ?_)
    fun p' ps y' hp hq => ?_
  · rw [hw w] at hw'
    cases hw'
  · obtain ⟨rfl, rfl⟩ := Prod.mk.inj (Option.some.inj hq)
    rcases hy with rfl | ⟨-, hreach⟩
    · trivial
    · exact hreach
  · obtain ⟨rfl, rfl⟩ := Prod.mk.inj (Option.some.inj hq)
    rcases hy with rfl | ⟨hhead, -⟩
    · trivial
    · exact absurd (Option.some.inj hhead) hp

theorem step (h : s.Inv C) {ev : IdentityEvent} (hs : s.step C isChacha ev = some s') : s'.Inv C := by
  cases ev with
  | createPeer publicKey presharedKey =>
    obtain ⟨hr, ⟨⟩⟩ := Option.ite_none_left_eq_some.mp hs
    have h' := h.createPeer (Option.not_isSome_iff_eq_none.mp hr) s.peerCount publicKey presharedKey
    exact ⟨h'.peers, h'.readers, h'.locked, h'.reached⟩
  | handshake p ev =>
    simp only [IdentityDevice.step] at hs
    split at hs
    case isTrue hev =>
      obtain ⟨x, hx, rfl⟩ := Option.map_eq_some_iff.mp hs
      exact h.handshake hev.2 hx
    · cases hs
  | keys p ev =>
    simp only [IdentityDevice.step] at hs
    split at hs
    · cases hs
    case h_2 hev =>
      split at hs
      · obtain ⟨x, hx, rfl⟩ := Option.map_eq_some_iff.mp hs
        exact h.keys hev hx
      · cases hs
  | setPrivateKey privateKey =>
    obtain ⟨hlock, ⟨⟩⟩ := Option.ite_none_left_eq_some.mp hs
    have hnil : s.readers = [] := by
      by_contra hne
      exact hlock (.inr (.inl hne))
    refine ⟨fun p => (h.peers p).newIdentity _, h.readers, fun _ => hnil, fun p ps x hx => ?_⟩
    obtain rfl : LoopSection.precompute = x := (Prod.mk.inj (Option.some.inj hx)).2
    trivial
  | loop =>
    simp only [IdentityDevice.step] at hs
    split at hs
    · cases hs
    · cases hs
      exact ⟨h.peers, h.readers, by rintro ⟨⟩, by rintro _ _ _ ⟨⟩⟩
    case h_3 p ps hr =>
      have hlock : s.request.isSome = true := by rw [hr]; rfl
      cases hs
      exact h.loop hlock (h.peers p).precompute (h.unheld hlock p) (.inr ⟨rfl, rfl⟩)
    case h_4 p ps hr =>
      have hlock : s.request.isSome = true := by rw [hr]; rfl
      obtain ⟨x, hx, rfl⟩ := Option.map_eq_some_iff.mp hs
      have hstep := IdentityPeer.callStep_calls hx
      have hw := (hstep.unlocked rfl (h.unheld hlock p)).1
      have hreach := (h.reached p ps _ hr).mono hstep.sameConfig (hstep.unlocked rfl (h.unheld hlock p)).2
      exact h.loop hlock ((h.peers p).callStep hx) hw (.inr ⟨rfl, hreach, hstep.cleared⟩)
    case h_5 p ps hr =>
      have hlock : s.request.isSome = true := by rw [hr]; rfl
      obtain ⟨x, hx, rfl⟩ := Option.map_eq_some_iff.mp hs
      obtain ⟨hpre, hz⟩ := h.reached p ps _ hr
      have hw := h.unheld hlock p
      exact h.loop hlock ((h.peers p).pass hz hw hpre hx) (IdentityPeer.keyStep_calls hx ▸ hw) (.inl rfl)

theorem init (C : Crypto) (identity : NoiseStaticIdentity) : (IdentityDevice.init C identity).Inv C :=
  ⟨fun _ => .create C identity [] [] 0, by rintro _ _ ⟨⟩, by rintro ⟨⟩, by rintro _ _ _ ⟨⟩⟩

end Inv

/-- In every run, for every peer: if the loop of the last request has passed it, its shared static
secret is the one of the new key, or zero; `begin_session` installs no keypair of a handshake that
was started under a key before the one up to which the loop had passed the peer; and no call that
took its keypair after that assigns a nonce under such a keypair. -/
theorem identity_change_complete (C : Crypto) (isChacha : Bool) (identity : NoiseStaticIdentity) (s : IdentityDevice)
    (hrun : Exec (step C isChacha) (fun _ _ => True) (init C identity) s) (p : Nat) :
    ((s.peers p).passed = s.generation → (s.peers p).calls.hs.precomputedStaticStatic =
        precomputeStaticStatic C s.identity (s.peers p).calls.hs.remoteStatic) ∧
      (∀ x ∈ (s.peers p).installs, x.passed ≤ x.under) ∧ ∀ x ∈ (s.peers p).nonces, x.passed ≤ x.under := by
  have h : s.Inv C := hrun.inv (I := Inv C) (Inv.init C identity) fun _ _ _ _ h hs => h.step hs
  exact ⟨(h.peers p).precomputed, (h.peers p).installs, (h.peers p).nonces⟩

/-- A session as a responder, another private key, the confirmation of the old keypair, with which
nothing is sent, and a session under the new key, with which something is. -/
def newKeyBetweenSessions : List IdentityEvent :=
  [.createPeer [7, 7] [4], .handshake 0 (.checkInitiation 0 (plainInitiation 5 1) 1000000000),
    .handshake 0 (.writeInitiation 0 1000000000), .handshake 0 (.createResponse 0 [2] 6),
    .handshake 0 (.beginSession 0 .installed 0), .keys 0 (.decryptPacket ⟨0, false⟩),
    .setPrivateKey [8, 8], .loop, .loop, .loop, .loop,
    .keys 0 (.rxPoll 0 0 true), .keys 0 (.checkNext 0), .keys 0 (.receivedWithKeypair 0), .keys 0 (.takeKeypair 0),
    .keys 0 (.checkKeypair 0 false),
    .handshake 0 (.checkInitiation 0 (plainInitiation 7 2) 2000000000),
    .handshake 0 (.writeInitiation 0 2000000000), .handshake 0 (.createResponse 0 [2] 8),
    .handshake 0 (.beginSession 0 .installed 0), .keys 0 (.decryptPacket ⟨1, false⟩),
    .keys 0 (.rxPoll 0 0 true), .keys 0 (.checkNext 0), .keys 0 (.receivedWithKeypair 0), .keys 0 (.takeKeypair 0),
    .keys 0 (.checkKeypair 0 false), .keys 0 (.assignNonce 0 false true)]

open HandshakeRun (plainIdentity)

theorem identity_change_complete_one : ∃ s, Exec (step plainCrypto true) (fun _ _ => True)
      (init plainCrypto plainIdentity) s ∧
    ((s.peers 0).passed, s.generation, (s.peers 0).installs.map (·.under), (s.peers 0).nonces.map (·.under)) =
      (1, 1, [1, 0], [1]) ∧
    (s.peers 0).calls.hs.precomputedStaticStatic =
      precomputeStaticStatic plainCrypto s.identity (s.peers 0).calls.hs.remoteStatic ∧
    ∀ x ∈ (s.peers 0).nonces, x.passed ≤ x.under := by
  have hrun : ∃ s, Exec (step plainCrypto true) (fun _ _ => True) (init plainCrypto plainIdentity) s ∧
      ((s.peers 0).passed, s.generation, (s.peers 0).installs.map (·.under), (s.peers 0).nonces.map (·.under)) =
        (1, 1, [1, 0], [1]) :=
    Exec.exists_of_foldlM newKeyBetweenSessions (fun s : IdentityDevice =>
      ((s.peers 0).passed, s.generation, (s.peers 0).installs.map (·.under), (s.peers 0).nonces.map (·.under)))
      (by decide +kernel)
  obtain ⟨s, hrun, hs⟩ := hrun
  obtain ⟨hpre, -, hn⟩ := identity_change_complete plainCrypto true plainIdentity s hrun 0
  have hp : (s.peers 0).passed = 1 := congrArg (·.1) hs
  have hg : s.generation = 1 := congrArg (·.2.1) hs
  exact ⟨s, hrun, hs, hpre (hp.trans hg.symm), hn⟩

end IdentityDevice
end WireguardAes
