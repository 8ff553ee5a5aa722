import WireguardAes.Keypairs
import Mathlib.Logic.Function.Basic

/-!
# Confirmation of a responder's keypair (`noise.c`, `receive.c`, `send.c`)

How the keypairs of a peer come to be used for sending: `begin_session` adds them,
`wg_packet_rx_poll` hands a packet that was decrypted and accepted by `counter_validate` to
`wg_noise_received_with_keypair`, and `wg_packet_send_staged_packets` takes the current keypair and
assigns nonces under it. `received_with_keypair` looks at the next slot once without and once with
the lock; a sender keeps the keypair it has taken while the slots go on changing. A section under
`keypair_update_lock` is one step, and so is each access without it.
-/

namespace WireguardAes

open Function Runs

/-- A keypair by its `internal_id`, with the one field that never changes. -/
structure SessionKeypair where
  id : Nat
  iAmTheInitiator : Bool
  deriving DecidableEq

/-- `wg_packet_rx_poll`. -/
inductive RxCall where
  | idle
  /-- `counter_validate` has accepted the packet. -/
  | accepted (k : SessionKeypair)
  /-- `wg_noise_received_with_keypair`, past the check without the lock. -/
  | locking (k : SessionKeypair)

/-- `wg_packet_send_staged_packets`. -/
inductive StagedCall where
  | idle
  /-- After `wg_noise_keypair_get`. -/
  | taken (k : SessionKeypair)
  /-- Past the checks of the keypair. -/
  | assigning (k : SessionKeypair)

def RxCall.keypair : RxCall → Option SessionKeypair
  | .idle => none
  | .accepted k => some k
  | .locking k => some k

def StagedCall.keypair : StagedCall → Option SessionKeypair
  | .idle => none
  | .taken k => some k
  | .assigning k => some k

/-- A nonce was assigned under the keypair; had it been confirmed by then? -/
structure AssignedNonce where
  keypair : SessionKeypair
  confirmed : Bool

structure KeyUse where
  slots : NoiseKeypairs SessionKeypair
  installed : List SessionKeypair
  /-- `sending.is_valid`. -/
  sendingValid : SessionKeypair → Bool
  /-- The keypairs of the decrypted packets in the receive queue. -/
  crypted : List SessionKeypair
  poll : Nat → RxCall
  send : Nat → StagedCall
  /-- The keypairs under which a packet has been authenticated and accepted. -/
  confirmed : List SessionKeypair
  nonces : List AssignedNonce

inductive KeyUseEvent where
  | addNewKeypair (iAmTheInitiator : Bool)
  /-- `decrypt_packet` succeeds. -/
  | decryptPacket (k : SessionKeypair)
  /-- With what `counter_validate` says of the `i`-th packet. -/
  | rxPoll (p i : Nat) (valid : Bool)
  | checkNext (p : Nat)
  | receivedWithKeypair (p : Nat)
  | keypairsClear
  | expireCurrentPeerKeypairs
  | takeKeypair (c : Nat)
  /-- The keypair may have reached `REJECT_AFTER_TIME`. -/
  | checkKeypair (c : Nat) (expired : Bool)
  /-- `atomic64_inc_return` for a packet, which may reach `REJECT_AFTER_MESSAGES` or be the last
  one. -/
  | assignNonce (c : Nat) (exhausted last : Bool)

namespace KeyUse

def init : KeyUse where
  slots := ⟨none, none, none⟩
  installed := []
  sendingValid _ := false
  crypted := []
  poll _ := .idle
  send _ := .idle
  confirmed := []
  nonces := []

def invalidate (s : KeyUse) (k : Option SessionKeypair) : KeyUse :=
  match k with
  | some k => { s with sendingValid := update s.sendingValid k false }
  | none => s

def setPoll (s : KeyUse) (p : Nat) (x : RxCall) : KeyUse := { s with poll := update s.poll p x }

def setSend (s : KeyUse) (c : Nat) (x : StagedCall) : KeyUse := { s with send := update s.send c x }

def step (s : KeyUse) : KeyUseEvent → Option KeyUse
  | .addNewKeypair iAmTheInitiator =>
    let k := ⟨s.installed.length, iAmTheInitiator⟩
    some { s with
      slots := (s.slots.addNewKeypair k iAmTheInitiator).1
      installed := k :: s.installed
      sendingValid := update s.sendingValid k true }
  | .decryptPacket k => if k ∈ s.installed then some { s with crypted := k :: s.crypted } else none
  | .rxPoll p i valid =>
    match s.poll p with
    | .idle => s.crypted[i]?.map fun k =>
      let s := { s with crypted := s.crypted.eraseIdx i }
      if valid then { s.setPoll p (.accepted k) with confirmed := k :: s.confirmed } else s
    | _ => none
  | .checkNext p =>
    match s.poll p with
    | .accepted k => some (s.setPoll p (if s.slots.nextKeypair = some k then .locking k else .idle))
    | _ => none
  | .receivedWithKeypair p =>
    match s.poll p with
    | .locking k => some { s.setPoll p .idle with slots := (s.slots.receivedWithKeypair k).1 }
    | _ => none
  | .keypairsClear => some { s with slots := s.slots.keypairsClear.1 }
  | .expireCurrentPeerKeypairs => some ((s.invalidate s.slots.nextKeypair).invalidate s.slots.currentKeypair)
  | .takeKeypair c =>
    match s.send c with
    | .idle => s.slots.currentKeypair.map fun k => s.setSend c (.taken k)
    | _ => none
  | .checkKeypair c expired =>
    match s.send c with
    | .taken k =>
      if !s.sendingValid k then some (s.setSend c .idle)
      else if expired then some ((s.setSend c .idle).invalidate (some k))
      else some (s.setSend c (.assigning k))
    | _ => none
  | .assignNonce c exhausted last =>
    match s.send c with
    | .assigning k =>
      let s := { s with nonces := ⟨k, decide (k ∈ s.confirmed)⟩ :: s.nonces }
      if exhausted then some ((s.setSend c .idle).invalidate (some k))
      else some (if last then s.setSend c .idle else s)
    | _ => none

/-- An initiator's keypair, or one under which a packet has been accepted. -/
def Usable (s : KeyUse) (k : SessionKeypair) : Prop := k.iAmTheInitiator = true ∨ k ∈ s.confirmed

structure Inv (s : KeyUse) : Prop where
  current : ∀ k ∈ s.slots.currentKeypair, s.Usable k
  next : ∀ k ∈ s.slots.nextKeypair, k.iAmTheInitiator = false
  poll : ∀ p, ∀ k ∈ (s.poll p).keypair, k ∈ s.confirmed
  send : ∀ c, ∀ k ∈ (s.send c).keypair, s.Usable k
  nonces : ∀ x ∈ s.nonces, x.keypair.iAmTheInitiator = true ∨ x.confirmed = true

variable {s s' : KeyUse}
variable {k : SessionKeypair}

/-! ### The slots -/

theorem addNewKeypair_current (ks : NoiseKeypairs SessionKeypair) (k : SessionKeypair) :
    ∀ x ∈ (ks.addNewKeypair k k.iAmTheInitiator).1.currentKeypair,
      x ∈ ks.currentKeypair ∨ (x = k ∧ k.iAmTheInitiator = true) := by
  intro x hx
  obtain ⟨current, previous, next⟩ := ks
  cases hi : k.iAmTheInitiator with
  | false => rw [hi] at hx; exact .inl hx
  | true =>
    rw [hi] at hx
    cases next <;> exact .inr ⟨(Option.some.inj hx).symm, rfl⟩

theorem addNewKeypair_next (ks : NoiseKeypairs SessionKeypair) (k : SessionKeypair) :
    ∀ x ∈ (ks.addNewKeypair k k.iAmTheInitiator).1.nextKeypair, x = k ∧ k.iAmTheInitiator = false := by
  intro x hx
  obtain ⟨current, previous, next⟩ := ks
  cases hi : k.iAmTheInitiator with
  | false => rw [hi] at hx; exact ⟨(Option.some.inj hx).symm, rfl⟩
  | true =>
    rw [hi] at hx
    cases next <;> cases hx

theorem receivedWithKeypair_current {ks : NoiseKeypairs SessionKeypair} :
    ∀ x ∈ (ks.receivedWithKeypair k).1.currentKeypair, x ∈ ks.currentKeypair ∨ x = k := by
  intro x hx
  unfold NoiseKeypairs.receivedWithKeypair at hx
  split at hx
  · exact .inr (Option.some.inj hx).symm
  · exact .inl hx

theorem receivedWithKeypair_next {ks : NoiseKeypairs SessionKeypair} :
    ∀ x ∈ (ks.receivedWithKeypair k).1.nextKeypair, x ∈ ks.nextKeypair := by
  intro x hx
  unfold NoiseKeypairs.receivedWithKeypair at hx
  split at hx
  · cases hx
  · exact hx

/-! ### The steps -/

theorem Usable.mono (h : s.Usable k) (hc : s.confirmed ⊆ s'.confirmed) : s'.Usable k :=
  h.imp id fun hk => hc hk

namespace Inv

theorem slots (h : s.Inv) {slots : NoiseKeypairs SessionKeypair}
    (hc : ∀ k ∈ slots.currentKeypair, s.Usable k) (hn : ∀ k ∈ slots.nextKeypair, k.iAmTheInitiator = false) :
    Inv { s with slots } := ⟨hc, hn, h.poll, h.send, h.nonces⟩

theorem invalidate (h : s.Inv) (k : Option SessionKeypair) : (s.invalidate k).Inv := by
  cases k with
  | none => exact h
  | some k => exact ⟨h.current, h.next, h.poll, h.send, h.nonces⟩

theorem setPoll (h : s.Inv) (p : Nat) {x : RxCall} (hx : ∀ k ∈ x.keypair, k ∈ s.confirmed) :
    (s.setPoll p x).Inv :=
  { h with
    poll := (forall_update_iff s.poll fun _ x => ∀ k ∈ x.keypair, k ∈ s.confirmed).mpr
      ⟨hx, fun p' _ => h.poll p'⟩ }

theorem setSend (h : s.Inv) (c : Nat) {x : StagedCall} (hx : ∀ k ∈ x.keypair, s.Usable k) : (s.setSend c x).Inv :=
  { h with
    send := (forall_update_iff s.send fun _ x => ∀ k ∈ x.keypair, s.Usable k).mpr
      ⟨hx, fun c' _ => h.send c'⟩ }

theorem confirm (h : s.Inv) (k : SessionKeypair) : Inv { s with confirmed := k :: s.confirmed } := by
  have hc : s.confirmed ⊆ k :: s.confirmed := List.subset_cons_self _ _
  exact ⟨fun x hx => (h.current x hx).mono hc, h.next, fun p x hx => hc (h.poll p x hx),
    fun c x hx => (h.send c x hx).mono hc, h.nonces⟩

theorem step (h : s.Inv) {ev : KeyUseEvent} (hs : s.step ev = some s') : s'.Inv := by
  cases ev with
  | addNewKeypair iAmTheInitiator =>
    cases hs
    let k : SessionKeypair := ⟨s.installed.length, iAmTheInitiator⟩
    have hslots : Inv { s with slots := (s.slots.addNewKeypair k iAmTheInitiator).1 } := by
      refine h.slots (fun x hx => ?_) fun x hx => ?_
      · rcases addNewKeypair_current s.slots k x hx with hx | ⟨rfl, hi⟩
        · exact h.current x hx
        · exact .inl hi
      · obtain ⟨rfl, hi⟩ := addNewKeypair_next s.slots k x hx
        exact hi
    exact ⟨hslots.current, hslots.next, hslots.poll, hslots.send, hslots.nonces⟩
  | decryptPacket k =>
    simp only [KeyUse.step] at hs
    split at hs <;> cases hs
    exact ⟨h.current, h.next, h.poll, h.send, h.nonces⟩
  | rxPoll p i valid =>
    simp only [KeyUse.step] at hs
    split at hs
    · obtain ⟨k, -, rfl⟩ := Option.map_eq_some_iff.mp hs
      cases valid with
      | false => exact ⟨h.current, h.next, h.poll, h.send, h.nonces⟩
      | true =>
        have hp := (h.confirm k).setPoll p (x := .accepted k) (by rintro _ ⟨⟩; exact List.mem_cons_self)
        exact ⟨hp.current, hp.next, hp.poll, hp.send, hp.nonces⟩
    · cases hs
  | checkNext p =>
    simp only [KeyUse.step] at hs
    split at hs
    case h_1 k hp =>
      cases hs
      have hk : k ∈ s.confirmed := h.poll p k (by rw [hp]; rfl)
      refine h.setPoll p ?_
      split <;> rintro _ ⟨⟩
      exact hk
    case h_2 => cases hs
  | receivedWithKeypair p =>
    simp only [KeyUse.step] at hs
    split at hs
    case h_1 k hp =>
      cases hs
      have hk : k ∈ s.confirmed := h.poll p k (by rw [hp]; rfl)
      refine (h.setPoll p (x := .idle) (by rintro _ ⟨⟩)).slots (fun x hx => ?_) fun x hx => ?_
      · rcases receivedWithKeypair_current x hx with hx | rfl
        · exact h.current x hx
        · exact .inr hk
      · exact h.next x (receivedWithKeypair_next x hx)
    case h_2 => cases hs
  | keypairsClear =>
    cases hs
    exact h.slots (by rintro _ ⟨⟩) (by rintro _ ⟨⟩)
  | expireCurrentPeerKeypairs =>
    cases hs
    exact (h.invalidate _).invalidate _
  | takeKeypair c =>
    simp only [KeyUse.step] at hs
    split at hs
    · obtain ⟨k, hk, rfl⟩ := Option.map_eq_some_iff.mp hs
      exact h.setSend c (by rintro _ ⟨⟩; exact h.current k hk)
    · cases hs
  | checkKeypair c expired =>
    simp only [KeyUse.step] at hs
    split at hs
    case h_1 k hc =>
      have hk : s.Usable k := h.send c k (by rw [hc]; rfl)
      split at hs
      · cases hs; exact h.setSend c (by rintro _ ⟨⟩)
      split at hs <;> cases hs
      · exact (h.setSend c (by rintro _ ⟨⟩)).invalidate _
      · exact h.setSend c (by rintro _ ⟨⟩; exact hk)
    · cases hs
  | assignNonce c exhausted last =>
    simp only [KeyUse.step] at hs
    split at hs
    case h_1 k hc =>
      have hk : s.Usable k := h.send c k (by rw [hc]; rfl)
      have hn : Inv { s with nonces := ⟨k, decide (k ∈ s.confirmed)⟩ :: s.nonces } :=
        ⟨h.current, h.next, h.poll, h.send,
          List.forall_mem_cons.mpr ⟨hk.imp id decide_eq_true, h.nonces⟩⟩
      split at hs <;> cases hs
      · exact (hn.setSend c (by rintro _ ⟨⟩)).invalidate _
      · split
        · exact hn.setSend c (by rintro _ ⟨⟩)
        · exact hn
    · cases hs

end Inv

/-- In every run: a responder's keypair is current only after a packet has been accepted under it,
the next keypair is always a responder's, and no nonce is assigned under a responder's keypair
before a packet has been accepted under it. -/
theorem responder_keypair_confirmed (s : KeyUse) (hrun : Exec step (fun _ _ => True) init s) :
    (∀ k, s.slots.currentKeypair = some k → k.iAmTheInitiator = false → k ∈ s.confirmed) ∧
      (∀ k, s.slots.nextKeypair = some k → k.iAmTheInitiator = false) ∧
      ∀ x ∈ s.nonces, x.keypair.iAmTheInitiator = false → x.confirmed = true := by
  have h : s.Inv := hrun.inv (I := Inv)
    ⟨by rintro _ ⟨⟩, by rintro _ ⟨⟩, by rintro _ _ ⟨⟩, by rintro _ _ ⟨⟩, List.forall_mem_nil _⟩
    fun _ _ _ _ h hs => h.step hs
  refine ⟨fun k hk hi => ?_, h.next, fun x hx hi => ?_⟩
  · exact (h.current k hk).resolve_left (by rw [hi]; decide)
  · exact (h.nonces x hx).resolve_left (by rw [hi]; decide)

/-- A responder's keypair is confirmed and used; another one is demoted before it is. -/
def confirmedAndDemoted : List KeyUseEvent :=
  [.addNewKeypair false, .decryptPacket ⟨0, false⟩, .rxPoll 0 0 true, .checkNext 0, .receivedWithKeypair 0,
    .takeKeypair 0, .checkKeypair 0 false, .assignNonce 0 false true, .addNewKeypair false, .addNewKeypair true]

theorem responder_keypair_confirmed_demoted : ∃ s, Exec step (fun _ _ => True) init s ∧
    s.slots = ⟨some ⟨2, true⟩, some ⟨1, false⟩, none⟩ ∧ s.nonces.map (·.keypair) = [⟨0, false⟩] ∧
    ∀ x ∈ s.nonces, x.keypair.iAmTheInitiator = false → x.confirmed = true := by
  have hrun : ∃ s, Exec step (fun _ _ => True) init s ∧ s.slots = ⟨some ⟨2, true⟩, some ⟨1, false⟩, none⟩ ∧
      s.nonces.map (·.keypair) = [⟨0, false⟩] := ⟨_, .of_foldlM confirmedAndDemoted rfl, rfl, rfl⟩
  obtain ⟨s, hrun, hslots, hn⟩ := hrun
  exact ⟨s, hrun, hslots, hn, (responder_keypair_confirmed s hrun).2.2⟩

end KeyUse
end WireguardAes
