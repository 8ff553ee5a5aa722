import WireguardAes.Keypairs
import WireguardAes.Noise

/-!
# The erasure of session keys (`timers.c`, `noise.c`, `device.c`)

A peer that holds keypairs is to have their erasure scheduled: `wg_timers_session_derived` arms
`timer_zero_key_material`, whose handler queues `clear_peer_work`, which clears the keypairs. Next
to it run the handshake workers, which add keypairs and are not flushed by `wg_stop`; `wg_stop`,
which stops the timers and then clears the keypairs; and `wg_open`. The test of `mod_peer_timer` and
its `mod_timer` are two steps.
-/

namespace WireguardAes

open Runs

/-- How far `dev_open` and `dev_close` are, for one peer. -/
inductive PeerLink where
  | down
  /-- In `wg_open`, which may still fail. -/
  | opening
  | up
  /-- `wg_stop` is entered. -/
  | stopping
  /-- The timers are deleted. -/
  | timersDeleted
  /-- `wg_timers_stop` has returned. -/
  | timersStopped
  | handshakeCleared
  deriving DecidableEq

def PeerLink.netifRunning : PeerLink → Bool
  | .opening => true
  | .up => true
  | _ => false

/-- `wg_stop` has still to clear the keypairs. -/
def PeerLink.willClear : PeerLink → Bool
  | .stopping => true
  | .timersDeleted => true
  | .timersStopped => true
  | .handshakeCleared => true
  | _ => false

/-- `wg_queued_expired_zero_key_material`. -/
inductive ClearWork where
  | idle
  | started
  | handshakeCleared
  | keypairsCleared
  deriving DecidableEq

structure PeerKeys where
  link : PeerLink
  isDead : Bool
  state : HandshakeState
  /-- The entry of the handshake is in the index hashtable. -/
  entryHashed : Bool
  slots : NoiseKeypairs Nat
  created : Nat
  /-- The handshake workers between `begin_session` and the test of `wg_timers_session_derived`. -/
  derived : Nat
  /-- Those between that test and `mod_timer`. -/
  arming : Nat
  /-- The handlers of `timer_retransmit_handshake` that have given up, between the test and
  `mod_timer`. -/
  givingUp : Nat
  /-- `timer_zero_key_material` is pending. -/
  zeroPending : Bool
  /-- It has expired, and `wg_expired_zero_key_material` has not come to `queue_work`. -/
  expiring : Bool
  clearQueued : Bool
  clearWork : ClearWork

inductive PeerKeysEvent where
  | createInitiation
  | consumeInitiation
  | createResponse
  | consumeResponse
  /-- The allocations may fail. -/
  | beginSession (allocated : Bool)
  | sessionDerived
  | modTimerSession
  | retransmitGivesUp
  | modTimerGivesUp
  | receivedWithKeypair (k : Nat)
  | zeroExpires
  | queueClear
  | clearStart
  | clearHandshake
  | clearKeypairs
  | clearReturn
  | devOpen
  | wgOpen (ok : Bool)
  | devClose
  | stopDelTimers
  | stopFlushWork
  | stopHandshakeClear
  | stopKeypairsClear
  | makeDead
  deriving DecidableEq

namespace PeerKeys

def init : PeerKeys where
  link := .down
  isDead := false
  state := .zeroed
  entryHashed := false
  slots := ⟨none, none, none⟩
  created := 0
  derived := 0
  arming := 0
  givingUp := 0
  zeroPending := false
  expiring := false
  clearQueued := false
  clearWork := .idle

def handshakeClear (s : PeerKeys) : PeerKeys := { s with entryHashed := false, state := .zeroed }

def keypairsClear (s : PeerKeys) : PeerKeys := { s with slots := s.slots.keypairsClear.1 }

/-- The test of `mod_peer_timer`. -/
def mayArm (s : PeerKeys) : Bool := s.link.netifRunning && !s.isDead

/-- The end of `begin_session`: the keypair is added, and the handshake's index is handed over to
it. -/
def publish (s : PeerKeys) : PeerKeys :=
  let s' := { s with state := .zeroed }
  if s.isDead then s'
  else { s' with
    slots := (s.slots.addNewKeypair s.created (s.state = .consumedResponse)).1
    created := s.created + 1
    entryHashed := false
    derived := if s.entryHashed then s.derived + 1 else s.derived }

def step (s : PeerKeys) : PeerKeysEvent → Option PeerKeys
  | .createInitiation => some { s with state := .createdInitiation, entryHashed := true }
  | .consumeInitiation => some { s with state := .consumedInitiation }
  | .createResponse =>
    if s.state = .consumedInitiation then some { s with state := .createdResponse, entryHashed := true } else none
  | .consumeResponse => if s.state = .createdInitiation then some { s with state := .consumedResponse } else none
  | .beginSession allocated =>
    if s.state = .createdResponse ∨ s.state = .consumedResponse then some (if allocated then s.publish else s)
    else some s
  | .sessionDerived =>
    if s.derived = 0 then none
    else some { s with derived := s.derived - 1, arming := if s.mayArm then s.arming + 1 else s.arming }
  | .modTimerSession => if s.arming = 0 then none else some { s with arming := s.arming - 1, zeroPending := true }
  | .retransmitGivesUp => if !s.zeroPending && s.mayArm then some { s with givingUp := s.givingUp + 1 } else some s
  | .modTimerGivesUp =>
    if s.givingUp = 0 then none else some { s with givingUp := s.givingUp - 1, zeroPending := true }
  | .receivedWithKeypair k => some { s with slots := (s.slots.receivedWithKeypair k).1 }
  | .zeroExpires =>
    if s.zeroPending && !s.expiring then some { s with zeroPending := false, expiring := true } else none
  | .queueClear =>
    if s.expiring then some { s with expiring := false, clearQueued := s.clearQueued || !s.isDead } else none
  | .clearStart =>
    if s.clearQueued ∧ s.clearWork = .idle then some { s with clearQueued := false, clearWork := .started } else none
  | .clearHandshake =>
    if s.clearWork = .started then some { s.handshakeClear with clearWork := .handshakeCleared } else none
  | .clearKeypairs =>
    if s.clearWork = .handshakeCleared then some { s.keypairsClear with clearWork := .keypairsCleared } else none
  | .clearReturn => if s.clearWork = .keypairsCleared then some { s with clearWork := .idle } else none
  | .devOpen => if s.link = .down then some { s with link := .opening } else none
  | .wgOpen ok => if s.link = .opening then some { s with link := if ok then .up else .down } else none
  | .devClose => if s.link = .up then some { s with link := .stopping } else none
  -- `del_timer_sync` waits for the handler.
  | .stopDelTimers =>
    if s.link = .stopping ∧ s.expiring = false then some { s with link := .timersDeleted, zeroPending := false }
    else none
  | .stopFlushWork =>
    if s.link = .timersDeleted ∧ s.clearQueued = false ∧ s.clearWork = .idle then some { s with link := .timersStopped }
    else none
  | .stopHandshakeClear =>
    if s.link = .timersStopped then some { s.handshakeClear with link := .handshakeCleared } else none
  | .stopKeypairsClear =>
    if s.link = .handshakeCleared then some { s.keypairsClear with link := .down } else none
  | .makeDead => some { s with isDead := true }

/-- A handshake worker adds a keypair only while the interface is up: after a `wg_open` that
succeeds and before the next `wg_stop` clears the keypairs of the peer. -/
def BeginsWhileUp (s : PeerKeys) (e : PeerKeysEvent) : Prop :=
  e = .beginSession true → s.link = .up ∨ s.link.willClear = true

instance (s : PeerKeys) (e : PeerKeysEvent) : Decidable (BeginsWhileUp s e) := inferInstanceAs (Decidable (_ → _))

/-- No handshake worker is between a successful `begin_session` and the end of its
`wg_timers_session_derived`. -/
def NoneDeriving (s : PeerKeys) : Prop := s.derived = 0 ∧ s.arming = 0

/-- The erasure of the keypairs is scheduled or under way. -/
def Scheduled (s : PeerKeys) : Prop := s.zeroPending = true ∨ s.clearQueued = true ∨ s.clearWork ≠ .idle

/-- The keypairs will be cleared by the timer or by `wg_stop`. A work that has cleared them does not
count, since a keypair may have been added after that. -/
def Covered (s : PeerKeys) : Prop :=
  s.isDead = true ∨ s.slots.toList = [] ∨ 0 < s.derived ∨ 0 < s.arming ∨ s.zeroPending = true ∨ s.expiring = true ∨
    s.clearQueued = true ∨ s.clearWork = .started ∨ s.clearWork = .handshakeCleared ∨ s.link.willClear = true

structure Inv (s : PeerKeys) : Prop where
  hashed : s.state ≠ .zeroed → s.state ≠ .consumedInitiation → s.entryHashed = true
  /-- While the interface is not up and `wg_stop` is not at work, there are no keypairs. -/
  cleared : s.link ≠ .up → s.link.willClear = false → s.slots.toList = []
  covered : Covered s

variable {s t : PeerKeys} {e : PeerKeysEvent}

theorem Covered.of_pending (h : s.zeroPending = true) : Covered s := by simp only [Covered, h, true_or, or_true]

theorem Covered.of_expiring (h : s.expiring = true) : Covered s := by simp only [Covered, h, true_or, or_true]

theorem Covered.of_clearWork (h : s.clearWork = .started ∨ s.clearWork = .handshakeCleared) : Covered s := by
  rcases h with h | h <;> simp only [Covered, h, true_or, or_true]

theorem Covered.of_willClear (h : s.link.willClear = true) : Covered s := by simp only [Covered, h, or_true]

namespace Inv

theorem init : Inv PeerKeys.init where
  hashed h := absurd rfl h
  cleared _ _ := rfl
  covered := .inr (.inl rfl)

theorem publish (h : Inv s) (hup : s.link = .up ∨ s.link.willClear = true)
    (hstate : s.state = .createdResponse ∨ s.state = .consumedResponse) : Inv s.publish := by
  have hhashed : s.entryHashed = true := by
    refine h.hashed ?_ ?_ <;> rcases hstate with hstate | hstate <;> rw [hstate] <;> decide
  unfold PeerKeys.publish
  split
  · exact ⟨fun hz => absurd rfl hz, h.cleared, h.covered⟩
  · refine ⟨fun hz => absurd rfl hz, fun hl hw => ?_, .inr (.inr (.inl ?_))⟩
    · rcases hup with hup | hup
      · exact absurd hup hl
      · rw [hup] at hw
        cases hw
    · exact Nat.succ_pos _

/-- A handshake worker that finds the interface stopped leaves no keypair behind, or one that
`wg_stop` clears. -/
theorem sessionDerived (h : Inv s) : Covered { s with
    derived := s.derived - 1, arming := if s.mayArm then s.arming + 1 else s.arming } := by
  by_cases hmay : s.mayArm = true
  · refine .inr (.inr (.inr (.inl ?_)))
    simp only [if_pos hmay, Nat.zero_lt_succ]
  · rw [mayArm, Bool.and_eq_true, Bool.not_eq_true', not_and_or, Bool.not_eq_false, Bool.not_eq_true] at hmay
    rcases hmay with hrun | hdead
    · by_cases hw : s.link.willClear = true
      · exact .of_willClear hw
      · have hup : s.link ≠ .up := by
          intro hup
          rw [hup] at hrun
          cases hrun
        exact .inr (.inl (h.cleared hup (Bool.eq_false_iff.mpr hw)))
    · exact .inl hdead

theorem step (h : Inv s) (hok : BeginsWhileUp s e) (hs : s.step e = some t) : Inv t := by
  have hcov := h.covered
  unfold Covered at hcov
  cases e with
  | createInitiation =>
    cases hs
    exact ⟨fun _ _ => rfl, h.cleared, hcov⟩
  | consumeInitiation =>
    cases hs
    exact ⟨fun _ hc => absurd rfl hc, h.cleared, hcov⟩
  | createResponse =>
    dsimp only [PeerKeys.step] at hs
    split at hs <;> cases hs
    exact ⟨fun _ _ => rfl, h.cleared, hcov⟩
  | consumeResponse =>
    obtain ⟨hstate, ⟨⟩⟩ := Option.ite_none_right_eq_some.mp hs
    exact ⟨fun _ _ => h.hashed (by rw [hstate]; decide) (by rw [hstate]; decide), h.cleared, hcov⟩
  | beginSession allocated =>
    dsimp only [PeerKeys.step] at hs
    split_ifs at hs with hstate halloc <;> cases hs
    · exact h.publish (hok (by rw [halloc])) hstate
    · exact h
    · exact h
  | sessionDerived =>
    dsimp only [PeerKeys.step] at hs
    split at hs <;> cases hs
    exact ⟨h.hashed, h.cleared, h.sessionDerived⟩
  | modTimerSession =>
    dsimp only [PeerKeys.step] at hs
    split at hs <;> cases hs
    exact ⟨h.hashed, h.cleared, .of_pending rfl⟩
  | retransmitGivesUp =>
    dsimp only [PeerKeys.step] at hs
    split at hs <;> cases hs
    · exact ⟨h.hashed, h.cleared, hcov⟩
    · exact h
  | modTimerGivesUp =>
    dsimp only [PeerKeys.step] at hs
    split at hs <;> cases hs
    exact ⟨h.hashed, h.cleared, .of_pending rfl⟩
  | receivedWithKeypair k =>
    cases hs
    refine ⟨h.hashed, fun hl hw => NoiseKeypairs.toList_receivedWithKeypair k (h.cleared hl hw), ?_⟩
    exact hcov.imp_right (Or.imp_left (NoiseKeypairs.toList_receivedWithKeypair k))
  | zeroExpires =>
    dsimp only [PeerKeys.step] at hs
    split at hs <;> cases hs
    exact ⟨h.hashed, h.cleared, .of_expiring rfl⟩
  | queueClear =>
    dsimp only [PeerKeys.step] at hs
    split at hs <;> cases hs
    refine ⟨h.hashed, h.cleared, ?_⟩
    unfold Covered
    grind
  | clearStart =>
    dsimp only [PeerKeys.step] at hs
    split at hs <;> cases hs
    exact ⟨h.hashed, h.cleared, .of_clearWork (.inl rfl)⟩
  | clearHandshake =>
    dsimp only [PeerKeys.step] at hs
    split at hs <;> cases hs
    exact ⟨fun hz => absurd rfl hz, h.cleared, .of_clearWork (.inr rfl)⟩
  | clearKeypairs =>
    dsimp only [PeerKeys.step] at hs
    split at hs <;> cases hs
    exact ⟨h.hashed, fun _ _ => rfl, .inr (.inl rfl)⟩
  | clearReturn =>
    obtain ⟨hwork, ⟨⟩⟩ := Option.ite_none_right_eq_some.mp hs
    refine ⟨h.hashed, h.cleared, ?_⟩
    unfold Covered
    grind
  | devOpen =>
    obtain ⟨hl, ⟨⟩⟩ := Option.ite_none_right_eq_some.mp hs
    have hnil := h.cleared (by rw [hl]; decide) (by rw [hl]; rfl)
    exact ⟨h.hashed, fun _ _ => hnil, .inr (.inl hnil)⟩
  | wgOpen ok =>
    obtain ⟨hl, ⟨⟩⟩ := Option.ite_none_right_eq_some.mp hs
    have hnil := h.cleared (by rw [hl]; decide) (by rw [hl]; rfl)
    exact ⟨h.hashed, fun _ _ => hnil, .inr (.inl hnil)⟩
  | devClose =>
    dsimp only [PeerKeys.step] at hs
    split at hs <;> cases hs
    exact ⟨h.hashed, fun _ hw => (by cases hw), .of_willClear rfl⟩
  | stopDelTimers =>
    dsimp only [PeerKeys.step] at hs
    split at hs <;> cases hs
    exact ⟨h.hashed, fun _ hw => (by cases hw), .of_willClear rfl⟩
  | stopFlushWork =>
    dsimp only [PeerKeys.step] at hs
    split at hs <;> cases hs
    exact ⟨h.hashed, fun _ hw => (by cases hw), .of_willClear rfl⟩
  | stopHandshakeClear =>
    dsimp only [PeerKeys.step] at hs
    split at hs <;> cases hs
    exact ⟨fun hz => absurd rfl hz, fun _ hw => (by cases hw),
      .of_willClear rfl⟩
  | stopKeypairsClear =>
    dsimp only [PeerKeys.step] at hs
    split at hs <;> cases hs
    exact ⟨h.hashed, fun _ _ => rfl, .inr (.inl rfl)⟩
  | makeDead =>
    cases hs
    exact ⟨h.hashed, h.cleared, .inl rfl⟩

end Inv

/-- A live peer that holds a keypair has its erasure scheduled, unless a handshake worker is about
to arm the timer, the handler of the expired timer is about to queue the work or `wg_stop` is about
to clear the keypairs. -/
theorem keypairs_scheduled (h : Exec step BeginsWhileUp init s) (hlive : s.isDead = false) (hworkers : NoneDeriving s)
    (hexpiring : s.expiring = false) (hstop : s.link.willClear = false) (hkeys : s.slots.toList ≠ []) :
    Scheduled s := by
  have hinv : Inv s := h.inv .init fun _ _ _ hok hi hs => hi.step hok hs
  have hcov := hinv.covered
  obtain ⟨hderived, harming⟩ := hworkers
  unfold Covered at hcov
  unfold Scheduled
  rw [hlive, hderived, harming, hexpiring, hstop] at hcov
  rcases hcov with h | h | h | h | h | h | h | h | h | h
  · cases h
  · exact absurd h hkeys
  · cases h
  · cases h
  · exact .inl h
  · cases h
  · exact .inr (.inl h)
  · rw [h]
    exact .inr (.inr (by decide))
  · rw [h]
    exact .inr (.inr (by decide))
  · cases h

/-- A response is sent, and the timer is armed. -/
theorem keypairs_scheduled_responder : ∃ s, Exec step BeginsWhileUp init s ∧ s.slots.toList = [0] ∧ Scheduled s := by
  have hrun : Exec step BeginsWhileUp init
      { init with link := .up, slots := ⟨none, none, some 0⟩, created := 1, zeroPending := true } :=
    Exec.of_foldlM [.devOpen, .wgOpen true, .consumeInitiation, .createResponse, .beginSession true, .sessionDerived,
      .modTimerSession] rfl
  exact ⟨_, hrun, rfl, keypairs_scheduled hrun rfl ⟨rfl, rfl⟩ rfl rfl (by decide)⟩

/-- A handshake worker answers an initiation after `wg_stop` has cleared the peer: the keypair
stays. -/
theorem keypairs_kept_after_stop : ∃ s, Exec step (fun _ _ => True) init s ∧ s.isDead = false ∧ NoneDeriving s ∧
    s.expiring = false ∧ s.link = .down ∧ s.slots.toList = [0] ∧ ¬ Scheduled s := by
  have hrun : Exec step (fun _ _ => True) init { init with slots := ⟨none, none, some 0⟩, created := 1 } :=
    Exec.of_foldlM [.devOpen, .wgOpen true, .devClose, .stopDelTimers, .stopFlushWork, .stopHandshakeClear,
      .stopKeypairsClear, .consumeInitiation, .createResponse, .beginSession true, .sessionDerived] rfl
  refine ⟨_, hrun, rfl, ⟨rfl, rfl⟩, rfl, rfl, rfl, ?_⟩
  unfold Scheduled
  decide

end PeerKeys
end WireguardAes
