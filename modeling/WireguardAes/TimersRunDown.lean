import WireguardAes.Timers
import WireguardAes.Lib.Ranking
import Mathlib.Algebra.Order.BigOperators.Group.List

/-!
# The timers of a peer run down

Left alone and without persistent keepalives, a peer comes to rest. What is pending can set other
things going only in one direction: a keepalive leads to a bundle of packets or to a handshake, a
bundle that has been sent to a new handshake later, and that to initiations, until the attempts are
used up and the keys are zeroed. Only the initiation and its retransmission lead to each other, at
the cost of an attempt; every way to start the attempts again comes from further up. `account` has a
weight for each, such that what is set going always weighs less than what has happened, and it
counts the initiations that have been sent.
-/

namespace WireguardAes

open Function Ranking

/-! ### Weights -/

def zeroKeyMaterialWeight : Nat := 2
def retransmitWeight : Nat := zeroKeyMaterialWeight + 1
/-- The execution of `transmit_handshake_work` sends an initiation and arms the retransmission. -/
def transmitHandshakeWeight : Nat := retransmitWeight + 2
def attemptWeight : Nat := transmitHandshakeWeight - retransmitWeight + 1
/-- All attempts, and the work that is queued. -/
def restartWeight : Nat := attemptWeight * (maxTimerHandshakes + 1) + transmitHandshakeWeight
def newHandshakeWeight : Nat := restartWeight + 1
/-- A bundle that is sent can arm `timer_new_handshake` and find the key old. -/
def cryptedWeight : Nat := newHandshakeWeight + restartWeight
def uncryptedWeight : Nat := cryptedWeight + 2
def keepaliveWeight : Nat := uncryptedWeight + 1

def PeerTimer.weight : PeerTimer → Nat
  | retransmitHandshake => retransmitWeight
  | sendKeepalive => keepaliveWeight
  | newHandshake => newHandshakeWeight
  | zeroKeyMaterial => zeroKeyMaterialWeight
  | persistentKeepalive => 1

def PeerWork.weight : PeerWork → Nat
  | transmitHandshake => transmitHandshakeWeight
  | clearPeer => 1

def TxBundle.weight (bundle : TxBundle) : Nat :=
  match bundle.state with
  | .uncrypted => uncryptedWeight
  | _ => cryptedWeight

namespace TimerState

def timersWeight (s : TimerState) : Nat := (PeerTimer.all.map fun k => due (s.timer k).isSome k.weight).sum

def worksWeight (s : TimerState) : Nat :=
  due (s.work .transmitHandshake) transmitHandshakeWeight + due (s.work .clearPeer) 1 +
    due s.transmitPacketWork 1

def bundlesWeight (s : TimerState) : Nat := (s.txQueue.map TxBundle.weight).sum

def attemptsWeight (s : TimerState) : Nat := attemptWeight * (maxTimerHandshakes + 1 - s.timerHandshakeAttempts)

def account (s : TimerState) : Nat :=
  s.timersWeight + s.worksWeight + s.bundlesWeight + s.attemptsWeight +
    due s.timerNeedAnotherKeepalive keepaliveWeight + s.initiations

/-- What is true of any later state. -/
def Later (s t : TimerState) : Prop :=
  t.persistentKeepaliveInterval = s.persistentKeepaliveInterval ∧ s.initiations ≤ t.initiations

theorem Later.refl (s : TimerState) : Later s s := ⟨rfl, Nat.le_refl _⟩

theorem Later.trans {s t u : TimerState} (h : Later s t) (h' : Later t u) : Later s u :=
  ⟨h'.1.trans h.1, Nat.le_trans h.2 h'.2⟩

/-- `t` comes from `s` by something that adds at most `w` to the account. -/
structure Adds (w : Nat) (s t : TimerState) : Prop where
  account : t.account ≤ s.account + w
  later : Later s t

namespace Adds

variable {s t u : TimerState} {v w : Nat}

theorem refl (s : TimerState) : Adds 0 s s := ⟨Nat.le_refl _, .refl s⟩

theorem trans (h : Adds v s t) (h' : Adds w t u) : Adds (v + w) s u := by
  refine ⟨?_, h.later.trans h'.later⟩
  have hst := h.account
  have htu := h'.account
  omega

theorem mono (h : Adds v s t) (hle : v ≤ w) : Adds w s t :=
  ⟨Nat.le_trans h.account (Nat.add_le_add_left hle _), h.later⟩

end Adds

variable (s : TimerState) (hz : Nat) (c : Chance)

/-! ### The parts of the account -/

theorem timersWeight_setTimer (k : PeerTimer) (expires : Option Nat) :
    (s.setTimer k expires).timersWeight + due (s.timer k).isSome k.weight =
      s.timersWeight + due expires.isSome k.weight := by
  simp only [timersWeight, setTimer, PeerTimer.all, List.map_cons, List.map_nil, List.sum_cons, List.sum_nil]
  rcases k <;> simp only [update_self, update_of_ne, ne_eq, reduceCtorEq, not_false_eq_true] <;> omega

theorem account_setTimer (k : PeerTimer) (expires : Option Nat) :
    (s.setTimer k expires).account + due (s.timer k).isSome k.weight = s.account + due expires.isSome k.weight := by
  have htimers := timersWeight_setTimer s k expires
  have hrest : (s.setTimer k expires).account = (s.setTimer k expires).timersWeight + s.worksWeight + s.bundlesWeight +
      s.attemptsWeight + due s.timerNeedAnotherKeepalive keepaliveWeight + s.initiations := rfl
  rw [hrest, account]
  omega

theorem worksWeight_setWork (w : PeerWork) (queued : Bool) :
    (s.setWork w queued).worksWeight + due (s.work w) w.weight = s.worksWeight + due queued w.weight := by
  rcases w <;> simp only [worksWeight, setWork, PeerWork.weight, update_self, update_of_ne, ne_eq,
    reduceCtorEq, not_false_eq_true] <;> omega

theorem account_setWork (w : PeerWork) (queued : Bool) :
    (s.setWork w queued).account + due (s.work w) w.weight = s.account + due queued w.weight := by
  have hworks := worksWeight_setWork s w queued
  have hrest : (s.setWork w queued).account = s.timersWeight + (s.setWork w queued).worksWeight + s.bundlesWeight +
      s.attemptsWeight + due s.timerNeedAnotherKeepalive keepaliveWeight + s.initiations := rfl
  rw [hrest, account]
  omega

theorem account_setTransmitPacketWork (queued : Bool) :
    (s.setTransmitPacketWork queued).account + due s.transmitPacketWork 1 = s.account + due queued 1 := by
  simp only [account, timersWeight, worksWeight, bundlesWeight, attemptsWeight, setTransmitPacketWork]
  omega

theorem account_setTxQueue (queue : List TxBundle) :
    (s.setTxQueue queue).account + s.bundlesWeight = s.account + (queue.map TxBundle.weight).sum := by
  simp only [account, timersWeight, worksWeight, bundlesWeight, attemptsWeight, setTxQueue]
  omega

/-! ### What the functions add -/

theorem adds_modPeerTimer (k : PeerTimer) (expires : Nat) : Adds k.weight s (s.modPeerTimer k expires) := by
  unfold modPeerTimer
  split
  · have hset := account_setTimer s k (some expires)
    rw [Option.isSome_some, due_true] at hset
    exact ⟨by omega, rfl, Nat.le_refl _⟩
  · exact (Adds.refl s).mono (Nat.zero_le _)

theorem adds_delTimer (k : PeerTimer) : Adds 0 s (s.delTimer k) := by
  have hset := account_setTimer s k none
  rw [Option.isSome_none, due_false] at hset
  refine ⟨?_, rfl, Nat.le_refl _⟩
  rw [delTimer]
  omega

theorem adds_queueWork (w : PeerWork) : Adds w.weight s (s.queueWork w) := by
  have hset := account_setWork s w true
  rw [due_true] at hset
  refine ⟨?_, rfl, Nat.le_refl _⟩
  rw [queueWork]
  omega

theorem adds_setTransmitPacketWork : Adds 1 s (s.setTransmitPacketWork true) := by
  have hset := account_setTransmitPacketWork s true
  rw [due_true] at hset
  exact ⟨by omega, rfl, Nat.le_refl _⟩

theorem adds_enqueue (bundle : TxBundle) : Adds bundle.weight s (s.setTxQueue (s.txQueue ++ [bundle])) := by
  have hset := account_setTxQueue s (s.txQueue ++ [bundle])
  rw [List.map_append, List.sum_append, List.map_singleton, List.sum_singleton] at hset
  refine ⟨?_, rfl, Nat.le_refl _⟩
  rw [bundlesWeight] at hset
  omega

theorem adds_restartAttempts : Adds (attemptWeight * (maxTimerHandshakes + 1)) s s.restartAttempts := by
  have hrest : s.restartAttempts.account = s.timersWeight + s.worksWeight + s.bundlesWeight +
      attemptWeight * (maxTimerHandshakes + 1) + due s.timerNeedAnotherKeepalive keepaliveWeight + s.initiations := rfl
  refine ⟨?_, rfl, Nat.le_refl _⟩
  rw [hrest, account]
  omega

theorem adds_wgPacketSendQueuedHandshakeInitiation_retry :
    Adds transmitHandshakeWeight s (s.wgPacketSendQueuedHandshakeInitiation true) := by
  simp only [wgPacketSendQueuedHandshakeInitiation, if_true]
  split
  · exact (Adds.refl s).mono (Nat.zero_le _)
  · exact adds_queueWork s .transmitHandshake

/-- As long as it is no retry, the attempts start again, and then it is as for a retry. -/
theorem adds_wgPacketSendQueuedHandshakeInitiation :
    Adds restartWeight s (s.wgPacketSendQueuedHandshakeInitiation false) :=
  (adds_restartAttempts s).trans (adds_wgPacketSendQueuedHandshakeInitiation_retry s.restartAttempts)

theorem adds_keepKeyFresh : Adds restartWeight s s.keepKeyFresh := by
  unfold keepKeyFresh
  split
  · split
    · exact adds_wgPacketSendQueuedHandshakeInitiation s
    · exact (Adds.refl s).mono (Nat.zero_le _)
  · exact (Adds.refl s).mono (Nat.zero_le _)

theorem adds_wgTimersDataSent : Adds newHandshakeWeight s (s.wgTimersDataSent hz c) := by
  unfold wgTimersDataSent
  split
  · exact (Adds.refl s).mono (Nat.zero_le _)
  · exact adds_modPeerTimer s .newHandshake _

variable {s} in
theorem wgTimersAnyAuthenticatedPacketTraversal_eq (h : s.persistentKeepaliveInterval = 0) :
    s.wgTimersAnyAuthenticatedPacketTraversal hz = s := if_neg (not_not_intro h)

variable {s} in
theorem adds_wgPacketCreateDataDone (h : s.persistentKeepaliveInterval = 0) (packets : List OutSkb) :
    Adds cryptedWeight s (s.wgPacketCreateDataDone hz c packets) := by
  have hdel := adds_delTimer s .sendKeepalive
  simp only [wgPacketCreateDataDone, wgTimersAnyAuthenticatedPacketTraversal_eq hz h,
    wgTimersAnyAuthenticatedPacketSent]
  split
  · refine ((hdel.trans (adds_wgTimersDataSent _ hz c)).trans (adds_keepKeyFresh _)).mono ?_
    rw [Nat.zero_add, cryptedWeight]
  · exact (hdel.trans (adds_keepKeyFresh _)).mono (by decide)

theorem adds_wgPacketCreateData (packets : List OutSkb) : Adds uncryptedWeight s (s.wgPacketCreateData c packets) := by
  unfold wgPacketCreateData
  split
  · exact (Adds.refl s).mono (Nat.zero_le _)
  · split
    · exact adds_enqueue s ⟨packets, .uncrypted⟩
    · exact (Adds.refl s).mono (Nat.zero_le _)
    · refine ((adds_enqueue s ⟨packets, .dead⟩).trans (adds_setTransmitPacketWork _)).mono ?_
      exact Nat.le_succ (cryptedWeight + 1)

theorem adds_stage (packets : List OutSkb) : Adds 0 s (s.stage packets) := ⟨Nat.le_refl _, rfl, Nat.le_refl _⟩

theorem adds_wgPacketPurgeStagedPackets : Adds 0 s s.wgPacketPurgeStagedPackets := ⟨Nat.le_refl _, rfl, Nat.le_refl _⟩

theorem adds_setKeypair (keypair : Option SendingKeypair) : Adds 0 s (s.setKeypair keypair) :=
  ⟨Nat.le_refl _, rfl, Nat.le_refl _⟩

theorem adds_outNokey (packets : List OutSkb) : Adds restartWeight s (s.outNokey packets) :=
  ((adds_stage s _).trans (adds_wgPacketSendQueuedHandshakeInitiation _)).mono (Nat.le_of_eq (Nat.zero_add _))

theorem adds_outInvalid (keypair : SendingKeypair) (packets : List OutSkb) :
    Adds restartWeight s (s.outInvalid keypair packets) :=
  ((adds_setKeypair s _).trans (adds_outNokey _ packets)).mono (Nat.le_of_eq (Nat.zero_add _))

theorem adds_sendPackets (packets : List OutSkb) : Adds uncryptedWeight s (s.sendPackets c packets) := by
  have hnokey := (adds_outNokey s packets).mono (show restartWeight ≤ uncryptedWeight by decide)
  have hinvalid := fun keypair => (adds_outInvalid s keypair packets).mono
    (show restartWeight ≤ uncryptedWeight by decide)
  unfold sendPackets
  split
  · exact hnokey
  · dsimp only
    split
    · exact hnokey
    · split
      · exact hinvalid _
      · split
        · refine ((adds_setKeypair s _).trans (adds_wgPacketCreateData _ c packets)).mono ?_
          exact Nat.le_of_eq (Nat.zero_add _)
        · exact hinvalid _

theorem adds_wgPacketSendStagedPackets : Adds uncryptedWeight s (s.wgPacketSendStagedPackets c) := by
  unfold wgPacketSendStagedPackets
  split
  · exact (Adds.refl s).mono (Nat.zero_le _)
  · exact ((adds_stage s []).trans (adds_sendPackets _ c _)).mono (Nat.le_of_eq (Nat.zero_add _))

theorem adds_wgPacketSendKeepalive : Adds uncryptedWeight s (s.wgPacketSendKeepalive c) := by
  unfold wgPacketSendKeepalive
  split
  · split
    · exact (Adds.refl s).mono (Nat.zero_le _)
    · exact ((adds_stage s _).trans (adds_wgPacketSendStagedPackets _ c)).mono (Nat.le_of_eq (Nat.zero_add _))
  · exact adds_wgPacketSendStagedPackets s c

variable {s} in
theorem adds_wgPacketSendHandshakeInitiation (h : s.persistentKeepaliveInterval = 0) :
    Adds (retransmitWeight + 1) s (s.wgPacketSendHandshakeInitiation hz c) := by
  have htouch : ∀ s : TimerState, Adds 0 s s.touchLastSentHandshake := fun s => ⟨Nat.le_refl _, rfl, Nat.le_refl _⟩
  have hsend : ∀ s : TimerState, Adds 1 s s.wgSocketSendBufferToPeer := fun s =>
    ⟨Nat.le_refl _, rfl, Nat.le_succ _⟩
  have h' : s.touchLastSentHandshake.persistentKeepaliveInterval = 0 := h
  unfold wgPacketSendHandshakeInitiation
  split
  · exact (Adds.refl s).mono (Nat.zero_le _)
  · split
    · rw [wgTimersAnyAuthenticatedPacketTraversal_eq hz h']
      have hsent := ((htouch s).trans (adds_delTimer _ .sendKeepalive)).trans (htouch _)
      exact ((hsent.trans (hsend _)).trans (adds_modPeerTimer _ .retransmitHandshake _)).mono (by decide)
    · exact (htouch s).mono (Nat.zero_le _)

/-! ### Steps -/

section
variable {s}

theorem account_anotherAttempt (h : s.timerHandshakeAttempts ≤ maxTimerHandshakes) :
    s.anotherAttempt.account + attemptWeight = s.account := by
  have hattempts : s.anotherAttempt.attemptsWeight + attemptWeight = s.attemptsWeight := by
    simp only [attemptsWeight, anotherAttempt]
    rw [← Nat.mul_succ, Nat.succ_eq_add_one]
    congr 1
    omega
  have hrest : s.anotherAttempt.account = s.timersWeight + s.worksWeight + s.bundlesWeight +
      s.anotherAttempt.attemptsWeight + due s.timerNeedAnotherKeepalive keepaliveWeight + s.initiations := rfl
  rw [hrest, account]
  omega

/-- The attempt pays for the work that is queued. -/
theorem adds_wgExpiredRetransmitHandshake : Adds (retransmitWeight - 1) s (s.wgExpiredRetransmitHandshake hz) := by
  unfold wgExpiredRetransmitHandshake
  split_ifs with hattempts
  · have hgiveUp := (adds_delTimer s .sendKeepalive).trans (adds_wgPacketPurgeStagedPackets _)
    dsimp only
    split
    · exact hgiveUp.mono (Nat.zero_le _)
    · exact (hgiveUp.trans (adds_modPeerTimer _ .zeroKeyMaterial _)).mono (by decide)
  · have hattempt := account_anotherAttempt (Nat.not_lt.mp hattempts)
    have hretry := adds_wgPacketSendQueuedHandshakeInitiation_retry s.anotherAttempt
    have hweights : transmitHandshakeWeight = attemptWeight + (retransmitWeight - 1) := by decide
    refine ⟨?_, hretry.later⟩
    have haccount := hretry.account
    omega

theorem account_keepaliveGranted (h : s.timerNeedAnotherKeepalive = true) :
    s.keepaliveGranted.account + keepaliveWeight = s.account := by
  have hrest : s.keepaliveGranted.account = s.timersWeight + s.worksWeight + s.bundlesWeight + s.attemptsWeight +
      due false keepaliveWeight + s.initiations := rfl
  rw [hrest, account, h, due_true, due_false]
  omega

/-- The keepalive after this one is in the account already. -/
theorem adds_wgExpiredSendKeepalive : Adds (keepaliveWeight - 1) s (s.wgExpiredSendKeepalive hz c) := by
  have hsend := adds_wgPacketSendKeepalive s c
  unfold wgExpiredSendKeepalive
  generalize s.wgPacketSendKeepalive c = t at hsend ⊢
  dsimp only
  split_ifs with hneed
  · have hgranted := account_keepaliveGranted hneed
    have hmod := adds_modPeerTimer t.keepaliveGranted .sendKeepalive (t.now.jiffies + keepaliveTimeout * hz)
    refine ⟨?_, hsend.later.trans hmod.later⟩
    have haccount := hmod.account
    have hsendAccount := hsend.account
    have hweight : PeerTimer.weight .sendKeepalive = keepaliveWeight := rfl
    have hweights : uncryptedWeight = keepaliveWeight - 1 := rfl
    omega
  · exact hsend

/-- A handler adds less than its timer weighed. -/
theorem adds_expired (h : s.persistentKeepaliveInterval = 0) (k : PeerTimer) :
    Adds (k.weight - 1) s (s.expired hz c k) := by
  rcases k with _ | _ | _ | _ | _
  case retransmitHandshake => exact adds_wgExpiredRetransmitHandshake hz
  case sendKeepalive => exact adds_wgExpiredSendKeepalive hz c
  case newHandshake => exact adds_wgPacketSendQueuedHandshakeInitiation s
  case zeroKeyMaterial =>
    simp only [expired, wgExpiredZeroKeyMaterial]
    split
    · exact (Adds.refl s).mono (Nat.zero_le _)
    · exact adds_queueWork s .clearPeer
  case persistentKeepalive =>
    simp only [expired, wgExpiredSendPersistentKeepalive, if_neg (not_not_intro h)]
    exact Adds.refl s

theorem adds_worker (h : s.persistentKeepaliveInterval = 0) (w : PeerWork) :
    Adds (w.weight - 1) s (s.worker hz c w) := by
  rcases w with _ | _
  · exact adds_wgPacketSendHandshakeInitiation hz c h
  · exact adds_setKeypair s none

theorem txQueue_modPeerTimer (k : PeerTimer) (expires : Nat) : (s.modPeerTimer k expires).txQueue = s.txQueue := by
  unfold modPeerTimer
  split <;> rfl

theorem txQueue_wgPacketSendQueuedHandshakeInitiation (isRetry : Bool) :
    (s.wgPacketSendQueuedHandshakeInitiation isRetry).txQueue = s.txQueue := by
  have hstart : (if isRetry then s else s.restartAttempts).txQueue = s.txQueue := by
    split <;> rfl
  unfold wgPacketSendQueuedHandshakeInitiation
  dsimp only
  generalize (if isRetry then s else s.restartAttempts) = t at hstart ⊢
  split
  · exact hstart
  · exact hstart

theorem txQueue_keepKeyFresh : s.keepKeyFresh.txQueue = s.txQueue := by
  unfold keepKeyFresh
  split
  · split
    · exact txQueue_wgPacketSendQueuedHandshakeInitiation false
    · rfl
  · rfl

theorem txQueue_wgPacketCreateDataDone (h : s.persistentKeepaliveInterval = 0) (packets : List OutSkb) :
    (s.wgPacketCreateDataDone hz c packets).txQueue = s.txQueue := by
  simp only [wgPacketCreateDataDone, wgTimersAnyAuthenticatedPacketTraversal_eq hz h, txQueue_keepKeyFresh]
  split
  · unfold wgTimersDataSent
    split
    · rfl
    · exact txQueue_modPeerTimer _ _
  · rfl

/-- A bundle that leaves the queue pays for what its sending sets going. -/
theorem adds_txLoop {queue : List TxBundle} (hq : s.txQueue = queue) (h : s.persistentKeepaliveInterval = 0) :
    Adds 0 s (txLoop hz c queue s) := by
  induction queue generalizing s with
  | nil => exact Adds.refl s
  | cons first rest ih =>
    have hset := account_setTxQueue s rest
    rw [bundlesWeight, hq, List.map_cons, List.sum_cons] at hset
    rcases first with ⟨packets, _ | _ | _⟩
    case uncrypted => exact Adds.refl s
    case crypted =>
      have hdone := adds_wgPacketCreateDataDone (s := s.setTxQueue rest) hz c h packets
      have hqueue := txQueue_wgPacketCreateDataDone (s := s.setTxQueue rest) hz c h packets
      have hloop := ih hqueue (hdone.later.1.trans h)
      have hweight : TxBundle.weight ⟨packets, .crypted⟩ = cryptedWeight := rfl
      have haccount := hdone.account
      have hrest := hloop.account
      refine ⟨?_, hdone.later.trans hloop.later⟩
      simp only [txLoop]
      omega
    case dead =>
      have hloop := ih (s := s.setTxQueue rest) rfl h
      have hrest := hloop.account
      refine ⟨?_, hloop.later⟩
      simp only [txLoop]
      omega

theorem falls_wgPacketEncryptWorker {i : Nat} {t : TimerState} (h : s.wgPacketEncryptWorker c i = some t) :
    t.account < s.account ∧ Later s t := by
  unfold wgPacketEncryptWorker at h
  split at h
  case h_1 packets hi =>
    cases h
    refine ⟨?_, rfl, Nat.le_refl _⟩
    generalize hb : (if c.encrypted = true
      then (⟨packets.map OutSkb.encrypted, .crypted⟩ : TxBundle) else ⟨packets, .dead⟩) =
      bundle
    have hweight : bundle.weight = cryptedWeight := by
      rw [← hb]
      split <;> rfl
    have hset := account_setTxQueue s (s.txQueue.set i bundle)
    have hwork := (adds_setTransmitPacketWork (s.setTxQueue (s.txQueue.set i bundle))).account
    have hsum := sum_map_set TxBundle.weight hi bundle
    have hold : TxBundle.weight ⟨packets, .uncrypted⟩ = cryptedWeight + 2 := rfl
    rw [bundlesWeight] at hset
    omega
  · cases h

variable {hz} in
theorem falls_run {e : PeerTask} {t : TimerState} (h0 : s.persistentKeepaliveInterval = 0) (h : s.run hz c e = some t) :
    t.account < s.account ∧ Later s t := by
  rcases e with k | w | _ | i
  case expire =>
    simp only [run] at h
    split at h
    case h_1 expires htimer =>
      split at h <;> cases h
      have hdel := account_setTimer s k none
      rw [htimer, Option.isSome_some, Option.isSome_none, due_true, due_false] at hdel
      have hadds := adds_expired (s := s.delTimer k) hz c h0 k
      have haccount := hadds.account
      have hpos : 1 ≤ k.weight := by
        rcases k <;> decide
      refine ⟨?_, hadds.later⟩
      rw [delTimer] at haccount ⊢
      omega
    · cases h
  case work =>
    obtain ⟨hw, ⟨⟩⟩ := Option.ite_none_right_eq_some.mp h
    have htake := account_setWork s w false
    rw [hw, due_true, due_false] at htake
    have hadds := adds_worker (s := s.setWork w false) hz c h0 w
    have haccount := hadds.account
    have hpos : 1 ≤ w.weight := by
      rcases w <;> decide
    refine ⟨?_, hadds.later⟩
    omega
  case transmitPacket =>
    obtain ⟨hw, ⟨⟩⟩ := Option.ite_none_right_eq_some.mp h
    have htake := account_setTransmitPacketWork s false
    rw [hw, due_true, due_false] at htake
    have hadds := adds_txLoop (s := s.setTransmitPacketWork false) hz c rfl h0
    have haccount := hadds.account
    refine ⟨?_, hadds.later⟩
    rw [wgPacketTxWorker]
    omega
  case encrypt => exact falls_wgPacketEncryptWorker c h

end

variable {s} in
theorem falls_step {e : Execution} {t : TimerState} (h0 : s.persistentKeepaliveInterval = 0)
    (h : s.step hz e = some t) :
    t.account < s.account ∧ Later s t := by
  unfold step at h
  split at h
  · exact falls_run (s := s.setNow e.now) e.chance h0 h
  · cases h

/-! ### Runs -/

theorem ranked_step (first : TimerState) :
    Ranked (step hz) (fun s => s.persistentKeepaliveInterval = 0 ∧ first.initiations ≤ s.initiations) account :=
  ⟨fun h hs => ⟨(falls_step hz h.1 hs).2.1.trans h.1, Nat.le_trans h.2 (falls_step hz h.1 hs).2.2⟩,
    fun h hs => (falls_step hz h.1 hs).1⟩

/-- The account of a peer for which everything is due. It bounds the length of a run and the
initiations that are sent in it. -/
def runBound (s : TimerState) : Nat :=
  (PeerTimer.all.map PeerTimer.weight).sum + (transmitHandshakeWeight + 1 + 1) + uncryptedWeight * s.txQueue.length +
    attemptWeight * (maxTimerHandshakes + 1) + keepaliveWeight

example : s.runBound = 389 + 127 * s.txQueue.length := by
  have huncrypted : uncryptedWeight = 127 := by decide
  have hweights : (PeerTimer.all.map PeerTimer.weight).sum + (transmitHandshakeWeight + 1 + 1) +
      attemptWeight * (maxTimerHandshakes + 1) + keepaliveWeight = 389 := by decide
  rw [runBound, huncrypted]
  omega

theorem timersWeight_le : s.timersWeight ≤ (PeerTimer.all.map PeerTimer.weight).sum :=
  List.sum_le_sum fun _ _ => due_le _ _

theorem bundlesWeight_le : s.bundlesWeight ≤ uncryptedWeight * s.txQueue.length := by
  have hle : ∀ w ∈ s.txQueue.map TxBundle.weight, w ≤ uncryptedWeight := by
    intro w hw
    obtain ⟨bundle, _, rfl⟩ := List.mem_map.mp hw
    unfold TxBundle.weight
    split
    · exact Nat.le_refl _
    · exact Nat.le_add_right _ _
  have hsum := List.sum_le_card_nsmul _ _ hle
  rwa [List.length_map, Nat.nsmul_eq_mul, Nat.mul_comm] at hsum

theorem account_le : s.account ≤ s.initiations + s.runBound := by
  have htimers := timersWeight_le s
  have hbundles := bundlesWeight_le s
  have htransmit := due_le (s.work .transmitHandshake) transmitHandshakeWeight
  have hclear := due_le (s.work .clearPeer) 1
  have hpacket := due_le s.transmitPacketWork 1
  have hattempts : s.attemptsWeight ≤ attemptWeight * (maxTimerHandshakes + 1) := Nat.mul_le_mul_left _ (Nat.sub_le _ _)
  have hneed := due_le s.timerNeedAnotherKeepalive keepaliveWeight
  rw [account, worksWeight, runBound]
  omega

/-- Nothing is pending. -/
structure AtRest (s : TimerState) : Prop where
  timer : ∀ k, s.timer k = none
  work : ∀ w, s.work w = false
  transmitPacket : s.transmitPacketWork = false
  encrypt : ∀ bundle ∈ s.txQueue, bundle.state ≠ .uncrypted

section
variable {s}

/-- A pending timer expires when the clock has come to it. -/
theorem step_expire {k : PeerTimer} {expires : Nat} (h : s.timer k = some expires) :
    (s.step hz ⟨.expire k, ⟨max s.now.jiffies expires, s.now.boottime⟩, c⟩).isSome = true := by
  have hclock : s.now.jiffies ≤ max s.now.jiffies expires ∧ s.now.boottime ≤ s.now.boottime :=
    ⟨Nat.le_max_left _ _, BitVec.le_refl _⟩
  have htimer : (s.setNow ⟨max s.now.jiffies expires, s.now.boottime⟩).timer k = some expires := h
  have hdue : expires ≤ (s.setNow ⟨max s.now.jiffies expires, s.now.boottime⟩).now.jiffies := Nat.le_max_right _ _
  simp only [step, if_pos hclock, run, htimer, if_pos hdue, Option.isSome_some]

theorem atRest_of_last (h : ∀ e, s.step hz e = none) : s.AtRest := by
  let c : Chance := ⟨0, none, .done, false, false, fun _ => false⟩
  have hstep : ∀ task, s.run hz c task = none := by
    intro task
    have hlast := h ⟨task, s.now, c⟩
    rwa [step, if_pos ⟨Nat.le_refl _, BitVec.le_refl _⟩] at hlast
  refine ⟨fun k => ?_, fun w => ?_, ?_, fun bundle hmem hstate => ?_⟩
  · rcases htimer : s.timer k with _ | expires
    · rfl
    · have hsome := step_expire hz c htimer
      rw [h] at hsome
      cases hsome
  · have hwork := hstep (.work w)
    simp only [run] at hwork
    split at hwork
    · cases hwork
    case isFalse hw =>
      exact Bool.eq_false_iff.mpr hw
  · have hwork := hstep .transmitPacket
    simp only [run] at hwork
    split at hwork
    · cases hwork
    case isFalse hw =>
      exact Bool.eq_false_iff.mpr hw
  · obtain ⟨i, hi⟩ := List.mem_iff_getElem?.mp hmem
    have hencrypt := hstep (.encrypt i)
    rcases bundle with ⟨packets, state⟩
    simp only at hstate
    subst hstate
    simp only [run, wgPacketEncryptWorker, hi] at hencrypt
    cases hencrypt

end

/-- From any state without a persistent keepalive, the expiries and the works of a peer that is left
alone come to an end. -/
theorem timers_run_down (first : TimerState) (h : first.persistentKeepaliveInterval = 0) :
    (∀ (run : Nat → TimerState) (es : Nat → Execution), run 0 = first →
      ¬ ∀ n, (run n).step hz (es n) = some (run (n + 1))) ∧
    ∀ (es : List Execution) (t : TimerState), es.foldlM (step hz) first = some t →
      es.length ≤ first.runBound ∧ t.initiations ≤ first.initiations + first.runBound ∧
      ((∀ e, t.step hz e = none) → t.AtRest) ∧
      ∃ (es' : List Execution) (u : TimerState), es'.foldlM (step hz) t = some u ∧ ∀ e, u.step hz e = none := by
  have hranked := ranked_step hz first
  refine ⟨fun run es hfirst => ?_, fun es t hrun => ?_⟩
  · subst hfirst
    exact hranked.not_endless ⟨h, Nat.le_refl _⟩
  · obtain ⟨ht, hlength⟩ := hranked.length_add_rank_le ⟨h, Nat.le_refl _⟩ hrun
    have hle := account_le first
    have hsent : t.initiations ≤ t.account := Nat.le_add_left _ _
    exact ⟨by omega, by omega, atRest_of_last hz, hranked.exists_last ht⟩

/-- A keepalive is due and there is no key. -/
def unanswered : TimerState :=
  ⟨⟨6000, 60000000000⟩, true, false, 1420, 0, fun k => if k = .sendKeepalive then some 6000
    else none, 0, false, 0, none, [], [],
    fun _ => false, false, 0⟩

/-- The task, `i` times six seconds after the start of the system. -/
def atTick (i : Nat) (task : PeerTask) : Execution :=
  ⟨task, ⟨600 * i, BitVec.ofNat 64 (6000000000 * i)⟩, ⟨0, some 1, .done, true, true, fun _ => true⟩⟩

/-- The first initiation and 19 retransmissions, none of which is answered. -/
def unansweredRun : List Execution :=
  [atTick 10 (.expire .sendKeepalive), atTick 10 (.work .transmitHandshake)] ++
    ((List.range 19).flatMap fun i =>
      [atTick (11 + i) (.expire .retransmitHandshake), atTick (11 + i) (.work .transmitHandshake)]) ++
    [atTick 30 (.expire .retransmitHandshake), atTick 121 (.expire .zeroKeyMaterial), atTick 121 (.work .clearPeer)]

theorem timers_run_down_unanswered :
    unanswered.persistentKeepaliveInterval = 0 ∧ ∃ t, unansweredRun.foldlM (step 100) unanswered = some t ∧
      t.initiations = 20 ∧ (PeerTimer.all.map t.timer).all Option.isNone = true ∧
        unansweredRun.length ≤ unanswered.runBound ∧
      ∃ (es : List Execution) (u : TimerState), es.foldlM (step 100) t = some u ∧ ∀ e, u.step 100 e = none := by
  have hrun : (unansweredRun.foldlM (step 100) unanswered).map
      (fun t => (t.initiations, (PeerTimer.all.map t.timer).all Option.isNone)) = some (20, true) := by
    decide +kernel
  obtain ⟨t, ht, hlast⟩ := Option.map_eq_some_iff.mp hrun
  rw [Prod.mk.injEq] at hlast
  obtain ⟨hlength, _, _, hend⟩ := (timers_run_down 100 unanswered rfl).2 unansweredRun t ht
  exact ⟨rfl, t, ht, hlast.1, hlast.2, hlength, hend⟩

end TimerState
end WireguardAes
