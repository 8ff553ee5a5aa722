import WireguardAes.Keypairs
import WireguardAes.Lib.GracePeriod
import WireguardAes.Lib.WorkQueue

/-!
# The removal of a peer (`peer.c`, `timers.c`, `noise.c`, `send.c`)

`wg_peer_remove` marks the peer dead, waits for a grace period and then clears the keypairs, stops
the timers and flushes the works of the peer. Every hand-over to a keypair slot, a timer or a work
looks at `is_dead` inside a read section: `begin_session`, `mod_peer_timer`,
`wg_packet_send_queued_handshake_initiation` and `wg_expired_zero_key_material`. Any context may be
in such a section at any time, so nothing is said here about which contexts there are: handshake
workers, timer handlers, `wg_xmit` and the receiving side. `wg_peer_remove_all` does the same to
each peer, with one grace period after all of them are marked.
-/

namespace WireguardAes

open Function Runs

/-- In the order of `wg_timers_stop`. -/
inductive PeerTimer where
  | retransmitHandshake
  | sendKeepalive
  | newHandshake
  | zeroKeyMaterial
  | persistentKeepalive
  deriving DecidableEq

def PeerTimer.all : List PeerTimer :=
  [.retransmitHandshake, .sendKeepalive, .newHandshake, .zeroKeyMaterial, .persistentKeepalive]

/-- The works of a peer on `handshake_send_wq`. -/
inductive PeerWork where
  | transmitHandshake
  | clearPeer
  deriving DecidableEq

/-- What a read section is for. -/
inductive HandOver where
  | addNewKeypair (k : Nat) (iAmTheInitiator : Bool)
  | modTimer (t : PeerTimer)
  | queueWork (w : PeerWork)
  deriving DecidableEq

structure HandOverCall where
  handOver : HandOver
  /-- `is_dead` was not set, and the interface was running if that is asked. -/
  passed : Bool
  deriving DecidableEq

/-- How far `wg_peer_remove` is. -/
inductive Removal where
  | none
  | dead
  /-- `synchronize_net` waits for the sections that had begun. -/
  | synchronizing (mark : Nat)
  | synchronized
  /-- `wg_timers_stop`, with the timers that are still to be deleted; the keypairs are cleared. -/
  | stoppingTimers (left : List PeerTimer)
  /-- `flush_work`. -/
  | flushingClear (mark : Nat)
  | timersStopped
  /-- `flush_workqueue` of `handshake_send_wq`. -/
  | flushingSend (transmitHandshake clearPeer : Nat)
  | returned
  deriving DecidableEq

structure PeerTeardown where
  isDead : Bool
  sections : ReadSections HandOverCall
  slots : NoiseKeypairs Nat
  pending : PeerTimer → Bool
  /-- The handler of the timer is running. -/
  handler : PeerTimer → Bool
  work : PeerWork → WorkItem
  removal : Removal

inductive TeardownEvent where
  | enter (handOver : HandOver)
  /-- The tests of a section, with `netif_running`. -/
  | check (i : Nat) (netifRunning : Bool)
  | handOver (i : Nat)
  | leave (i : Nat)
  | receivedWithKeypair (k : Nat)
  /-- From `wg_stop` or `clear_peer_work`. -/
  | keypairsClear
  | expire (t : PeerTimer)
  | handlerReturn (t : PeerTimer)
  | delTimer (t : PeerTimer)
  | workStart (w : PeerWork)
  | workFinish (w : PeerWork)
  | makeDead
  | synchronizeNet
  | synchronized
  | removeKeypairs
  | delTimerSync
  | flushWork
  | flushedWork
  | flushWorkqueue
  | flushedWorkqueue
  deriving DecidableEq

namespace PeerTeardown

def init : PeerTeardown where
  isDead := false
  sections := .empty
  slots := ⟨none, none, none⟩
  pending _ := false
  handler _ := false
  work _ := .idle
  removal := .none

/-- The tests of the four kinds of section; only `mod_peer_timer` asks for the interface. -/
def mayHandOver (s : PeerTeardown) (netifRunning : Bool) : HandOver → Bool
  | .modTimer _ => netifRunning && !s.isDead
  | _ => !s.isDead

def doHandOver (s : PeerTeardown) : HandOver → PeerTeardown
  | .addNewKeypair k iAmTheInitiator => { s with slots := (s.slots.addNewKeypair k iAmTheInitiator).1 }
  | .modTimer t => { s with pending := update s.pending t true }
  | .queueWork w => { s with work := update s.work w (s.work w).queue }

def step (s : PeerTeardown) : TeardownEvent → Option PeerTeardown
  | .enter handOver => some { s with sections := s.sections.enter ⟨handOver, false⟩ }
  | .check i netifRunning =>
    some { s with sections := s.sections.modify i fun x => ⟨x.handOver, s.mayHandOver netifRunning x.handOver⟩ }
  | .handOver i =>
    match s.sections.active[i]? with
    | some (_, ⟨handOver, true⟩) => some { s.doHandOver handOver with sections := s.sections.leave i }
    | _ => none
  | .leave i => some { s with sections := s.sections.leave i }
  | .receivedWithKeypair k => some { s with slots := (s.slots.receivedWithKeypair k).1 }
  | .keypairsClear => some { s with slots := s.slots.keypairsClear.1 }
  | .expire t =>
    if s.pending t ∧ s.handler t = false then
      some { s with pending := update s.pending t false, handler := update s.handler t true }
    else none
  | .handlerReturn t => some { s with handler := update s.handler t false }
  | .delTimer t => some { s with pending := update s.pending t false }
  | .workStart w => (s.work w).start.map fun w' => { s with work := update s.work w w' }
  | .workFinish w => (s.work w).finish.map fun w' => { s with work := update s.work w w' }
  | .makeDead => if s.removal = .none then some { s with isDead := true, removal := .dead } else none
  | .synchronizeNet =>
    if s.removal = .dead then some { s with removal := .synchronizing s.sections.began } else none
  | .synchronized =>
    match s.removal with
    | .synchronizing mark => if s.sections.GraceOver mark then some { s with removal := .synchronized } else none
    | _ => none
  | .removeKeypairs =>
    if s.removal = .synchronized then
      some { s with slots := s.slots.keypairsClear.1, removal := .stoppingTimers PeerTimer.all }
    else none
  | .delTimerSync =>
    match s.removal with
    | .stoppingTimers (t :: left) =>
      if s.handler t = false then
        some { s with pending := update s.pending t false, removal := .stoppingTimers left }
      else none
    | _ => none
  | .flushWork =>
    if s.removal = .stoppingTimers [] then some { s with removal := .flushingClear (s.work .clearPeer).gen } else none
  | .flushedWork =>
    match s.removal with
    | .flushingClear mark => if (s.work .clearPeer).Flushed mark then
      some { s with removal := .timersStopped } else none
    | _ => none
  | .flushWorkqueue =>
    if s.removal = .timersStopped then
      some { s with removal := .flushingSend (s.work .transmitHandshake).gen (s.work .clearPeer).gen }
    else none
  | .flushedWorkqueue =>
    match s.removal with
    | .flushingSend m m' =>
      if (s.work .transmitHandshake).Flushed m ∧ (s.work .clearPeer).Flushed m' then some
        { s with removal := .returned }
      else none
    | _ => none

/-- The keypair slots are empty, no timer is pending and no work is queued. -/
def Gone (s : PeerTeardown) : Prop :=
  s.slots.toList = [] ∧ (∀ t, s.pending t = false) ∧ ∀ w, (s.work w).queued = false

/-- No section with a number from `m` on has passed its test. -/
def NonePassed (s : PeerTeardown) (m : Nat) : Prop := ∀ x ∈ s.sections.active, m ≤ x.1 → x.2.passed = false

/-- There is no hand-over any more, and the keypairs and the timers are gone. -/
structure Stopped (s : PeerTeardown) : Prop where
  passed : s.NonePassed 0
  slots : s.slots.toList = []
  pending : ∀ t, s.pending t = false

/-- What the removal has reached. The sections that begin after the peer is marked find it dead, so
no section is left that has passed its test when the grace period is over. -/
def Reached (s : PeerTeardown) : Removal → Prop
  | .none => True
  | .dead => s.isDead = true
  | .synchronizing mark => s.isDead = true ∧ s.NonePassed mark
  | .synchronized => s.isDead = true ∧ s.NonePassed 0
  | .stoppingTimers left =>
    s.isDead = true ∧ s.NonePassed 0 ∧ s.slots.toList = [] ∧ ∀ t, t ∉ left → s.pending t = false
  | .flushingClear mark => s.isDead = true ∧ s.Stopped ∧ (s.work .clearPeer).gen ≤ mark
  | .timersStopped => s.isDead = true ∧ s.Stopped ∧ (s.work .clearPeer).queued = false
  | .flushingSend mark _ =>
    s.isDead = true ∧ s.Stopped ∧ (s.work .clearPeer).queued = false ∧ (s.work .transmitHandshake).gen ≤ mark
  | .returned => s.isDead = true ∧ s.Stopped ∧ ∀ w, (s.work w).queued = false

def Inv (s : PeerTeardown) : Prop := s.Reached s.removal

variable {s t : PeerTeardown} {e : TeardownEvent}

/-- `t` comes from `s` by a step that hands nothing over and does not take the removal further. -/
structure Keeps (s t : PeerTeardown) : Prop where
  removal : t.removal = s.removal
  isDead : t.isDead = s.isDead
  passed : ∀ m, s.isDead = true → s.NonePassed m → t.NonePassed m
  slots : s.slots.toList = [] → t.slots.toList = []
  pending : ∀ x, s.pending x = false → t.pending x = false
  gen : ∀ w, (t.work w).gen = (s.work w).gen
  queued : ∀ w, (s.work w).queued = false → (t.work w).queued = false

theorem Stopped.set_removal (h : Stopped s) (r : Removal) : Stopped { s with removal := r } :=
  ⟨h.passed, h.slots, h.pending⟩

theorem Stopped.keep (hs : Stopped s) (hd : s.isDead = true) (h : Keeps s t) : Stopped t :=
  ⟨h.passed 0 hd hs.passed, h.slots hs.slots, fun x => h.pending x (hs.pending x)⟩

theorem Inv.keep (hi : Inv s) (h : Keeps s t) : Inv t := by
  unfold Inv at hi ⊢
  rw [h.removal]
  cases hr : s.removal <;> rw [hr] at hi <;> simp only [Reached, h.isDead, h.gen] at hi ⊢
  case dead => exact hi
  case synchronizing m => exact ⟨hi.1, h.passed m hi.1 hi.2⟩
  case synchronized => exact ⟨hi.1, h.passed 0 hi.1 hi.2⟩
  case stoppingTimers left =>
    obtain ⟨hd, hp, hl, ht⟩ := hi
    exact ⟨hd, h.passed 0 hd hp, h.slots hl, fun x hx => h.pending x (ht x hx)⟩
  case flushingClear m => exact ⟨hi.1, hi.2.1.keep hi.1 h, hi.2.2⟩
  case timersStopped => exact ⟨hi.1, hi.2.1.keep hi.1 h, h.queued _ hi.2.2⟩
  case flushingSend m m' => exact ⟨hi.1, hi.2.1.keep hi.1 h, h.queued _ hi.2.2.1, hi.2.2.2⟩
  case returned => exact ⟨hi.1, hi.2.1.keep hi.1 h, fun w => h.queued w (hi.2.2 w)⟩

theorem Keeps.work {w : PeerWork} {w' : WorkItem} (hg : w'.gen = (s.work w).gen)
    (hq : (s.work w).queued = false → w'.queued = false) :
    Keeps s { s with work := update s.work w w' } := by
  refine ⟨rfl, rfl, fun _ _ => id, id, fun _ => id, fun x => ?_, fun x => ?_⟩
  · simp only [update_apply]
    split_ifs with hx
    · rw [hx, hg]
    · rfl
  · simp only [update_apply]
    split_ifs with hx
    · rw [hx]
      exact hq
    · exact id

theorem Keeps.delTimer {x : PeerTimer} {handler : PeerTimer → Bool} :
    Keeps s { s with pending := update s.pending x false, handler := handler } := by
  refine ⟨rfl, rfl, fun _ _ => id, id, fun y hy => ?_, fun _ => rfl, fun _ => id⟩
  simp only [update_apply]
  split
  · rfl
  · exact hy

/-- A section that has passed its test is one that the grace period waits for. -/
theorem Inv.handOver (h : Inv s) {i n : Nat} {handOver : HandOver}
    (hi : s.sections.active[i]? = some (n, ⟨handOver, true⟩)) :
    Inv { s.doHandOver handOver with sections := s.sections.leave i } := by
  have hnone : ¬ s.NonePassed 0 := fun hp => by cases hp _ (List.mem_of_getElem? hi) (Nat.zero_le _)
  have hremoval : (s.doHandOver handOver).removal = s.removal := by cases handOver <;> rfl
  have hdead : (s.doHandOver handOver).isDead = s.isDead := by cases handOver <;> rfl
  unfold Inv at h ⊢
  simp only [hremoval]
  cases hr : s.removal <;> rw [hr] at h <;> simp only [Reached, hdead] at h ⊢
  case dead => exact h
  case synchronizing m => exact ⟨h.1, ReadSections.forall_leave h.2 i⟩
  case synchronized => exact absurd h.2 hnone
  case stoppingTimers => exact absurd h.2.1 hnone
  all_goals exact absurd h.2.1.passed hnone

theorem Inv.step (h : Inv s) (hs : s.step e = some t) : Inv t := by
  cases e with
  | enter handOver =>
    cases hs
    refine h.keep ⟨rfl, rfl, fun m _ hn => ?_, id, fun _ => id, fun _ => rfl, fun _ => id⟩
    exact ReadSections.forall_enter hn fun _ => rfl
  | check i netifRunning =>
    cases hs
    refine h.keep ⟨rfl, rfl, fun m hd hn => ?_, id, fun _ => id, fun _ => rfl, fun _ => id⟩
    refine ReadSections.forall_modify hn i fun x _ _ => ?_
    cases hx : x.2.handOver <;> simp only [mayHandOver, hd, Bool.not_true, Bool.and_false]
  | handOver i =>
    dsimp only [PeerTeardown.step] at hs
    split at hs
    case h_1 hi =>
      cases hs
      exact h.handOver hi
    · cases hs
  | leave i =>
    cases hs
    exact h.keep ⟨rfl, rfl, fun _ _ hn => ReadSections.forall_leave hn i, id, fun _ => id, fun _ => rfl, fun _ => id⟩
  | receivedWithKeypair k =>
    cases hs
    exact h.keep ⟨rfl, rfl, fun _ _ => id, NoiseKeypairs.toList_receivedWithKeypair k, fun _ => id, fun _ => rfl,
      fun _ => id⟩
  | keypairsClear =>
    cases hs
    exact h.keep ⟨rfl, rfl, fun _ _ => id, fun _ => rfl, fun _ => id, fun _ => rfl, fun _ => id⟩
  | expire x =>
    dsimp only [PeerTeardown.step] at hs
    split at hs <;> cases hs
    exact h.keep .delTimer
  | handlerReturn x =>
    cases hs
    exact h.keep ⟨rfl, rfl, fun _ _ => id, id, fun _ => id, fun _ => rfl, fun _ => id⟩
  | delTimer x =>
    cases hs
    exact h.keep .delTimer
  | workStart w =>
    obtain ⟨w', hw, rfl⟩ := Option.map_eq_some_iff.mp hs
    exact h.keep (.work (WorkItem.gen_start hw) fun _ => WorkItem.queued_start hw)
  | workFinish w =>
    obtain ⟨w', hw, rfl⟩ := Option.map_eq_some_iff.mp hs
    exact h.keep (.work (WorkItem.gen_finish hw) fun hq => (WorkItem.queued_finish hw).trans hq)
  | makeDead =>
    dsimp only [PeerTeardown.step] at hs
    split at hs <;> cases hs
    rfl
  | synchronizeNet =>
    obtain ⟨hr, ⟨⟩⟩ := Option.ite_none_right_eq_some.mp hs
    rw [Inv, hr] at h
    exact ⟨h, fun x hx hle => absurd (s.sections.lt_began x hx) (Nat.not_lt.mpr hle)⟩
  | synchronized =>
    dsimp only [PeerTeardown.step] at hs
    split at hs
    case h_1 mark hr =>
      obtain ⟨hover, ⟨⟩⟩ := Option.ite_none_right_eq_some.mp hs
      rw [Inv, hr] at h
      exact ⟨h.1, fun x hx _ => h.2 x hx (hover x hx)⟩
    · cases hs
  | removeKeypairs =>
    obtain ⟨hr, ⟨⟩⟩ := Option.ite_none_right_eq_some.mp hs
    rw [Inv, hr] at h
    refine ⟨h.1, h.2, rfl, fun x hx => absurd ?_ hx⟩
    cases x <;> decide
  | delTimerSync =>
    dsimp only [PeerTeardown.step] at hs
    split at hs
    case h_1 x left hr =>
      split at hs <;> cases hs
      rw [Inv, hr] at h
      obtain ⟨hd, hp, hl, ht⟩ := h
      refine ⟨hd, hp, hl, fun y hy => ?_⟩
      simp only [update_apply]
      split_ifs with hne
      · rfl
      · exact ht y (List.not_mem_cons_of_ne_of_not_mem hne hy)
    · cases hs
  | flushWork =>
    obtain ⟨hr, ⟨⟩⟩ := Option.ite_none_right_eq_some.mp hs
    rw [Inv, hr] at h
    obtain ⟨hd, hp, hl, ht⟩ := h
    exact ⟨hd, ⟨hp, hl, fun x => ht x List.not_mem_nil⟩, Nat.le_refl _⟩
  | flushedWork =>
    dsimp only [PeerTeardown.step] at hs
    split at hs
    case h_1 mark hr =>
      obtain ⟨hf, ⟨⟩⟩ := Option.ite_none_right_eq_some.mp hs
      rw [Inv, hr] at h
      obtain ⟨hd, hstopped, hg⟩ := h
      exact ⟨hd, hstopped.set_removal _, (WorkItem.idle_of_flushed hg hf).1⟩
    · cases hs
  | flushWorkqueue =>
    obtain ⟨hr, ⟨⟩⟩ := Option.ite_none_right_eq_some.mp hs
    rw [Inv, hr] at h
    obtain ⟨hd, hstopped, hq⟩ := h
    exact ⟨hd, hstopped.set_removal _, hq, Nat.le_refl _⟩
  | flushedWorkqueue =>
    dsimp only [PeerTeardown.step] at hs
    split at hs
    case h_1 mark mark' hr =>
      obtain ⟨hf, ⟨⟩⟩ := Option.ite_none_right_eq_some.mp hs
      rw [Inv, hr] at h
      obtain ⟨hd, hstopped, hq, hg⟩ := h
      refine ⟨hd, hstopped.set_removal _, fun w => ?_⟩
      cases w with
      | transmitHandshake => exact (WorkItem.idle_of_flushed hg hf.1).1
      | clearPeer => exact hq
    · cases hs

theorem removal_of_returned (h : s.removal = .returned) (hs : s.step e = some t) : t.removal = .returned := by
  cases e with
  | handOver i =>
    dsimp only [step] at hs
    split at hs
    case h_1 handOver _ =>
      cases hs
      cases handOver <;> exact h
    case h_2 => cases hs
  | expire x =>
    dsimp only [step] at hs
    split at hs <;> cases hs
    exact h
  | workStart w =>
    obtain ⟨w', -, rfl⟩ := Option.map_eq_some_iff.mp hs
    exact h
  | workFinish w =>
    obtain ⟨w', -, rfl⟩ := Option.map_eq_some_iff.mp hs
    exact h
  | _ =>
    first
      | cases hs; exact h
      | simp only [step, h, reduceCtorEq, if_false] at hs

/-- After `wg_peer_remove` has returned, the keypair slots are empty, no timer is pending and no
work is queued, whatever the other contexts do from then on. -/
theorem removed_peer_stays_gone (h : Exec step (fun _ _ => True) init s) (hr : s.removal = .returned)
    (ht : Exec step (fun _ _ => True) s t) : Gone t := by
  have hinv : Inv t := (h.trans ht).inv trivial fun _ _ _ _ hi hs => hi.step hs
  have hret : t.removal = .returned := ht.inv hr fun _ _ _ _ => removal_of_returned
  rw [Inv, hret] at hinv
  exact ⟨hinv.2.1.slots, hinv.2.1.pending, hinv.2.2⟩

/-- A keypair is added and a timer is armed while `synchronize_net` waits; a section that begins
after that hands nothing over. -/
theorem removed_peer_stays_gone_late : ∃ s, Exec step (fun _ _ => True) init s ∧ s.removal = .returned ∧ Gone s := by
  have hrun : ∃ s, Exec step (fun _ _ => True) init s ∧ s.removal = .returned :=
    Exec.exists_of_foldlM [.enter (.addNewKeypair 0 true), .enter (.modTimer .zeroKeyMaterial), .check 0 true,
      .check 1 true, .makeDead, .synchronizeNet, .handOver 0, .handOver 0, .enter (.queueWork .transmitHandshake),
      .check 0 true, .synchronized, .removeKeypairs, .delTimerSync, .delTimerSync, .delTimerSync, .delTimerSync,
      .delTimerSync, .flushWork, .flushedWork, .flushWorkqueue, .flushedWorkqueue] PeerTeardown.removal
      (by decide +kernel)
  obtain ⟨s, hs, hr⟩ := hrun
  exact ⟨s, hs, hr, removed_peer_stays_gone hs hr (.refl s)⟩

end PeerTeardown
end WireguardAes
