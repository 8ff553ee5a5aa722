import WireguardAes.PipelineService
import Mathlib.Data.Fintype.Basic

/-!
# Flushing the pipeline of a dead peer (`peer.c`)

`wg_peer_remove` marks the peer dead and waits for the read sections; `peer_remove_after_dead` then
flushes `packet_crypt_wq` twice, once for the crypt workers and once for the serial context of the
sending side, and disables NAPI. A flush waits for the runs of the work items that were queued
before its call.

The two flushes are one generation each only as long as the workers that take the bundles that the
peer sends during the first are ones that it waits for: a worker that was queued later, for a packet
of another peer, may take one. A received bundle may be taken by such a worker, since its serial
context is not a work item: the second flush waits for the worker, and `napi_disable` for the poll.
`napi_disable` moreover cuts off a poll that has used its budget.
-/

namespace WireguardAes

open Function Runs PacketPipeline

namespace PacketPipeline
variable {Peer Cpu : Type}

/-- The peer of a call that has found `is_dead` not set and is still in its read section. -/
def Call.passed : Call Peer → Option Peer
  | .enqueue b | .reserved b | .unlinked b | .queued b => some b.peer
  | .produced _ p => some p
  | .handoff (.get b _) | .handoff (.set b _ _) => some b.peer
  | .handoff (.kick _ p _) | .handoff (.put p _) => some p
  | .idle | .stolen _ _ | .keyed _ _ _ _ | .outNokey _ _ | .looked _ _ _ | .create _ | .cleanup _ => none

/-- `flush_workqueue` has nothing left to wait for. -/
def AllFlushed (s : PacketPipeline Peer Cpu) (mark : Item Peer Cpu → Nat) : Prop := ∀ i, (s.item i).Flushed (mark i)

instance [Fintype Peer] [Fintype Cpu] (s : PacketPipeline Peer Cpu) (mark : Item Peer Cpu → Nat) :
    Decidable (s.AllFlushed mark) :=
  decidable_of_iff ((∀ cpu, (s.item (.crypt .tx cpu)).Flushed (mark (.crypt .tx cpu))) ∧
      (∀ cpu, (s.item (.crypt .rx cpu)).Flushed (mark (.crypt .rx cpu))) ∧
      ∀ p, (s.item (.transmit p)).Flushed (mark (.transmit p))) (by
    refine ⟨?_, fun h => ⟨fun cpu => h _, fun cpu => h _, fun p => h _⟩⟩
    rintro ⟨htx, hrx, hp⟩ (⟨_ | _, cpu⟩ | p)
    exacts [htx cpu, hrx cpu, hp p])

end PacketPipeline

/-- How far the removal of the peer is. -/
inductive DrainStage (Peer Cpu : Type) where
  | alive
  | dead
  /-- `synchronize_net`, with the calls that it waits for. -/
  | synchronizing (waiting : List Nat)
  | synchronized
  | firstFlush (mark : Item Peer Cpu → Nat)
  | firstFlushed
  | secondFlush (mark : Item Peer Cpu → Nat)
  | secondFlushed
  /-- `napi_disable` waits for `NAPI_STATE_SCHED`. -/
  | disabling
  | drained

namespace DrainStage
variable {Peer Cpu : Type}

/-- A first flush that is under way waits for the run `n` of the item. -/
def waitsFor : DrainStage Peer Cpu → Item Peer Cpu → Nat → Bool
  | .firstFlush mark, i, n => n ≤ mark i
  | _, _, _ => true

def isDisabling : DrainStage Peer Cpu → Bool
  | .disabling => true
  | _ => false

def isDrained : DrainStage Peer Cpu → Bool
  | .drained => true
  | _ => false

end DrainStage

structure PeerDrain (Peer Cpu : Type) where
  pipeline : PacketPipeline Peer Cpu
  stage : DrainStage Peer Cpu

inductive DrainEvent (Peer Cpu : Type) where
  | pipeline (e : PacketPipeline.Event Peer Cpu)
  | makeDead
  | synchronizeNet
  | synchronized
  | flushWorkqueue
  | flushedWorkqueue
  | napiDisable
  | napiDisabled

namespace PeerDrain

variable {Peer Cpu : Type}

def init : PeerDrain Peer Cpu := ⟨.init, .alive⟩

section
variable [DecidableEq Peer] [DecidableEq Cpu]
  [∀ (s : PacketPipeline Peer Cpu) (mark : Item Peer Cpu → Nat), Decidable (s.AllFlushed mark)]

/-- The events of the pipeline and of the removal of `p`. -/
def step (p : Peer) (s : PeerDrain Peer Cpu) : DrainEvent Peer Cpu → Option (PeerDrain Peer Cpu)
  | .pipeline e => (s.pipeline.step e).map (⟨·, s.stage⟩)
  | .makeDead =>
    match s.stage with
    | .alive => some ⟨s.pipeline.setDead p, .dead⟩
    | _ => none
  | .synchronizeNet =>
    match s.stage with
    | .dead =>
      some { s with stage := .synchronizing ((List.range s.pipeline.nextCall).filter fun c =>
        (s.pipeline.calls c).passed.isSome) }
    | _ => none
  | .synchronized =>
    match s.stage with
    | .synchronizing waiting =>
      if ∀ c ∈ waiting, (s.pipeline.calls c).passed = none then some { s with stage := .synchronized } else none
    | _ => none
  | .flushWorkqueue =>
    match s.stage with
    | .synchronized => some { s with stage := .firstFlush fun i => (s.pipeline.item i).gen }
    | .firstFlushed => some { s with stage := .secondFlush fun i => (s.pipeline.item i).gen }
    | _ => none
  | .flushedWorkqueue =>
    match s.stage with
    | .firstFlush mark => if s.pipeline.AllFlushed mark then some { s with stage := .firstFlushed } else none
    | .secondFlush mark => if s.pipeline.AllFlushed mark then some { s with stage := .secondFlushed } else none
    | _ => none
  | .napiDisable =>
    match s.stage with
    | .secondFlushed =>
      some ⟨s.pipeline.setNapi p { s.pipeline.napi p with disable := true }, .disabling⟩
    | _ => none
  | .napiDisabled =>
    match s.stage with
    | .disabling =>
      if (s.pipeline.napi p).sched = false then
        some ⟨s.pipeline.setNapi p { s.pipeline.napi p with disable := false, off := true }, .drained⟩
      else none
    | _ => none

end

/-- While the first flush waits, the bundles that `p` sends are taken from the ring by workers that
it waits for; and while `napi_disable` waits, no poll of `p` uses its whole budget. -/
def twoGenerations [DecidableEq Peer] (p : Peer) (s : PeerDrain Peer Cpu) : DrainEvent Peer Cpu → Bool
  | .pipeline (.consume d cpu _) => (s.pipeline.ring d).entries.head?.all fun b =>
      b.dir ≠ .tx || b.peer ≠ p || s.stage.waitsFor (.crypt d cpu) (s.pipeline.item (.crypt d cpu)).current
  | .pipeline (.spend q) => !s.stage.isDisabling || q ≠ p
  | _ => true

/-- Nothing of `p` is left. -/
structure Drained (s : PacketPipeline Peer Cpu) (p : Peer) : Prop where
  ring : ∀ d, ∀ b ∈ (s.ring d).entries, b.peer ≠ p
  queue : ∀ d, (s.queue d p).bundles = []
  queued : (s.item (.transmit p)).queued = false
  running : (s.item (.transmit p)).running = false

end PeerDrain

namespace PacketPipeline
variable {Peer Cpu : Type} [DecidableEq Peer] [DecidableEq Cpu] {s t : PacketPipeline Peer Cpu} {e : Event Peer Cpu}
  {d side : Dir} {p : Peer}
variable {c : Nat} {call : Call Peer} {b : Bundle Peer}

/-! ### A dead peer -/

theorem isDead_step (h : s.isDead p = true) (hs : Step s e t) : t.isDead p = true := by
  cases hs with
  | @die q =>
    show update s.isDead q true p = true
    by_cases heq : p = q
    · rw [heq, update_self]
    · rw [update_of_ne heq]
      exact h
  | @callHandoff c h' hc =>
    obtain ⟨_, _, _, _, _, _, heq⟩ := s.handoffStep_eq h'
    rw [heq]
    exact h
  | @workerHandoff d cpu h' hw =>
    obtain ⟨_, _, _, _, _, _, heq⟩ := s.handoffStep_eq h'
    rw [heq]
    exact h
  | _ => exact h

omit [DecidableEq Peer] [DecidableEq Cpu] in
theorem passed_setCall {c' : Nat} (hcall : call.passed = some p → (s.calls c).passed = some p)
    (h : ((s.setCall c call).calls c').passed = some p) : (s.calls c').passed = some p := by
  rw [calls_setCall] at h
  split_ifs at h with heq
  · rw [heq]
    exact hcall h
  · exact h

/-- A call comes past the test of `is_dead` only when it is not set. -/
theorem passed_step (hdead : s.isDead p = true) (hs : Step s e t) (h : (t.calls c).passed = some p) :
    (s.calls c).passed = some p := by
  cases hs with
  | steal | receiveUnknown | receive | noKeypair | getKeypair | reject | assign | splice | keypairGone | keypairGet
  | noSpace | queueWork =>
    refine passed_setCall ?_ h
    rintro ⟨⟩
  | checkDead hc =>
    refine passed_setCall (fun hpassed => ?_) h
    split_ifs at hpassed with halive
    · cases hpassed
    · rw [Option.some.inj hpassed] at halive
      exact absurd hdead halive
  | reserve hc | exchange hc | link hc | produce hc | ringFull hc =>
    refine passed_setCall (fun hpassed => ?_) h
    exact (congrArg Call.passed hc).trans hpassed
  | @callHandoff c' h' hc =>
    have hstep : ((s.handoffStep h').2.elim Call.idle .handoff).passed = some p →
      (Call.handoff h').passed = some p := by
      rcases h' with _ | _ | ⟨_ | _, q, ref⟩ | _
      · exact id
      · exact id
      · exact id
      · exact id
      · rintro ⟨⟩
    obtain ⟨_, _, _, _, _, _, heq⟩ := s.handoffStep_eq h'
    rw [heq] at h
    exact passed_setCall (fun hpassed => (congrArg Call.passed hc).trans (hstep hpassed)) h
  | callCleanup hc =>
    refine passed_setCall ?_ h
    rcases (s.cleanupStep _).2 with _ | _ <;> rintro ⟨⟩
  | @workerHandoff d cpu h' hw =>
    obtain ⟨_, _, _, _, _, _, heq⟩ := s.handoffStep_eq h'
    rw [heq] at h
    exact h
  | _ => exact h

/-- The peer is dead and no call takes a bundle of it to the pipeline. -/
structure Quiet (s : PacketPipeline Peer Cpu) (p : Peer) : Prop where
  isDead : s.isDead p = true
  passed : ∀ c, (s.calls c).passed ≠ some p

theorem Quiet.step (h : Quiet s p) (hs : Step s e t) : Quiet t p :=
  ⟨isDead_step h.isDead hs, fun c hc => h.passed c (passed_step h.isDead hs hc)⟩

omit [DecidableEq Peer] [DecidableEq Cpu] in
theorem Quiet.ne_of_calls (h : Quiet s p) (hc : s.calls c = call) : call.passed ≠ some p := by
  rw [← hc]
  exact h.passed c

omit [DecidableEq Cpu] in
/-- An empty queue of a quiet peer stays empty. -/
theorem Quiet.queue_eq_nil (h : Quiet s p) (hs : QueueStep s t) (hnil : (s.queue d p).bundles = []) :
    (t.queue d p).bundles = [] := by
  cases hs with
  | keep hq =>
    rw [hq]
    exact hnil
  | enter c b hc hq =>
    rw [hq, if_neg]
    · exact hnil
    · rintro ⟨rfl, rfl⟩
      exact h.ne_of_calls hc rfl
  | leave d' q b hst hb hq =>
    by_cases heq : d = d' ∧ p = q
    · obtain ⟨rfl, rfl⟩ := heq
      rw [hnil] at hb
      cases hb
    · rw [hq d p heq]
      exact hnil

/-- No bundle of the peer is in a ring, and none of the side `side` is with a worker. -/
structure Settled (s : PacketPipeline Peer Cpu) (side : Dir) (p : Peer) : Prop where
  ring : ∀ d, ∀ b ∈ (s.ring d).entries, b.peer ≠ p
  worker : ∀ d cpu, (s.worker d cpu).carried ≠ some (side, p)

omit [DecidableEq Peer] in
theorem Settled.setWorker (h : Settled s side p) {d : Dir} {cpu : Cpu} {w : Worker Peer}
    (hw : w.carried ≠ some (side, p)) :
    Settled (s.setWorker d cpu w) side p := by
  refine ⟨h.ring, fun d' cpu' => ?_⟩
  rw [worker_setWorker]
  split
  · exact hw
  · exact h.worker d' cpu'

omit [DecidableEq Peer] [DecidableEq Cpu] in
theorem Settled.setRing (h : Settled s side p) {d : Dir} {ring : PtrRing (Bundle Peer) maxQueuedPackets}
    (hring : ∀ b ∈ ring.entries, b.peer ≠ p) : Settled (s.setRing d ring) side p := by
  refine ⟨fun d' b hb => ?_, h.worker⟩
  rw [ring_setRing] at hb
  split at hb
  · exact hring b hb
  · exact h.ring d' b hb

theorem Settled.handoffStep (h : Settled s side p) {h' : Handoff Peer} : Settled (s.handoffStep h').1 side p := by
  obtain ⟨_, _, _, _, _, _, heq⟩ := s.handoffStep_eq h'
  rw [heq]
  exact ⟨h.ring, h.worker⟩

theorem Settled.step (h : Settled s side p) (hq : Quiet s p) (hs : Step s e t) : Settled t side p := by
  cases hs with
  | @produce c b ring hc hring =>
    have hset : Settled (s.setRing b.dir ring) side p := by
      refine h.setRing fun b' hb' => ?_
      rw [PtrRing.entries_of_produce hring, List.mem_append, List.mem_singleton] at hb'
      rcases hb' with hb' | rfl
      · exact h.ring _ b' hb'
      · exact fun hp => hq.ne_of_calls hc (congrArg some hp)
    exact ⟨hset.ring, hset.worker⟩
  | callHandoff => exact ⟨h.handoffStep.ring, h.handoffStep.worker⟩
  | startWorker | finishWorker =>
    refine Settled.setWorker (s := s.setItem _ _) ⟨h.ring, h.worker⟩ ?_
    rintro ⟨⟩
  | @consume d cpu clears b ring hw hring =>
    have hentries := PtrRing.entries_of_consume hring
    refine (h.setRing fun b' hb' => h.ring d b' ?_).setWorker fun hcar => h.ring d b ?_
      (Prod.mk.inj (Option.some.inj hcar)).2
    · rw [hentries]
      exact List.mem_cons_of_mem b hb'
    · rw [hentries]
      exact List.mem_cons_self
  | ringEmpty => exact h.setWorker (by rintro ⟨⟩)
  | @crypted d cpu ok b hw =>
    refine h.setWorker fun hcar => h.worker d cpu ?_
    rw [hw]
    exact hcar
  | @workerHandoff d cpu h' hw =>
    refine h.handoffStep.setWorker fun hcar => h.worker d cpu ?_
    rw [hw]
    exact carried_handoffStep hcar
  | _ => exact ⟨h.ring, h.worker⟩

omit [DecidableEq Peer] [DecidableEq Cpu] in
theorem Settled.not_kickPending (h : Settled s side p) (hq : Quiet s p) : ¬ KickPending s side p := by
  rintro (⟨c, ref, hc⟩ | ⟨d', cpu, ref, hw⟩)
  · exact hq.ne_of_calls hc rfl
  · refine h.worker d' cpu ?_
    rw [hw]
    rfl

omit [DecidableEq Peer] in
theorem Handoff.carried_of_awaited {h : Handoff Peer} (hb : b ∈ h.awaited) :
    h.carried = some (b.dir, b.peer) := by
  cases h with
  | get | set =>
    rw [List.mem_singleton.mp hb]
    rfl
  | kick | put => cases hb

omit [DecidableEq Peer] in
theorem Call.passed_of_awaited (hb : b ∈ call.awaited) :
    call.passed = some b.peer := by
  cases call with
  | unlinked | queued =>
    rw [List.mem_singleton.mp hb]
    rfl
  | handoff h =>
    have hcar := Handoff.carried_of_awaited hb
    cases h with
    | put => cases hcar
    | _ => exact congrArg (Option.map Prod.snd) hcar
  | _ => cases hb

omit [DecidableEq Peer] in
theorem Worker.carried_of_awaited {w : Worker Peer} (hb : b ∈ w.awaited) : w.carried = some (b.dir, b.peer) := by
  cases w with
  | crypting =>
    rw [List.mem_singleton.mp hb]
    rfl
  | handoff => exact Handoff.carried_of_awaited hb
  | _ => cases hb

omit [DecidableEq Peer] [DecidableEq Cpu] in
/-- All bundles of the peer are ready: nobody has one whose state word is still to be set. -/
theorem Settled.ready (h : Settled s d p) (hq : Quiet s p) (hinv : Inv s) (hne : (s.queue d p).bundles ≠ []) :
    Ready s d p := by
  refine ⟨hne, fun b hb hst => ?_⟩
  obtain ⟨rfl, rfl⟩ := hinv.homed d p b hb
  obtain ⟨k, hk⟩ := (hinv.awaited.covers b).mp ⟨hb, hst⟩
  cases k with
  | call c => exact hq.passed c (Call.passed_of_awaited hk)
  | ring d' => exact h.ring d' b hk rfl
  | worker d' cpu => exact h.worker d' cpu (Worker.carried_of_awaited hk)
  | _ => cases hk

theorem transmit_handoffStep {h : Handoff Peer} (hne : ∀ ref, h ≠ .kick .tx p ref) :
    (s.handoffStep h).1.item (.transmit p) = s.item (.transmit p) := by
  rcases h with _ | _ | ⟨_ | _, q, ref⟩ | _
  · rfl
  · rfl
  · refine item_setItem.trans (if_neg ?_)
    rintro ⟨⟩
    exact hne ref rfl
  · rfl
  · rfl

/-- The item of the serial context is queued only by those who wake the context up. -/
theorem transmit_step (hkick : ¬ KickPending s .tx p) (hs : Step s e t) :
    t.item (.transmit p) = s.item (.transmit p) ∨ (s.item (.transmit p)).start = some (t.item (.transmit p)) ∨
      (s.item (.transmit p)).finish = some (t.item (.transmit p)) := by
  cases hs with
  | @callHandoff c h hc =>
    refine .inl (transmit_handoffStep fun ref heq => hkick (.inl ⟨c, ref, ?_⟩))
    rw [hc, heq]
  | @workerHandoff d cpu h hw =>
    refine .inl (transmit_handoffStep fun ref heq => hkick (.inr ⟨d, cpu, ref, ?_⟩))
    rw [hw, heq]
  | @startTx q w hi =>
    show (s.setItem _ _).item _ = _ ∨ _ = some ((s.setItem _ _).item _) ∨ _
    rw [item_setItem]
    split_ifs with heq
    · cases heq
      exact .inr (.inl hi)
    · exact .inl rfl
  | @finishTx q w hp hi =>
    show (s.setItem _ _).item _ = _ ∨ _ ∨ _ = some ((s.setItem _ _).item _)
    rw [item_setItem]
    split_ifs with heq
    · cases heq
      exact .inr (.inr hi)
    · exact .inl rfl
  | _ => exact .inl rfl

/-- Nothing of the peer is left on the sending side. -/
structure TxDone (s : PacketPipeline Peer Cpu) (p : Peer) : Prop where
  queue : (s.queue .tx p).bundles = []
  queued : (s.item (.transmit p)).queued = false
  running : (s.item (.transmit p)).running = false

theorem TxDone.step (h : TxDone s p) (hq : Quiet s p) (hset : Settled s .tx p) (hs : Step s e t) : TxDone t p := by
  have hqueue := hq.queue_eq_nil (queue_step hs) h.queue
  rcases transmit_step (hset.not_kickPending hq) hs with heq | hstart | hfinish
  · refine ⟨hqueue, ?_, ?_⟩
    · rw [heq]
      exact h.queued
    · rw [heq]
      exact h.running
  · have hqueued := WorkItem.queued_of_start hstart
    rw [h.queued] at hqueued
    cases hqueued
  · refine ⟨hqueue, ?_, WorkItem.running_finish hfinish⟩
    rw [WorkItem.queued_finish hfinish]
    exact h.queued

/-- The flags of `napi_disable` are its own. -/
theorem napi_flags_step (hs : Step s e t) :
    (t.napi p).disable = (s.napi p).disable ∧ (t.napi p).off = (s.napi p).off := by
  have hcomplete : ∀ q, ((s.setNapi q (s.napi q).complete).napi p).disable = (s.napi p).disable ∧
      ((s.setNapi q (s.napi q).complete).napi p).off = (s.napi p).off := by
    intro q
    rw [napi_setNapi]
    split_ifs with heq
    · rw [heq]
      exact ⟨rfl, rfl⟩
    · exact ⟨rfl, rfl⟩
  have hhandoff : ∀ h : Handoff Peer, ((s.handoffStep h).1.napi p).disable = (s.napi p).disable ∧
      ((s.handoffStep h).1.napi p).off = (s.napi p).off := by
    intro h
    rcases h with _ | _ | ⟨_ | _, q, ref⟩ | _
    · exact ⟨rfl, rfl⟩
    · exact ⟨rfl, rfl⟩
    · exact ⟨rfl, rfl⟩
    · show ((s.setNapi q _).napi p).disable = _ ∧ ((s.setNapi q _).napi p).off = _
      rw [napi_setNapi]
      split_ifs with heq
      · rw [heq]
        unfold Napi.schedule
        split
        · exact ⟨rfl, rfl⟩
        · split <;> exact ⟨rfl, rfl⟩
      · exact ⟨rfl, rfl⟩
    · exact ⟨rfl, rfl⟩
  cases hs with
  | callHandoff | workerHandoff => exact hhandoff _
  | complete | spendDisabled => exact hcomplete _
  | _ => exact ⟨rfl, rfl⟩

end PacketPipeline

/-! ### The removal -/

namespace PeerDrain
variable {Peer Cpu : Type}

def upTo (mark : Item Peer Cpu → Nat) (i : Item Peer Cpu) (n : Nat) : Prop := n ≤ mark i

/-- What is known of the peer at each stage of its removal. -/
def StageInv (p : Peer) (s : PacketPipeline Peer Cpu) : DrainStage Peer Cpu → Prop
  | .alive => True
  | .dead => s.isDead p = true
  | .synchronizing waiting => s.isDead p = true ∧ ∀ c, (s.calls c).passed = some p → c ∈ waiting
  | .synchronized => Quiet s p
  | .firstFlush mark => Quiet s p ∧ RingServed (upTo mark) s p ∧ CarriedEarly (upTo mark) s .tx p
  | .firstFlushed => Quiet s p ∧ Settled s .tx p
  | .secondFlush mark => (Quiet s p ∧ Settled s .tx p) ∧ CarriedEarly (upTo mark) s .rx p ∧
      Attended (upTo mark (.transmit p)) s .tx p ∧ (s.item (.transmit p)).gen ≤ mark (.transmit p)
  | .secondFlushed | .disabling => Quiet s p ∧ (∀ side, Settled s side p) ∧ TxDone s p
  | .drained => Quiet s p ∧ (∀ side, Settled s side p) ∧ TxDone s p ∧ (s.queue .rx p).bundles = []

/-- What `napi_disable` has done to NAPI of the peer. -/
def NapiStage (n : Napi) : DrainStage Peer Cpu → Prop
  | .disabling => True
  | .drained => n.disable = false
  | _ => n.disable = false ∧ n.off = false

structure DrainInv (p : Peer) (s : PeerDrain Peer Cpu) : Prop where
  inv : Inv s.pipeline
  ring : RingServed (fun _ _ => True) s.pipeline p
  attended : ∀ d, Attended (fun _ => True) s.pipeline d p
  napi : NapiWf (s.pipeline.napi p) (s.pipeline.consumer .rx p)
  flags : NapiStage (s.pipeline.napi p) s.stage
  stage : StageInv p s.pipeline s.stage

section
variable [DecidableEq Peer] [DecidableEq Cpu] {s t : PacketPipeline Peer Cpu} {e : Event Peer Cpu} {p : Peer}
  {stage : DrainStage Peer Cpu}

omit [DecidableEq Cpu] in
theorem waitsFor_of_twoGenerations {s : PeerDrain Peer Cpu} {d : Dir} {cpu : Cpu} {clears : Bool} {b : Bundle Peer}
    (h : twoGenerations p s (.pipeline (.consume d cpu clears)) = true) (hb : b ∈ (s.pipeline.ring d).entries.head?)
    (hd : b.dir = .tx) (hp : b.peer = p) :
    s.stage.waitsFor (.crypt d cpu) (s.pipeline.item (.crypt d cpu)).current = true := by
  have hall := (Option.all_eq_true _ _).mp h b hb
  simpa only [hd, hp, ne_eq, not_true, decide_false, Bool.false_or] using hall

theorem StageInv.step (h : StageInv p s stage) (hinv : Inv s) (hwf : NapiWf (s.napi p) (s.consumer .rx p))
    (hok : twoGenerations p ⟨s, stage⟩ (.pipeline e) = true) (hs : Step s e t) : StageInv p t stage := by
  cases stage with
  | alive => trivial
  | dead => exact isDead_step h hs
  | synchronizing waiting => exact ⟨isDead_step h.1 hs, fun c hc => h.2 c (passed_step h.1 hs hc)⟩
  | synchronized => exact Quiet.step h hs
  | firstFlush mark =>
    obtain ⟨hq, hring, hcar⟩ := h
    refine ⟨hq.step hs, ?_, ?_⟩
    · refine hring.step hinv.idle hinv.serial (fun c d hc => ?_) hs
      exact absurd rfl (hq.ne_of_calls hc)
    · refine hcar.step hinv.serial ?_ hs
      rintro d cpu clears rfl b hb hd hp
      show _ ≤ mark _
      exact of_decide_eq_true (waitsFor_of_twoGenerations hok hb hd hp)
  | firstFlushed => exact ⟨h.1.step hs, h.2.step h.1 hs⟩
  | secondFlush mark =>
    obtain ⟨⟨hq, hset⟩, hcar, htx, hgen⟩ := h
    have hkick : ¬ KickPending s .tx p := hset.not_kickPending hq
    refine ⟨⟨hq.step hs, hset.step hq hs⟩, ?_, ?_, ?_⟩
    · refine hcar.step hinv.serial ?_ hs
      -- nobody takes a bundle of the peer any more
      rintro d cpu clears rfl b hb - hp
      exact absurd hp (hset.ring d b (List.mem_of_mem_head? hb))
    · refine htx.step hinv hwf (fun h => absurd h hkick) (fun h => absurd h hkick) ?_ hs
      rintro ⟨⟩
    · rcases transmit_step hkick hs with heq | hstart | hfinish
      · rw [heq]
        exact hgen
      · rw [WorkItem.gen_start hstart]
        exact hgen
      · rw [WorkItem.gen_finish hfinish]
        exact hgen
  | secondFlushed | disabling =>
    obtain ⟨hq, hset, htx⟩ := h
    exact ⟨hq.step hs, fun side => (hset side).step hq hs, htx.step hq (hset .tx) hs⟩
  | drained =>
    obtain ⟨hq, hset, htx, hrx⟩ := h
    exact ⟨hq.step hs, fun side => (hset side).step hq hs, htx.step hq (hset .tx) hs,
      hq.queue_eq_nil (queue_step hs) hrx⟩

omit [DecidableEq Peer] [DecidableEq Cpu] in
theorem NapiStage.congr {n n' : Napi} (h : NapiStage n stage) (hd : n'.disable = n.disable) (ho : n'.off = n.off) :
    NapiStage n' stage := by
  cases stage with
  | disabling => trivial
  | drained => exact hd.trans h
  | _ => exact ⟨hd.trans h.1, ho.trans h.2⟩

omit [DecidableEq Peer] [DecidableEq Cpu] in
/-- Nobody wakes NAPI of the peer up once `napi_disable` has begun. -/
theorem DrainInv.on {s : PeerDrain Peer Cpu} (h : DrainInv p s) (hkick : KickPending s.pipeline .rx p) :
    (s.pipeline.napi p).disable = false ∧ (s.pipeline.napi p).off = false := by
  obtain ⟨s, stage⟩ := s
  have hstage := h.stage
  cases stage with
  | disabling | drained => exact absurd hkick ((hstage.2.1 .rx).not_kickPending hstage.1)
  | _ => exact h.flags

omit [DecidableEq Cpu] in
theorem DrainInv.spend {s : PeerDrain Peer Cpu} (h : DrainInv p s)
    (hok : twoGenerations p s (.pipeline (.spend p)) = true) : (s.pipeline.napi p).disable = false := by
  obtain ⟨s, stage⟩ := s
  have hflags := h.flags
  cases stage with
  | disabling =>
    rw [twoGenerations, Bool.or_eq_true, decide_eq_true_eq] at hok
    rcases hok with hok | hok
    · cases hok
    · exact absurd rfl hok
  | drained => exact hflags
  | _ => exact hflags.1

theorem DrainInv.pipeline {s : PeerDrain Peer Cpu} (h : DrainInv p s)
    (hok : twoGenerations p s (.pipeline e) = true) (hs : Step s.pipeline e t) : DrainInv p ⟨t, s.stage⟩ where
  inv := h.inv.step hs
  ring := h.ring.step h.inv.idle h.inv.serial (fun _ _ _ _ _ => trivial) hs
  attended d := by
    refine (h.attended d).step h.inv h.napi (fun _ _ _ => trivial) ?_ ?_ hs
    · rintro hkick rfl
      exact h.on hkick
    · rintro - rfl
      exact h.spend hok
  napi := h.napi.step hs
  flags := h.flags.congr (napi_flags_step hs).1 (napi_flags_step hs).2
  stage := h.stage.step h.inv h.napi hok hs

omit [DecidableEq Peer] [DecidableEq Cpu] in
/-- When a flush is over the workers in the runs that it waits for have no bundle. -/
theorem not_carried_of_flushed (hinv : Inv s) {mark : Item Peer Cpu → Nat} {side : Dir}
    (hcar : CarriedEarly (upTo mark) s side p) (hf : s.AllFlushed mark) (d : Dir) (cpu : Cpu) :
    (s.worker d cpu).carried ≠ some (side, p) := by
  intro hw
  have hwill : (s.item (.crypt d cpu)).Will (upTo mark (.crypt d cpu)) True := .inr ⟨trivial, hcar d cpu hw⟩
  refine WorkItem.not_will_of_flushed (hf (.crypt d cpu)) (fun _ => (hinv.serial (.crypt d cpu)).mpr
    fun hidle => ?_) hwill
  rw [hidle] at hw
  cases hw

omit [DecidableEq Peer] [DecidableEq Cpu] in
/-- When the first flush is over the peer has no bundle in the rings. -/
theorem ring_of_flushed (hinv : Inv s) (hq : Quiet s p) {mark : Item Peer Cpu → Nat}
    (hring : RingServed (upTo mark) s p) (hf : s.AllFlushed mark) (d : Dir) : ∀ b ∈ (s.ring d).entries, b.peer ≠ p := by
  intro b hb hp
  rcases hring d b hb hp with ⟨c, hc⟩ | ⟨cpu, hwill⟩
  · exact hq.ne_of_calls hc rfl
  · refine WorkItem.not_will_of_flushed (hf (.crypt d cpu))
      (fun hlive => (hinv.serial (.crypt d cpu)).mpr fun hidle => ?_) hwill
    rw [hidle] at hlive
    exact hlive

omit [DecidableEq Peer] [DecidableEq Cpu] in
/-- When the second flush is over the serial context of the sending side has nothing left. -/
theorem txDone_of_flushed (hinv : Inv s) (hq : Quiet s p) (hset : Settled s .tx p) {mark : Item Peer Cpu → Nat}
    (htx : Attended (upTo mark (.transmit p)) s .tx p) (hgen : (s.item (.transmit p)).gen ≤ mark (.transmit p))
    (hf : s.AllFlushed mark) : TxDone s p := by
  obtain ⟨hqueued, hrunning⟩ := WorkItem.idle_of_flushed hgen (hf (.transmit p))
  refine ⟨?_, hqueued, hrunning⟩
  by_contra hne
  rcases htx (hset.ready hq hinv hne) with hkick | hserved
  · exact hset.not_kickPending hq hkick
  · refine WorkItem.not_will_of_flushed (hf (.transmit p))
      (fun hlive => (hinv.serial (.transmit p)).mpr fun hidle => ?_)
      hserved
    rw [hidle] at hlive
    exact hlive

omit [DecidableEq Peer] [DecidableEq Cpu] in
/-- When NAPI is not scheduled the receiving side has nothing left. -/
theorem rx_eq_nil (hinv : Inv s) (hq : Quiet s p) (hset : Settled s .rx p) (hwf : NapiWf (s.napi p) (s.consumer .rx p))
    (hrx : Attended (fun _ => True) s .rx p) (hsched : (s.napi p).sched = false) : (s.queue .rx p).bundles = [] := by
  have hnot : ¬ (s.napi p).sched = true := Bool.eq_false_iff.mp hsched
  by_contra hne
  rcases hrx (hset.ready hq hinv hne) with hkick | hmissed | hlive | hpoll
  · exact hset.not_kickPending hq hkick
  · exact hnot (hwf.missed hmissed)
  · refine hnot (hwf.polling fun hidle => ?_)
    rw [hidle] at hlive
    exact hlive
  · exact hnot hpoll.1

omit [DecidableEq Cpu] in
theorem DrainInv.setNapi {s : PeerDrain Peer Cpu} {n : Napi} (h : DrainInv p s)
    (hsched : n.sched = (s.pipeline.napi p).sched) (hmissed : n.missed = (s.pipeline.napi p).missed)
    (hflags : NapiStage n stage) (hstage : StageInv p (s.pipeline.setNapi p n) stage) :
    DrainInv p ⟨s.pipeline.setNapi p n, stage⟩ := by
  have hn : (s.pipeline.setNapi p n).napi p = n := napi_setNapi.trans (if_pos rfl)
  refine ⟨?_, h.ring, fun d => ?_, ?_, ?_, hstage⟩
  · exact ⟨h.inv.tokens, h.inv.awaited, h.inv.ids, ⟨h.inv.refs.lt, h.inv.refs.nodup⟩, h.inv.reserved, h.inv.idle,
      h.inv.serial, h.inv.homed, h.inv.inOrder⟩
  · intro hready
    refine (h.attended d hready).imp_right fun hserved => ?_
    rcases d with _ | _
    · exact hserved
    · show ((s.pipeline.setNapi p n).napi p).missed = true ∨ _ ∨ ((s.pipeline.setNapi p n).napi p).sched = true ∧ _
      rw [hn, hsched, hmissed]
      exact hserved
  · show NapiWf ((s.pipeline.setNapi p n).napi p) _
    rw [hn]
    refine ⟨?_, ?_⟩
    · rw [hmissed, hsched]
      exact h.napi.missed
    · rw [hsched]
      exact h.napi.polling
  · show NapiStage ((s.pipeline.setNapi p n).napi p) stage
    rw [hn]
    exact hflags

omit [DecidableEq Peer] [DecidableEq Cpu] in
theorem DrainInv.setStage {s : PeerDrain Peer Cpu} (h : DrainInv p s) (hflags : NapiStage (s.pipeline.napi p) stage)
    (hstage : StageInv p s.pipeline stage) : DrainInv p { s with stage := stage } :=
  ⟨h.inv, h.ring, h.attended, h.napi, hflags, hstage⟩

variable [∀ (s : PacketPipeline Peer Cpu) (mark : Item Peer Cpu → Nat), Decidable (s.AllFlushed mark)]

theorem DrainInv.step {s t : PeerDrain Peer Cpu} {e : DrainEvent Peer Cpu} (h : DrainInv p s)
    (hok : twoGenerations p s e = true) (hs : s.step p e = some t) : DrainInv p t := by
  obtain ⟨s, stage⟩ := s
  have hstage : StageInv p s stage := h.stage
  cases e with
  | pipeline e =>
    obtain ⟨u, hu, rfl⟩ := Option.map_eq_some_iff.mp hs
    exact h.pipeline hok (step_cases hu)
  | makeDead =>
    cases stage with
    | alive =>
      cases hs
      have hdie : DrainInv p ⟨s.setDead p, .alive⟩ := h.pipeline rfl (Step.die (p := p))
      exact hdie.setStage hdie.flags (update_self ..)
    | _ => cases hs
  | synchronizeNet =>
    cases stage with
    | dead =>
      cases hs
      refine h.setStage h.flags ⟨hstage, fun c hc => List.mem_filter.mpr ⟨List.mem_range.mpr ?_, ?_⟩⟩
      · by_contra hlt
        rw [h.inv.idle c (Nat.not_lt.mp hlt)] at hc
        cases hc
      · rw [hc]
        rfl
    | _ => cases hs
  | synchronized =>
    cases stage with
    | synchronizing waiting =>
      obtain ⟨hgone, hs⟩ := Option.ite_none_right_eq_some.mp hs
      cases hs
      refine h.setStage h.flags ⟨hstage.1, fun c hc => ?_⟩
      rw [hgone c (hstage.2 c hc)] at hc
      cases hc
    | _ => cases hs
  | flushWorkqueue =>
    cases stage with
    | synchronized =>
      cases hs
      refine h.setStage h.flags ⟨hstage, fun d b hb hp => ?_, fun d cpu _ => Nat.sub_le _ _⟩
      refine (h.ring d b hb hp).imp_right ?_
      rintro ⟨cpu, hwill⟩
      exact ⟨cpu, hwill.le_gen⟩
    | firstFlushed =>
      cases hs
      refine h.setStage h.flags ⟨hstage, fun d cpu _ => Nat.sub_le _ _, fun hready => ?_, Nat.le_refl _⟩
      refine (h.attended .tx hready).imp_right fun hserved => ?_
      have hwill : (s.item (.transmit p)).Will (fun _ => True) (s.consumer .tx p).Live := hserved
      exact hwill.le_gen
    | _ => cases hs
  | flushedWorkqueue =>
    cases stage with
    | firstFlush mark =>
      obtain ⟨hf, hs⟩ := Option.ite_none_right_eq_some.mp hs
      cases hs
      obtain ⟨hq, hring, hcar⟩ := hstage
      exact h.setStage h.flags ⟨hq, ring_of_flushed h.inv hq hring hf, not_carried_of_flushed h.inv hcar hf⟩
    | secondFlush mark =>
      obtain ⟨hf, hs⟩ := Option.ite_none_right_eq_some.mp hs
      cases hs
      obtain ⟨⟨hq, hset⟩, hcar, htx, hgen⟩ := hstage
      refine h.setStage h.flags ⟨hq, fun side => ?_, txDone_of_flushed h.inv hq hset htx hgen hf⟩
      cases side with
      | tx => exact hset
      | rx => exact ⟨hset.ring, not_carried_of_flushed h.inv hcar hf⟩
    | _ => cases hs
  | napiDisable =>
    cases stage with
    | secondFlushed =>
      cases hs
      obtain ⟨hq, hset, htx⟩ := hstage
      exact h.setNapi rfl rfl trivial ⟨⟨hq.isDead, hq.passed⟩, fun side => ⟨(hset side).ring, (hset side).worker⟩,
        htx.queue, htx.queued, htx.running⟩
    | _ => cases hs
  | napiDisabled =>
    cases stage with
    | disabling =>
      obtain ⟨hsched, hs⟩ := Option.ite_none_right_eq_some.mp hs
      cases hs
      obtain ⟨hq, hset, htx⟩ := hstage
      have hrx : (s.queue .rx p).bundles = [] := rx_eq_nil h.inv hq (hset .rx) h.napi (h.attended .rx) hsched
      exact h.setNapi rfl rfl rfl ⟨⟨hq.isDead, hq.passed⟩, fun side => ⟨(hset side).ring, (hset side).worker⟩,
        ⟨htx.queue, htx.queued, htx.running⟩, hrx⟩
    | _ => cases hs

omit [DecidableEq Peer] [DecidableEq Cpu]
  [∀ (s : PacketPipeline Peer Cpu) (mark : Item Peer Cpu → Nat), Decidable (s.AllFlushed mark)] in
theorem DrainInv.init : DrainInv p (init : PeerDrain Peer Cpu) where
  inv := .init
  ring := by rintro d b ⟨⟩
  attended d hready := absurd rfl hready.1
  napi := ⟨by rintro ⟨⟩, fun hne => absurd rfl hne⟩
  flags := ⟨rfl, rfl⟩
  stage := trivial

/-- After both flushes and `napi_disable` nothing of the dead peer is left, if each flush was for
one generation. -/
theorem drained_after_two_flushes {s : PeerDrain Peer Cpu}
    (h : Exec (step p) (fun s e => twoGenerations p s e = true) init s) (hstage : s.stage = .drained) :
    Drained s.pipeline p := by
  have hinv : DrainInv p s := h.inv DrainInv.init fun _ _ _ hok h hs => h.step hok hs
  have hdone := hinv.stage
  rw [hstage] at hdone
  obtain ⟨-, hset, htx, hrx⟩ := hdone
  refine ⟨(hset .tx).ring, fun d => ?_, htx.queued, htx.running⟩
  rcases d with _ | _
  · exact htx.queue
  · exact hrx

end

/-- A bundle of the peer `false` in the encrypt ring, with its work item queued on the CPU
`false`. -/
def oneBundle : List (DrainEvent Bool Bool) :=
  [.pipeline (.xmit false [1]), .pipeline (.steal false), .pipeline (.getKeypair 0 (some ⟨false, 0⟩)),
    .pipeline (.assign 0), .pipeline (.checkDead 0), .pipeline (.reserve 0),
      .pipeline (.exchange 0), .pipeline (.link 0),
    .pipeline (.produce 0), .pipeline (.queueWork 0 false)]

/-- The peer is dead and the first flush waits for that work item. -/
def firstFlushCalled : List (DrainEvent Bool Bool) :=
  [.makeDead, .synchronizeNet, .synchronized, .flushWorkqueue]

/-- A worker encrypts the bundle that it has taken and finds the ring empty. -/
def encrypts (cpu : Bool) : List (DrainEvent Bool Bool) :=
  [.pipeline (.crypted .tx cpu true), .pipeline (.workerHandoff .tx cpu), .pipeline (.workerHandoff .tx cpu),
    .pipeline (.workerHandoff .tx cpu), .pipeline (.workerHandoff .tx cpu), .pipeline (.consume .tx cpu false),
    .pipeline (.finishWorker .tx cpu)]

/-- The serial context of a peer sends a bundle of one packet. -/
def transmits (p : Bool) : List (DrainEvent Bool Bool) :=
  [.pipeline (.startTx p), .pipeline (.peek .tx p), .pipeline (.pop .tx p none), .pipeline (.consumerCleanup .tx p),
    .pipeline (.consumerCleanup .tx p), .pipeline (.consumerCleanup .tx p), .pipeline (.consumerCleanup .tx p),
    .pipeline (.stop .tx p), .pipeline (.finishTx p)]

def shown (s : PeerDrain Bool Bool) : Bool × List Packet × Nat × Bool :=
  (s.stage.isDrained, s.pipeline.sent, (s.pipeline.queue .tx false).bundles.length,
    (s.pipeline.item (.transmit false)).queued)

theorem drained_of_isDrained {s : PeerDrain Bool Bool} (h : s.stage.isDrained = true) : s.stage = .drained := by
  obtain ⟨s, stage⟩ := s
  cases stage with
  | drained => rfl
  | _ => cases h

/-- The bundle is encrypted during the first flush and sent during the second. -/
theorem drained_after_two_flushes_sent : ∃ s : PeerDrain Bool Bool,
    Exec (step false) (fun s e => twoGenerations false s e = true) init s ∧ s.stage = .drained ∧ s.pipeline.sent = [1] ∧
      Drained s.pipeline false := by
  have hrun : ∃ s : PeerDrain Bool Bool, Exec (step false) (fun s e => twoGenerations false s e = true) init s ∧
      shown s = (true, [1], 0, false) :=
    Exec.exists_of_foldlM (oneBundle ++ firstFlushCalled ++
      [.pipeline (.startWorker .tx false), .pipeline (.consume .tx false false)] ++ encrypts false ++
      [.flushedWorkqueue, .flushWorkqueue] ++ transmits false ++ [.flushedWorkqueue, .napiDisable, .napiDisabled])
      shown (by decide +kernel)
  obtain ⟨s, hs, hshown⟩ := hrun
  have hstage := drained_of_isDrained (congrArg Prod.fst hshown)
  exact ⟨s, hs, hstage, congrArg (·.2.1) hshown, drained_after_two_flushes hs hstage⟩

/-- The bundle is taken by a worker that was queued after the first flush was called, for a packet
of the other peer. The first flush does not wait for it; the second does, but not for the item that
it queues. -/
theorem laterWorker_leaves_bundle : ∃ s : PeerDrain Bool Bool, Exec (step false) (fun _ _ => True) init s ∧
    s.stage = .drained ∧ (s.pipeline.queue .tx false).bundles.length = 1 ∧
      (s.pipeline.item (.transmit false)).queued = true := by
  have hrun : ∃ s : PeerDrain Bool Bool, Exec (step false) (fun _ _ => True) init s ∧
      shown s = (true, [2], 1, true) :=
    Exec.exists_of_foldlM (oneBundle ++ firstFlushCalled ++
      [.pipeline (.xmit true [2]), .pipeline (.steal true), .pipeline (.getKeypair 1 (some ⟨true, 0⟩)),
        .pipeline (.assign 1), .pipeline (.checkDead 1), .pipeline (.reserve 1), .pipeline (.exchange 1),
        .pipeline (.link 1), .pipeline (.produce 1), .pipeline (.queueWork 1 true), .pipeline (.startWorker .tx true),
        .pipeline (.consume .tx true false), .pipeline (.startWorker .tx false),
          .pipeline (.consume .tx false false)] ++
      encrypts false ++ transmits true ++ [.flushedWorkqueue, .flushWorkqueue] ++ encrypts true ++
      [.flushedWorkqueue, .napiDisable, .napiDisabled]) shown (by decide +kernel)
  obtain ⟨s, hs, hshown⟩ := hrun
  exact ⟨s, hs, drained_of_isDrained (congrArg Prod.fst hshown), congrArg (·.2.2.1) hshown,
    congrArg (·.2.2.2) hshown⟩

end PeerDrain
end WireguardAes
