import WireguardAes.PacketPipeline
import Mathlib.Data.List.Basic

/-!
# The places of the pipeline

What a state holds is read off its places, for things of any kind (`Account`); each update of the
model changes what one place holds. The serial contexts and the work items that they run go together
(`Serial`), the bundles in the queue of a peer are its own (`Homed`), and they are there in the
order in which they came (`InOrder`).
-/

namespace WireguardAes
namespace PacketPipeline

open Function Runs

variable {Peer Cpu α : Type}

inductive Place (Peer Cpu : Type) where
  | staged (p : Peer)
  | call (c : Nat)
  | queue (d : Dir) (p : Peer)
  | ring (d : Dir)
  | worker (d : Dir) (cpu : Cpu)
  | consumer (d : Dir) (p : Peer)
  | sent
  | freed
  | puts
deriving DecidableEq

/-- How the things of one kind are read off each place. -/
structure Account (Peer α : Type) where
  staged : List Packet → List α
  call : Call Peer → List α
  queue : List (Bundle Peer) → List α
  ring : List (Bundle Peer) → List α
  worker : Worker Peer → List α
  consumer : Consumer Peer → List α
  released : List Packet → List α
  puts : List (Ref Peer) → List α

def Account.held (A : Account Peer α) (s : PacketPipeline Peer Cpu) : Place Peer Cpu → List α
  | .staged p => A.staged (s.staged p)
  | .call c => A.call (s.calls c)
  | .queue d p => A.queue (s.queue d p).bundles
  | .ring d => A.ring (s.ring d).entries
  | .worker d cpu => A.worker (s.worker d cpu)
  | .consumer d p => A.consumer (s.consumer d p)
  | .sent => A.released s.sent
  | .freed => A.released s.freed
  | .puts => A.puts s.puts

def Fate.place : Fate → Place Peer Cpu
  | .sent => .sent
  | .freed => .freed

section
variable [DecidableEq Peer] [DecidableEq Cpu] {s : PacketPipeline Peer Cpu} (A : Account Peer α)
variable {p : Peer} {d : Dir}

theorem held_setStaged {xs : List Packet} :
    A.held (s.setStaged p xs) = update (A.held s) (.staged p) (A.staged xs) := by
  refine eq_update_iff.mpr ⟨congrArg A.staged (update_self ..), fun k hk => ?_⟩
  cases k with
  | staged p' => exact congrArg A.staged (update_of_ne (by rintro rfl; exact hk rfl) ..)
  | _ => rfl

theorem held_setCall {c : Nat} {call : Call Peer} :
    A.held (s.setCall c call) = update (A.held s) (.call c) (A.call call) := by
  refine eq_update_iff.mpr ⟨congrArg A.call (update_self ..), fun k hk => ?_⟩
  cases k with
  | call c' => exact congrArg A.call (update_of_ne (by rintro rfl; exact hk rfl) ..)
  | _ => rfl

theorem held_setQueue {q : PeerQueue Peer} :
    A.held (s.setQueue d p q) = update (A.held s) (.queue d p) (A.queue q.bundles) := by
  refine eq_update_iff.mpr ⟨?_, fun k hk => ?_⟩
  · simp only [Account.held, queue_setQueue, and_self, if_true]
  · cases k with
    | queue d' p' =>
      have hne : ¬ (d' = d ∧ p' = p) := by
        rintro ⟨rfl, rfl⟩
        exact hk rfl
      simp only [Account.held, queue_setQueue, hne, if_false]
    | _ => rfl

theorem held_setRing {ring : PtrRing (Bundle Peer) maxQueuedPackets} :
    A.held (s.setRing d ring) = update (A.held s) (.ring d) (A.ring ring.entries) := by
  refine eq_update_iff.mpr ⟨?_, fun k hk => ?_⟩
  · simp only [Account.held, setRing, update_self]
  · cases k with
    | ring d' =>
      have hne : d' ≠ d := by
        rintro rfl
        exact hk rfl
      simp only [Account.held, setRing, update_of_ne hne]
    | _ => rfl

theorem held_setWorker {cpu : Cpu} {w : Worker Peer} :
    A.held (s.setWorker d cpu w) = update (A.held s) (.worker d cpu) (A.worker w) := by
  refine eq_update_iff.mpr ⟨?_, fun k hk => ?_⟩
  · simp only [Account.held, worker_setWorker, and_self, if_true]
  · cases k with
    | worker d' cpu' =>
      have hne : ¬ (d' = d ∧ cpu' = cpu) := by
        rintro ⟨rfl, rfl⟩
        exact hk rfl
      simp only [Account.held, worker_setWorker, hne, if_false]
    | _ => rfl

theorem held_setConsumer {c : Consumer Peer} :
    A.held (s.setConsumer d p c) = update (A.held s) (.consumer d p) (A.consumer c) := by
  refine eq_update_iff.mpr ⟨?_, fun k hk => ?_⟩
  · simp only [Account.held, consumer_setConsumer, and_self, if_true]
  · cases k with
    | consumer d' p' =>
      have hne : ¬ (d' = d ∧ p' = p) := by
        rintro ⟨rfl, rfl⟩
        exact hk rfl
      simp only [Account.held, consumer_setConsumer, hne, if_false]
    | _ => rfl

theorem held_release {xs : List Packet} {fate : Fate} : A.held (s.release xs fate) = update (A.held s)
    fate.place (A.released ((match fate with | .sent => s.sent | .freed => s.freed) ++ xs)) := by
  refine eq_update_iff.mpr ⟨by cases fate <;> rfl, fun k hk => ?_⟩
  cases fate <;> cases k <;> first | rfl | exact absurd rfl hk

theorem held_put {r : Ref Peer} : A.held (s.put r) = update (A.held s) .puts (A.puts (s.puts ++ [r])) := by
  refine eq_update_iff.mpr ⟨rfl, fun k hk => ?_⟩
  cases k with
  | puts => exact absurd rfl hk
  | _ => rfl

theorem held_setCall_of_eq {c : Nat} {call : Call Peer} (h : A.call call = A.call (s.calls c)) :
    A.held (s.setCall c call) = A.held s := (held_setCall A).trans (update_eq_self_iff.mpr h)

theorem held_setQueue_of_eq {q : PeerQueue Peer} (h : q.bundles = (s.queue d p).bundles) :
    A.held (s.setQueue d p q) = A.held s :=
  (held_setQueue A).trans (update_eq_self_iff.mpr (congrArg A.queue h))

theorem held_setWorker_of_eq {cpu : Cpu} {w : Worker Peer} (h : A.worker w = A.worker (s.worker d cpu)) :
    A.held (s.setWorker d cpu w) = A.held s := (held_setWorker A).trans (update_eq_self_iff.mpr h)

theorem held_setConsumer_of_eq {c : Consumer Peer}
    (h : A.consumer c = A.consumer (s.consumer d p)) : A.held (s.setConsumer d p c) = A.held s :=
  (held_setConsumer A).trans (update_eq_self_iff.mpr h)

end

/-! ### The contexts that run the work items -/

/-- The context that runs the item is not idle. -/
def Busy (s : PacketPipeline Peer Cpu) : Item Peer Cpu → Prop
  | .crypt d cpu => s.worker d cpu ≠ .idle
  | .transmit p => s.consumer .tx p ≠ .idle

def Serial (s : PacketPipeline Peer Cpu) : Prop := ∀ i, (s.item i).running = true ↔ s.Busy i

theorem Serial.worker_idle {s : PacketPipeline Peer Cpu} (h : s.Serial) {d : Dir} {cpu : Cpu} {w : WorkItem}
    (hi : (s.item (.crypt d cpu)).start = some w) : s.worker d cpu = .idle := by
  have hbusy := h (.crypt d cpu)
  rw [(WorkItem.running_start hi).1] at hbusy
  by_contra hne
  cases hbusy.mpr hne

theorem Serial.consumer_idle {s : PacketPipeline Peer Cpu} (h : s.Serial) {p : Peer} {w : WorkItem}
    (hi : (s.item (.transmit p)).start = some w) : s.consumer .tx p = .idle := by
  have hbusy := h (.transmit p)
  rw [(WorkItem.running_start hi).1] at hbusy
  by_contra hne
  cases hbusy.mpr hne

section
variable [DecidableEq Peer] [DecidableEq Cpu] {s t : PacketPipeline Peer Cpu} {e : Event Peer Cpu}
variable {d : Dir} {i : Item Peer Cpu} {p : Peer} {c : Consumer Peer}

theorem busy_setWorker {cpu : Cpu} {w : Worker Peer} :
    (s.setWorker d cpu w).Busy i ↔ if i = .crypt d cpu then w ≠ .idle else s.Busy i := by
  cases i with
  | crypt d' cpu' =>
    simp only [Busy, worker_setWorker, Item.crypt.injEq]
    split <;> rfl
  | transmit p => rfl

theorem busy_setConsumer :
    (s.setConsumer .tx p c).Busy i ↔ if i = .transmit p then c ≠ .idle else s.Busy i := by
  cases i with
  | crypt d cpu => rfl
  | transmit p' =>
    simp only [Busy, consumer_setConsumer, Item.transmit.injEq, true_and]
    split <;> rfl

omit [DecidableEq Cpu] in
theorem busy_setConsumer_rx :
    (s.setConsumer .rx p c).Busy i ↔ s.Busy i := by
  cases i with
  | crypt d cpu => rfl
  | transmit p' => simp only [Busy, consumer_setConsumer, reduceCtorEq, false_and, if_false]

theorem Serial.setWorker (h : s.Serial) {cpu : Cpu} {w : Worker Peer} (hbusy : s.worker d cpu ≠ .idle)
    (hw : w ≠ .idle) : (s.setWorker d cpu w).Serial := by
  intro i
  rw [busy_setWorker]
  split_ifs with hi
  · subst hi
    exact (h _).trans (iff_of_true hbusy hw)
  · exact h i

theorem Serial.setConsumer (h : s.Serial) (hbusy : s.consumer d p ≠ .idle)
    (hc : c ≠ .idle) : (s.setConsumer d p c).Serial := by
  intro i
  rcases d with _ | _
  · rw [busy_setConsumer]
    split_ifs with hi
    · subst hi
      exact (h _).trans (iff_of_true hbusy hc)
    · exact h i
  · exact (h i).trans busy_setConsumer_rx.symm

omit [DecidableEq Cpu] in
theorem Serial.setConsumer_rx (h : s.Serial) : (s.setConsumer .rx p c).Serial :=
  fun i => (h i).trans busy_setConsumer_rx.symm

theorem Serial.queue (h : s.Serial) (i : Item Peer Cpu) : (s.setItem i (s.item i).queue).Serial := by
  intro j
  refine Iff.trans ?_ (h j)
  by_cases hj : j = i
  · subst hj
    simp only [setItem, update_self, WorkItem.running_queue]
  · simp only [setItem, update_of_ne hj]

theorem Serial.handoffStep (h : s.Serial) {h' : Handoff Peer} : (s.handoffStep h').1.Serial := by
  rcases h' with _ | _ | ⟨_ | _, p, ref⟩ | _
  · exact h
  · exact h
  · exact h.queue _
  · exact h
  · exact h

omit [DecidableEq Cpu] [DecidableEq Peer] in
omit [DecidableEq Peer] [DecidableEq Cpu] in
/-- One item starts or finishes, together with the context that runs it. -/
theorem Serial.change [DecidableEq (Item Peer Cpu)] (h : s.Serial) {w : WorkItem} {B : Prop}
    (hitem : t.item = update s.item i w) (hrun : w.running = true ↔ B)
    (hbusy : ∀ j, t.Busy j ↔ if j = i then B else s.Busy j) : t.Serial := by
  intro j
  rw [hitem, hbusy]
  split_ifs with hj
  · rw [hj, update_self]
    exact hrun
  · rw [update_of_ne hj]
    exact h j

theorem Serial.step (h : s.Serial) (hs : Step s e t) : t.Serial := by
  cases hs with
  | queueWork hc => exact h.queue _
  | callHandoff hc => exact h.handoffStep
  | startWorker hi =>
    exact h.change rfl (iff_of_true (WorkItem.running_start hi).2 (by rintro ⟨⟩)) fun j => busy_setWorker
  | consume hw hring => exact h.setWorker (by rw [hw]; rintro ⟨⟩) (by rintro ⟨⟩)
  | ringEmpty hw hring => exact h.setWorker (by rw [hw]; rintro ⟨⟩) (by rintro ⟨⟩)
  | crypted hw => exact h.setWorker (by rw [hw]; rintro ⟨⟩) (by rintro ⟨⟩)
  | @workerHandoff d cpu h' hw =>
    obtain ⟨_, _, _, _, _, _, heq⟩ := s.handoffStep_eq h'
    have hbusy : (s.handoffStep h').1.worker d cpu ≠ .idle := by
      rw [heq]
      show s.worker d cpu ≠ .idle
      rw [hw]
      rintro ⟨⟩
    refine h.handoffStep.setWorker hbusy ?_
    rcases (s.handoffStep h').2 with _ | _ <;> rintro ⟨⟩
  | finishWorker hw hi =>
    refine h.change rfl (iff_of_false ?_ fun hne => hne rfl) fun j => busy_setWorker
    rw [WorkItem.running_finish hi]
    rintro ⟨⟩
  | startTx hi =>
    exact h.change rfl (iff_of_true (WorkItem.running_start hi).2 (by rintro ⟨⟩)) fun j => busy_setConsumer
  | startPoll | complete | spendDisabled | spend => exact h.setConsumer_rx
  | pop hp hb hst => exact h.setConsumer (by rw [hp]; rintro ⟨⟩) (by rintro ⟨⟩)
  | consumerCleanup hp =>
    refine Serial.setConsumer h (hp.symm ▸ ?_) ?_
    · rintro ⟨⟩
    rcases (s.cleanupStep _).2 with _ | _ <;> rintro ⟨⟩
  | stop hp hn => exact h.setConsumer (by rw [hp]; rintro ⟨⟩) (by rintro ⟨⟩)
  | finishTx hp hi =>
    refine h.change rfl (iff_of_false ?_ fun hne => hne rfl) fun j => busy_setConsumer
    rw [WorkItem.running_finish hi]
    rintro ⟨⟩
  | _ => exact h

/-! ### The calls and the queues -/

/-- Calls that have not begun are idle. -/
def CallsIdle (s : PacketPipeline Peer Cpu) : Prop := ∀ c, s.nextCall ≤ c → s.calls c = .idle

/-- The bundles of a queue are those of its peer. -/
def Homed (s : PacketPipeline Peer Cpu) : Prop := ∀ d p, ∀ b ∈ (s.queue d p).bundles, b.dir = d ∧ b.peer = p

/-- The bundles of a queue are those that came and have not left, in their order. -/
def InOrder (s : PacketPipeline Peer Cpu) : Prop := ∀ d p, s.entered d p = s.left d p ++ (s.queue d p).bundles

omit [DecidableEq Peer] [DecidableEq Cpu] in
theorem CallsIdle.setCall (h : s.CallsIdle) {c : Nat} {call call' : Call Peer} (hc : s.calls c = call)
    (hne : call ≠ .idle) : (s.setCall c call').CallsIdle := by
  intro c' hc'
  rw [calls_setCall]
  split_ifs with heq
  · subst heq
    exact absurd (hc.symm.trans (h c' hc')) hne
  · exact h c' hc'

omit [DecidableEq Peer] [DecidableEq Cpu] in
theorem CallsIdle.newCall (h : s.CallsIdle) {call : Call Peer} : (s.newCall call).CallsIdle := by
  intro c' hc'
  have hlt : s.nextCall < c' := hc'
  show (s.setCall s.nextCall call).calls c' = .idle
  rw [calls_setCall, if_neg hlt.ne']
  exact h c' hlt.le

theorem CallsIdle.step (h : s.CallsIdle) (hs : Step s e t) : t.CallsIdle := by
  cases hs with
  | steal | receiveUnknown | receive => exact h.newCall
  | noKeypair hc | getKeypair hc | reject hc | assign hc | splice hc | keypairGone hc | keypairGet hc | checkDead hc
  | noSpace hc | reserve hc | exchange hc | link hc | produce hc | ringFull hc | queueWork hc | callCleanup hc =>
    exact h.setCall hc (by rintro ⟨⟩)
  | @callHandoff c h' hc =>
    obtain ⟨_, _, _, _, _, _, heq⟩ := s.handoffStep_eq h'
    rw [heq]
    exact h.setCall hc (by rintro ⟨⟩)
  | @workerHandoff d' cpu h' hw =>
    obtain ⟨_, _, _, _, _, _, heq⟩ := s.handoffStep_eq h'
    rw [heq]
    exact h
  | _ => exact h

/-- What a step does to the queues of the peers. -/
inductive QueueStep (s t : PacketPipeline Peer Cpu) : Prop where
  | keep (hq : ∀ d p, (t.queue d p).bundles = (s.queue d p).bundles) (he : t.entered = s.entered) (hl : t.left = s.left)
  | enter (c : Nat) (b : Bundle Peer) (hc : s.calls c = .reserved b)
      (hq : ∀ d p, (t.queue d p).bundles =
        if d = b.dir ∧ p = b.peer then (s.queue d p).bundles ++ [b] else (s.queue d p).bundles)
      (he : ∀ d p, t.entered d p = if d = b.dir ∧ p = b.peer then s.entered d p ++ [b] else s.entered d p)
      (hl : t.left = s.left)
  | leave (d : Dir) (p : Peer) (b : Bundle Peer) (hst : s.state b.id ≠ .uncrypted)
      (hb : (s.queue d p).bundles = b :: (t.queue d p).bundles)
      (hq : ∀ d' p', ¬ (d' = d ∧ p' = p) → (t.queue d' p').bundles = (s.queue d' p').bundles)
      (he : t.entered = s.entered)
      (hl : ∀ d' p', t.left d' p' = if d' = d ∧ p' = p then s.left d' p' ++ [b] else s.left d' p')

omit [DecidableEq Cpu] in
theorem bundles_setQueue_of_eq {d' : Dir} {p' : Peer} {q : PeerQueue Peer}
    (h : q.bundles = (s.queue d p).bundles) :
    ((s.setQueue d p q).queue d' p').bundles = (s.queue d' p').bundles := by
  rw [queue_setQueue]
  split_ifs with heq
  · rw [heq.1, heq.2]
    exact h
  · rfl

omit [DecidableEq Cpu] in
theorem bundles_setQueue_append {d' : Dir} {p' : Peer} {b : Bundle Peer} :
    ((s.setQueue d p { s.queue d p with entries := (s.queue d p).entries ++ [b] }).queue d' p').bundles =
      if d' = d ∧ p' = p then (s.queue d' p').bundles ++ [b] else (s.queue d' p').bundles := by
  rw [queue_setQueue]
  split_ifs with heq
  · rw [heq.1, heq.2]
    exact (List.append_assoc ..).symm
  · rfl

omit [DecidableEq Cpu] in
theorem bundles_setQueue_pop {b : Bundle Peer} (hb : (s.queue d p).peeked = some b) :
    (s.queue d p).bundles = b :: ((s.setQueue d p { s.queue d p with peeked := none }).queue d p).bundles := by
  rw [queue_setQueue, if_pos ⟨rfl, rfl⟩, PeerQueue.bundles_of_peeked hb]
  rfl

theorem queue_step (hs : Step s e t) : QueueStep s t := by
  cases hs with
  | reserve => exact .keep (fun d p => bundles_setQueue_of_eq rfl) rfl rfl
  | @exchange c b hc =>
    refine .enter c b hc (fun d p => bundles_setQueue_append) (fun d p => entered_noteEntered.trans ?_) rfl
    split_ifs with heq
    · rw [heq.1, heq.2]
      rfl
    · rfl
  | @peek d p n b entries hp hnone hq =>
    refine .keep (fun d' p' => bundles_setQueue_of_eq ?_) rfl rfl
    rw [PeerQueue.bundles_of_none hnone, hq]
    rfl
  | @pop d p fate n b hp hb hst =>
    refine .leave d p b hst (bundles_setQueue_pop hb) (fun d' p' hne => ?_) rfl fun d' p' => ?_
    · exact congrArg PeerQueue.bundles (queue_setQueue.trans (if_neg hne))
    · refine left_noteLeft.trans ?_
      split_ifs with heq
      · rw [heq.1, heq.2]
        rfl
      · rfl
  | @callHandoff c h' hc =>
    obtain ⟨_, _, _, _, _, _, heq⟩ := s.handoffStep_eq h'
    rw [heq]
    exact .keep (fun d p => rfl) rfl rfl
  | @workerHandoff d cpu h' hw =>
    obtain ⟨_, _, _, _, _, _, heq⟩ := s.handoffStep_eq h'
    rw [heq]
    exact .keep (fun d p => rfl) rfl rfl
  | _ => exact .keep (fun d p => rfl) rfl rfl

omit [DecidableEq Cpu] in
theorem Homed.step (h : s.Homed) (hs : QueueStep s t) : t.Homed := by
  intro d p b hb
  cases hs with
  | keep hq =>
    rw [hq] at hb
    exact h d p b hb
  | enter c b' hc hq =>
    rw [hq] at hb
    split_ifs at hb with heq
    · rcases List.mem_append.mp hb with hb | hb
      · exact h d p b hb
      · rw [List.mem_singleton.mp hb, heq.1, heq.2]
        exact ⟨rfl, rfl⟩
    · exact h d p b hb
  | leave d' p' b' hst hb' hq =>
    by_cases heq : d = d' ∧ p = p'
    · obtain ⟨rfl, rfl⟩ := heq
      refine h d p b ?_
      rw [hb']
      exact List.mem_cons_of_mem b' hb
    · rw [hq d p heq] at hb
      exact h d p b hb

omit [DecidableEq Cpu] in
theorem InOrder.step (h : s.InOrder) (hs : QueueStep s t) : t.InOrder := by
  intro d p
  cases hs with
  | keep hq he hl => rw [hq, he, hl, h d p]
  | enter c b hc hq he hl =>
    rw [hq, he, hl, h d p]
    split
    · exact List.append_assoc ..
    · rfl
  | leave d' p' b hst hb hq he hl =>
    rw [he, hl, h d p]
    split
    case isTrue heq =>
      obtain ⟨rfl, rfl⟩ := heq
      rw [hb, List.append_assoc]
      rfl
    case isFalse hne =>
      rw [hq d p hne]

end

end PacketPipeline
end WireguardAes
