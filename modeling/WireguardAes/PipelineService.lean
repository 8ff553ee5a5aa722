import WireguardAes.PipelineCustody

/-!
# No bundle of the pipeline is forgotten

A bundle in the ring of the device has a work item that will look at the ring, or a producer that is
about to queue one. Bundles in the queue of a peer whose state words are all set have a context that
is about to wake the serial context of the peer up, or that context will look at the queue.

The items have their runs numbered, and `early` says which of the runs count. Before anything waits
for the items all of them do; a flush makes them those that were queued before its call.
-/

namespace WireguardAes
namespace PacketPipeline

open Runs

variable {Peer Cpu : Type}

def Worker.Live : Worker Peer → Prop
  | .looping | .crypting _ | .handoff _ => True
  | .idle | .exiting => False

def Consumer.Live : Consumer Peer → Prop
  | .looping _ | .cleanup _ _ => True
  | .idle | .exiting => False

/-- Each bundle of `p` in a ring is served. -/
def RingServed (early : Item Peer Cpu → Nat → Prop) (s : PacketPipeline Peer Cpu) (p : Peer) : Prop :=
  ∀ d, ∀ b ∈ (s.ring d).entries, b.peer = p → (∃ c, s.calls c = .produced d p) ∨
    ∃ cpu, (s.item (.crypt d cpu)).Will (early (.crypt d cpu)) (s.worker d cpu).Live

/-- The side and the peer of the bundle that is handed over, until its serial context has been woken
up. -/
def Handoff.carried : Handoff Peer → Option (Dir × Peer)
  | .get b _ | .set b _ _ => some (b.dir, b.peer)
  | .kick d p _ => some (d, p)
  | .put _ _ => none

def Worker.carried : Worker Peer → Option (Dir × Peer)
  | .crypting b => some (b.dir, b.peer)
  | .handoff h => h.carried
  | .idle | .looping | .exiting => none

/-- The workers that have a bundle of `p` on the side `side` are in early runs. -/
def CarriedEarly (early : Item Peer Cpu → Nat → Prop) (s : PacketPipeline Peer Cpu) (side : Dir) (p : Peer) : Prop :=
  ∀ d cpu, (s.worker d cpu).carried = some (side, p) → early (.crypt d cpu) (s.item (.crypt d cpu)).current

section
variable [DecidableEq Peer] [DecidableEq Cpu] {s t : PacketPipeline Peer Cpu} {e : Event Peer Cpu} {p : Peer}
  {early : Item Peer Cpu → Nat → Prop} {side : Dir}
variable {d : Dir} {cpu : Cpu} {h' : Handoff Peer} {w : WorkItem}

omit [DecidableEq Peer] [DecidableEq Cpu] in
theorem RingServed.setCall (h : RingServed early s p) {c : Nat} {call call' : Call Peer} (hc : s.calls c = call)
    (hne : ∀ d, call ≠ .produced d p) : RingServed early (s.setCall c call') p := by
  intro d b hb hp
  refine (h d b hb hp).imp_left ?_
  rintro ⟨c', hc'⟩
  refine ⟨c', ?_⟩
  rw [calls_setCall, if_neg]
  · exact hc'
  · rintro rfl
    exact hne d (hc.symm.trans hc')

omit [DecidableEq Peer] [DecidableEq Cpu] in
theorem RingServed.newCall (h : RingServed early s p) (hidle : s.CallsIdle) {call : Call Peer} :
    RingServed early (s.newCall call) p :=
  RingServed.setCall h (hidle _ (Nat.le_refl _)) (by rintro _ ⟨⟩)

omit [DecidableEq Peer] in
theorem RingServed.setWorker (h : RingServed early s p) {w : Worker Peer} (hw : w.Live) :
    RingServed early (s.setWorker d cpu w) p := by
  intro d' b hb hp
  refine (h d' b hb hp).imp_right ?_
  rintro ⟨cpu', hwill⟩
  refine ⟨cpu', hwill.imp fun hlive => ?_⟩
  rw [worker_setWorker]
  split
  · exact hw
  · exact hlive

theorem item_handoffStep {h : Handoff Peer} :
    (s.handoffStep h).1.item (.crypt d cpu) = s.item (.crypt d cpu) := by
  rcases h with _ | _ | ⟨_ | _, q, ref⟩ | _
  · rfl
  · rfl
  · exact item_setItem.trans (if_neg (by rintro ⟨⟩))
  · rfl
  · rfl

theorem RingServed.handoffStep (h : RingServed early s p) :
    RingServed early (s.handoffStep h').1 p := by
  have hitem : ∀ d cpu, (s.handoffStep h').1.item (.crypt d cpu) = s.item (.crypt d cpu) :=
    fun d cpu => item_handoffStep
  obtain ⟨_, _, _, _, _, _, heq⟩ := s.handoffStep_eq h'
  intro d b hb hp
  simp only [hitem]
  rw [heq] at hb ⊢
  exact h d b hb hp

theorem RingServed.queueWork (h : RingServed early s p) {c : Nat} {q : Peer}
    (hc : s.calls c = .produced d q) (hearly : q = p → early (.crypt d cpu) (s.item (.crypt d cpu)).queue.gen) :
    RingServed early ((s.setItem (.crypt d cpu) (s.item (.crypt d cpu)).queue).setCall c .idle) p := by
  intro d' b hb hp
  rcases h d' b hb hp with ⟨c', hc'⟩ | ⟨cpu', hwill⟩
  · by_cases heq : c' = c
    · rw [heq, hc] at hc'
      cases hc'
      refine .inr ⟨cpu, ?_⟩
      show ((s.setItem _ _).item _).Will _ _
      rw [item_setItem, if_pos rfl]
      exact WorkItem.will_queue (hearly rfl)
    · refine .inl ⟨c', ?_⟩
      rw [calls_setCall, if_neg heq]
      exact hc'
  · refine .inr ⟨cpu', ?_⟩
    show ((s.setItem _ _).item _).Will _ _
    rw [item_setItem]
    split_ifs with heq
    · cases heq
      exact hwill.queue
    · exact hwill

/-- A work item of a ring changes, together with the worker that runs it. -/
theorem RingServed.change (h : RingServed early s p) {v : Worker Peer}
    (hwill : (s.item (.crypt d cpu)).Will (early (.crypt d cpu)) (s.worker d cpu).Live →
      w.Will (early (.crypt d cpu)) v.Live) :
    RingServed early ((s.setItem (.crypt d cpu) w).setWorker d cpu v) p := by
  intro d' b hb hp
  refine (h d' b hb hp).imp_right ?_
  rintro ⟨cpu', hwill'⟩
  refine ⟨cpu', ?_⟩
  show ((s.setItem _ _).item _).Will _ _
  rw [item_setItem, worker_setWorker]
  split
  case isTrue heq =>
    cases heq
    rw [if_pos ⟨rfl, rfl⟩]
    exact hwill hwill'
  case isFalse hne =>
    rw [if_neg]
    · exact hwill'
    · rintro ⟨rfl, rfl⟩
      exact hne rfl

theorem RingServed.setItem_transmit (h : RingServed early s p) {q : Peer} :
    RingServed early (s.setItem (.transmit q) w) p := by
  intro d b hb hp
  refine (h d b hb hp).imp_right ?_
  rintro ⟨cpu, hwill⟩
  refine ⟨cpu, ?_⟩
  rw [item_setItem, if_neg (by rintro ⟨⟩)]
  exact hwill

omit [DecidableEq Peer] [DecidableEq Cpu] in
theorem RingServed.setRing (h : RingServed early s p) {ring : PtrRing (Bundle Peer) maxQueuedPackets}
    (hsub : ∀ b ∈ ring.entries, b ∈ (s.ring d).entries) : RingServed early (s.setRing d ring) p := by
  intro d' b hb hp
  refine h d' b ?_ hp
  rw [ring_setRing] at hb
  split_ifs at hb with heq
  · rw [heq]
    exact hsub b hb
  · exact hb

theorem RingServed.step (h : RingServed early s p) (hidle : s.CallsIdle) (hser : s.Serial)
    (hearly : ∀ c d, s.calls c = .produced d p → ∀ i n, early i n) (hs : Step s e t) : RingServed early t p := by
  cases hs with
  | steal | receiveUnknown | receive => exact RingServed.newCall h hidle
  | noKeypair hc | getKeypair hc | reject hc | assign hc | splice hc | keypairGone hc | keypairGet hc | checkDead hc
  | noSpace hc | reserve hc | exchange hc | link hc | ringFull hc =>
    exact RingServed.setCall h hc (by rintro _ ⟨⟩)
  | @produce c b ring hc hring =>
    intro d b' hb' hp
    by_cases hnew : d = b.dir ∧ b' = b
    · obtain ⟨rfl, rfl⟩ := hnew
      refine .inl ⟨c, ?_⟩
      rw [calls_setCall, if_pos rfl, hp]
    · have hold : b' ∈ (s.ring d).entries := by
        replace hb' : b' ∈ ((s.setRing b.dir ring).ring d).entries := hb'
        rw [ring_setRing] at hb'
        split_ifs at hb' with hd
        · rw [PtrRing.entries_of_produce hring, List.mem_append, List.mem_singleton] at hb'
          rw [hd]
          exact hb'.resolve_right fun heq => hnew ⟨hd, heq⟩
        · exact hb'
      exact h.setCall hc (by rintro _ ⟨⟩) d b' hold hp
  | @queueWork c cpu d q hc =>
    refine h.queueWork hc ?_
    rintro rfl
    exact hearly c d hc _ _
  | @callHandoff c h' hc =>
    obtain ⟨_, _, _, _, _, _, heq⟩ := s.handoffStep_eq h'
    have hcalls : (s.handoffStep h').1.calls c = .handoff h' := by
      rw [heq]
      exact hc
    exact h.handoffStep.setCall hcalls (by rintro _ ⟨⟩)
  | callCleanup hc =>
    exact RingServed.setCall h hc (by rintro _ ⟨⟩)
  | @startWorker d cpu w hi =>
    refine h.change fun hwill => hwill.start hi ?_ trivial
    rw [hser.worker_idle hi]
    rintro ⟨⟩
  | @consume d cpu clears b ring hw hring =>
    refine RingServed.setWorker (h.setRing fun b' hb' => ?_) trivial
    rw [PtrRing.entries_of_consume hring]
    exact List.mem_cons_of_mem b hb'
  | @ringEmpty d cpu clears hw hring =>
    intro d' b hb hp
    -- the worker of an empty ring serves nothing
    have hd : d' ≠ d := by
      rintro rfl
      replace hb : b ∈ (s.ring d').entries := hb
      rw [PtrRing.consume_eq_none.mp hring] at hb
      cases hb
    refine (h d' b hb hp).imp_right ?_
    rintro ⟨cpu', hwill⟩
    refine ⟨cpu', ?_⟩
    rw [worker_setWorker, if_neg fun heq => hd heq.1]
    exact hwill
  | crypted hw => exact h.setWorker trivial
  | @workerHandoff d cpu h' hw =>
    refine h.handoffStep.setWorker ?_
    rcases (s.handoffStep h').2 with _ | _ <;> trivial
  | finishWorker hw hi =>
    refine h.change fun hwill => hwill.finish hi ?_
    rw [hw]
    rintro ⟨⟩
  | @startTx q w hi => exact h.setItem_transmit (q := q) (w := w)
  | @finishTx q w hp hi => exact h.setItem_transmit (q := q) (w := w)
  | _ => exact h

omit [DecidableEq Peer] in
theorem CarriedEarly.setWorker (h : CarriedEarly early s side p) {w : Worker Peer}
    (hw : w.carried = some (side, p) → early (.crypt d cpu) (s.item (.crypt d cpu)).current) :
    CarriedEarly early (s.setWorker d cpu w) side p := by
  intro d' cpu' hcar
  rw [worker_setWorker] at hcar
  split_ifs at hcar with heq
  · rw [heq.1, heq.2]
    exact hw hcar
  · exact h d' cpu' hcar

theorem CarriedEarly.setItem (h : CarriedEarly early s side p) {i : Item Peer Cpu}
    (hw : w.current = (s.item i).current ∨ ∀ d cpu, i = .crypt d cpu → (s.worker d cpu).carried = none) :
    CarriedEarly early (s.setItem i w) side p := by
  intro d cpu hcar
  rw [item_setItem]
  split_ifs with heq
  · rcases hw with hw | hw
    · rw [hw, ← heq]
      exact h d cpu hcar
    · rw [show (s.setItem i w).worker = s.worker from rfl, hw d cpu heq.symm] at hcar
      cases hcar
  · exact h d cpu hcar

theorem CarriedEarly.handoffStep (h : CarriedEarly early s side p) :
    CarriedEarly early (s.handoffStep h').1 side p := by
  obtain ⟨_, _, _, _, _, _, heq⟩ := s.handoffStep_eq h'
  intro d cpu hcar
  rw [item_handoffStep]
  rw [heq] at hcar
  exact h d cpu hcar

/-- After its next step a handover is of the same peer, or it is over. -/
theorem carried_handoffStep (hcar : ((s.handoffStep h').2.elim .looping Worker.handoff).carried = some (side, p)) :
    h'.carried = some (side, p) := by
  rcases h' with _ | _ | ⟨_ | _, q, ref⟩ | _
  · exact hcar
  · exact hcar
  · cases hcar
  · cases hcar
  · cases hcar

theorem CarriedEarly.step (h : CarriedEarly early s side p) (hser : s.Serial)
    (hconsume : ∀ d cpu clears, e = .consume d cpu clears → ∀ b ∈ (s.ring d).entries.head?, b.dir = side → b.peer = p →
      early (.crypt d cpu) (s.item (.crypt d cpu)).current) (hs : Step s e t) : CarriedEarly early t side p := by
  cases hs with
  | @queueWork c cpu d q hc => exact h.setItem (i := .crypt d cpu) (.inl WorkItem.current_queue)
  | callHandoff hc => exact h.handoffStep
  | @startWorker d cpu w hi =>
    have hidle : CarriedEarly early (s.setItem (.crypt d cpu) w) side p := by
      refine h.setItem (.inr ?_)
      rintro _ _ ⟨⟩
      rw [hser.worker_idle hi]
      rfl
    exact hidle.setWorker (by rintro ⟨⟩)
  | @consume d cpu clears b ring hw hring =>
    refine CarriedEarly.setWorker (s := s.setRing d ring) h fun hcar => ?_
    obtain ⟨rfl, rfl⟩ := Prod.mk.inj (Option.some.inj hcar)
    refine hconsume d cpu clears rfl b ?_ rfl rfl
    rw [PtrRing.entries_of_consume hring]
    rfl
  | ringEmpty => exact h.setWorker (by rintro ⟨⟩)
  | @crypted d cpu ok b hw =>
    refine h.setWorker fun hcar => h d cpu ?_
    rw [hw]
    exact hcar
  | @workerHandoff d cpu h' hw =>
    refine h.handoffStep.setWorker fun hcar => ?_
    rw [item_handoffStep]
    refine h d cpu ?_
    rw [hw]
    exact carried_handoffStep hcar
  | @finishWorker d cpu w hw hi =>
    have hexit : CarriedEarly early (s.setItem (.crypt d cpu) w) side p := by
      refine h.setItem (.inr ?_)
      rintro _ _ ⟨⟩
      rw [hw]
      rfl
    exact hexit.setWorker (by rintro ⟨⟩)
  | @startTx q w hi => exact h.setItem (i := .transmit q) (w := w) (.inr (by rintro _ _ ⟨⟩))
  | @finishTx q w hp hi => exact h.setItem (i := .transmit q) (w := w) (.inr (by rintro _ _ ⟨⟩))
  | _ => exact h

end

/-! ### The queues of the peers -/

/-- The serial context has something to do. -/
def Ready (s : PacketPipeline Peer Cpu) (d : Dir) (p : Peer) : Prop :=
  (s.queue d p).bundles ≠ [] ∧ ∀ b ∈ (s.queue d p).bundles, s.state b.id ≠ .uncrypted

/-- A call or a worker is about to wake the serial context up. -/
def KickPending (s : PacketPipeline Peer Cpu) (d : Dir) (p : Peer) : Prop :=
  (∃ c ref, s.calls c = .handoff (.kick d p ref)) ∨ ∃ d' cpu ref, s.worker d' cpu = .handoff (.kick d p ref)

/-- The serial context will look at the queue. -/
def Served (early : Nat → Prop) (s : PacketPipeline Peer Cpu) : Dir → Peer → Prop
  | .tx, p => (s.item (.transmit p)).Will early (s.consumer .tx p).Live
  | .rx, p => (s.napi p).missed = true ∨ (s.consumer .rx p).Live ∨ (s.napi p).sched = true ∧ s.consumer .rx p = .idle

/-- `NAPI_STATE_SCHED` is set while a poll is under way, and when one more is asked for. -/
structure NapiWf (n : Napi) (c : Consumer Peer) : Prop where
  missed : n.missed = true → n.sched = true
  polling : c ≠ .idle → n.sched = true

section
variable [DecidableEq Peer] [DecidableEq Cpu] {s t : PacketPipeline Peer Cpu} {e : Event Peer Cpu} {d : Dir} {p : Peer}
  {early : Nat → Prop}
variable {d' : Dir} {q : Peer} {c : Consumer Peer} {n : Napi}

omit [DecidableEq Peer] [DecidableEq Cpu] in
theorem Ready.of_eq (h : Ready t d p) (hq : (t.queue d p).bundles = (s.queue d p).bundles)
    (hst : ∀ b ∈ (s.queue d p).bundles, t.state b.id = s.state b.id) : Ready s d p := by
  obtain ⟨hne, hall⟩ := h
  rw [hq] at hne hall
  refine ⟨hne, fun b hb => ?_⟩
  rw [← hst b hb]
  exact hall b hb

theorem ready_handoffStep (hinv : Inv s) {h : Handoff Peer} (hb : ∀ b ∈ h.awaited, s.Awaiting b)
    (hready : Ready (s.handoffStep h).1 d p) : Ready s d p ∨ ∃ ref, (s.handoffStep h).2 = some (.kick d p ref) := by
  rcases h with _ | ⟨b, ok, ref⟩ | ⟨_ | _, q, ref⟩ | _
  · exact .inl hready
  · by_cases hmine : b.dir = d ∧ b.peer = p
    · obtain ⟨rfl, rfl⟩ := hmine
      exact .inr ⟨ref, rfl⟩
    · refine .inl (hready.of_eq rfl fun b' hb' => Function.update_of_ne (fun hid => hmine ?_) ..)
      have hmem := (hb b (List.mem_singleton_self b)).1
      rw [← bundle_eq_of_id hinv.ids.toExclusive hb' hmem hid]
      exact hinv.homed d p b' hb'
  · exact .inl hready
  · exact .inl hready
  · exact .inl hready

theorem ready_step (hinv : Inv s) (hs : Step s e t) (hready : Ready t d p) : Ready s d p ∨ KickPending t d p := by
  cases hs with
  | noSpace hc =>
    refine .inl (hready.of_eq rfl fun b' hb' => ?_)
    exact Function.update_of_ne (id_ne_of_call hinv.ids.toExclusive (congrArg Call.ids hc) hb') ..
  | @reserve c b hc =>
    refine .inl (hready.of_eq (bundles_setQueue_of_eq rfl) fun b' hb' => ?_)
    exact Function.update_of_ne (id_ne_of_call hinv.ids.toExclusive (congrArg Call.ids hc) hb') ..
  | @exchange c b hc =>
    -- the bundle that comes is not ready
    have hne : ¬ (d = b.dir ∧ p = b.peer) := by
      rintro ⟨rfl, rfl⟩
      refine hready.2 b ?_ (hinv.reserved c b hc)
      show b ∈ ((s.setQueue _ _ _).queue _ _).bundles
      rw [bundles_setQueue_append, if_pos ⟨rfl, rfl⟩]
      exact List.mem_append_right _ (List.mem_singleton_self b)
    exact .inl (hready.of_eq (bundles_setQueue_append.trans (if_neg hne)) fun b' hb' => rfl)
  | @callHandoff c h hc =>
    refine (ready_handoffStep hinv (fun b hb => ?_) hready).imp_right ?_
    · refine hinv.awaited.mem (k := .call c) ?_
      show b ∈ Call.awaited (s.calls c)
      rw [hc]
      exact hb
    · rintro ⟨ref, hkick⟩
      refine .inl ⟨c, ref, ?_⟩
      rw [calls_setCall, if_pos rfl, hkick]
      rfl
  | @workerHandoff d' cpu h hw =>
    refine (ready_handoffStep hinv (fun b hb => ?_) hready).imp_right ?_
    · refine hinv.awaited.mem (k := .worker d' cpu) ?_
      show b ∈ Worker.awaited (s.worker d' cpu)
      rw [hw]
      exact hb
    · rintro ⟨ref, hkick⟩
      refine .inr ⟨d', cpu, ref, ?_⟩
      rw [worker_setWorker, if_pos ⟨rfl, rfl⟩, hkick]
      rfl
  | peek hp hnone hq =>
    refine .inl (hready.of_eq (bundles_setQueue_of_eq ?_) fun b' hb' => rfl)
    rw [PeerQueue.bundles_of_none hnone, hq]
    rfl
  | @pop d' q fate n b hp hb hst =>
    refine .inl ?_
    replace hready : Ready (s.setQueue d' q { s.queue d' q with peeked := none }) d p := hready
    by_cases hmine : d = d' ∧ p = q
    · obtain ⟨rfl, rfl⟩ := hmine
      have hbundles := bundles_setQueue_pop hb
      refine ⟨by rw [hbundles]; exact List.cons_ne_nil _ _, fun b' hb' => ?_⟩
      rw [hbundles, List.mem_cons] at hb'
      rcases hb' with rfl | hb'
      · exact hst
      · exact hready.2 b' hb'
    · exact hready.of_eq (congrArg PeerQueue.bundles (queue_setQueue.trans (if_neg hmine))) fun b' hb' => rfl
  | _ => exact .inl hready

omit [DecidableEq Peer] [DecidableEq Cpu] in
theorem KickPending.setCall (h : KickPending s d p) {c : Nat} {call call' : Call Peer} (hc : s.calls c = call)
    (hne : ∀ ref, call ≠ .handoff (.kick d p ref)) : KickPending (s.setCall c call') d p := by
  rcases h with ⟨c', ref, hc'⟩ | h
  · refine .inl ⟨c', ref, ?_⟩
    rw [calls_setCall, if_neg]
    · exact hc'
    · rintro rfl
      exact hne ref (hc.symm.trans hc')
  · exact .inr h

omit [DecidableEq Peer] in
theorem KickPending.setWorker (h : KickPending s d p) {cpu : Cpu} {w w' : Worker Peer}
    (hw : s.worker d' cpu = w) (hne : ∀ ref, w ≠ .handoff (.kick d p ref)) :
    KickPending (s.setWorker d' cpu w') d p := by
  rcases h with h | ⟨d'', cpu', ref, hw'⟩
  · exact .inl h
  · refine .inr ⟨d'', cpu', ref, ?_⟩
    rw [worker_setWorker, if_neg]
    · exact hw'
    · rintro ⟨rfl, rfl⟩
      exact hne ref (hw.symm.trans hw')

theorem served_kick (hwf : NapiWf (s.napi p) (s.consumer .rx p)) (hearly : d = .tx → ∀ n, early n)
    (hon : d = .rx → (s.napi p).disable = false ∧ (s.napi p).off = false) {ref : Nat} :
    Served early (s.handoffStep (.kick d p ref)).1 d p := by
  rcases d with _ | _
  · show ((s.setItem _ _).item _).Will _ _
    rw [item_setItem, if_pos rfl]
    exact WorkItem.will_queue (hearly rfl _)
  · obtain ⟨hdis, hoff⟩ := hon rfl
    show ((s.setNapi _ _).napi p).missed = true ∨ (s.consumer .rx p).Live ∨
      ((s.setNapi _ _).napi p).sched = true ∧ s.consumer .rx p = .idle
    rw [napi_setNapi, if_pos rfl, Napi.schedule, hdis, hoff]
    rcases hsched : (s.napi p).sched with _ | _
    · refine .inr (.inr ⟨rfl, ?_⟩)
      by_contra hne
      rw [hwf.polling hne] at hsched
      cases hsched
    · exact .inl rfl

/-- The next step of a handover wakes the serial context of `p` up, or it is another one's. -/
theorem kick_or_ne {h : Handoff Peer} (hwf : NapiWf (s.napi p) (s.consumer .rx p)) (hearly : d = .tx → ∀ n, early n)
    (hon : d = .rx → (s.napi p).disable = false ∧ (s.napi p).off = false) :
    Served early (s.handoffStep h).1 d p ∨ ∀ ref, h ≠ .kick d p ref := by
  by_cases hmine : ∃ ref, h = .kick d p ref
  · obtain ⟨ref, rfl⟩ := hmine
    exact .inl (served_kick hwf hearly hon)
  · exact .inr fun ref heq => hmine ⟨ref, heq⟩

theorem KickPending.step (h : KickPending s d p) (hidle : s.CallsIdle) (hser : s.Serial)
    (hwf : NapiWf (s.napi p) (s.consumer .rx p))
    (hearly : d = .tx → ∀ n, early n) (hon : d = .rx → (s.napi p).disable = false ∧ (s.napi p).off = false)
    (hs : Step s e t) : KickPending t d p ∨ Served early t d p := by
  cases hs with
  | steal | receiveUnknown | receive =>
    exact .inl (KickPending.setCall h (hidle _ (Nat.le_refl _)) (by rintro _ ⟨⟩))
  | noKeypair hc | getKeypair hc | reject hc | assign hc | splice hc | keypairGone hc | keypairGet hc | checkDead hc
  | noSpace hc | reserve hc | exchange hc | link hc | produce hc | ringFull hc | queueWork hc =>
    exact .inl (KickPending.setCall h hc (by rintro _ ⟨⟩))
  | @callHandoff c h' hc =>
    rcases kick_or_ne hwf hearly hon with hserved | hne
    · exact .inr hserved
    · obtain ⟨_, _, _, _, _, _, heq⟩ := s.handoffStep_eq h'
      rw [heq]
      refine .inl (KickPending.setCall h hc fun ref hkick => hne ref ?_)
      exact Call.handoff.inj hkick
  | callCleanup hc =>
    exact .inl (KickPending.setCall h hc (by rintro _ ⟨⟩))
  | startWorker hi => exact .inl (KickPending.setWorker h (hser.worker_idle hi) (by rintro _ ⟨⟩))
  | consume hw | ringEmpty hw | crypted hw | finishWorker hw =>
    exact .inl (KickPending.setWorker h hw (by rintro _ ⟨⟩))
  | @workerHandoff d' cpu h' hw =>
    rcases kick_or_ne hwf hearly hon with hserved | hne
    · exact .inr hserved
    · obtain ⟨_, _, _, _, _, _, heq⟩ := s.handoffStep_eq h'
      rw [heq]
      refine .inl (KickPending.setWorker h hw fun ref hkick => hne ref ?_)
      exact Worker.handoff.inj hkick
  | _ => exact .inl h

omit [DecidableEq Cpu] in
theorem Served.setConsumer (h : Served early s d p) (hc : c.Live) :
    Served early (s.setConsumer d' q c) d p := by
  rcases d with _ | _
  · refine WorkItem.Will.imp h fun hlive => ?_
    rw [consumer_setConsumer]
    split
    · exact hc
    · exact hlive
  · refine Or.imp_right ?_ h
    rw [consumer_setConsumer]
    split
    · exact fun _ => .inl hc
    · exact id

omit [DecidableEq Cpu] in
theorem Served.setConsumer_of_ne (h : Served early s d p)
    (hne : ¬ (d = d' ∧ p = q)) : Served early (s.setConsumer d' q c) d p := by
  rcases d with _ | _
  · show (s.item (.transmit p)).Will early ((s.setConsumer d' q c).consumer .tx p).Live
    rw [consumer_setConsumer, if_neg hne]
    exact h
  · show (s.napi p).missed = true ∨ ((s.setConsumer d' q c).consumer .rx p).Live ∨
      (s.napi p).sched = true ∧ (s.setConsumer d' q c).consumer .rx p = .idle
    rw [consumer_setConsumer, if_neg hne]
    exact h

theorem Served.setItem_crypt (h : Served early s d p) {cpu : Cpu} {w : WorkItem} :
    Served early (s.setItem (.crypt d' cpu) w) d p := by
  rcases d with _ | _
  · show ((s.setItem _ _).item _).Will _ _
    rw [item_setItem, if_neg (by rintro ⟨⟩)]
    exact h
  · exact h

omit [DecidableEq Peer] [DecidableEq Cpu] in
theorem Napi.missed_schedule (h : n.missed = true) : n.schedule.missed = true := by
  unfold schedule
  split
  · exact h
  · split
    · rfl
    · exact h

omit [DecidableEq Peer] [DecidableEq Cpu] in
theorem Napi.sched_schedule (h : n.sched = true) : n.schedule.sched = true := by
  unfold schedule
  split
  · exact h
  · exact h

theorem Served.handoffStep (h : Served early s d p) {h' : Handoff Peer} : Served early (s.handoffStep h').1 d p := by
  rcases h' with _ | _ | ⟨_ | _, q, ref⟩ | _
  · exact h
  · exact h
  · rcases d with _ | _
    · show ((s.setItem _ _).item _).Will _ _
      rw [item_setItem]
      split_ifs with heq
      · cases heq
        exact WorkItem.Will.queue h
      · exact h
    · exact h
  · rcases d with _ | _
    · exact h
    · show ((s.setNapi _ _).napi p).missed = true ∨ (s.consumer .rx p).Live ∨
        ((s.setNapi _ _).napi p).sched = true ∧ s.consumer .rx p = .idle
      rw [napi_setNapi]
      split_ifs with heq
      · subst heq
        refine Or.imp Napi.missed_schedule (Or.imp_right fun hpoll => ?_) h
        exact ⟨Napi.sched_schedule hpoll.1, hpoll.2⟩
      · exact h
  · exact h

theorem Served.change_tx (h : Served early s d p) {w : WorkItem}
    (hwill : (s.item (.transmit q)).Will early (s.consumer .tx q).Live → w.Will early c.Live) :
    Served early ((s.setItem (.transmit q) w).setConsumer .tx q c) d p := by
  rcases d with _ | _
  · show ((s.setItem _ _).item _).Will _ ((s.setConsumer .tx q c).consumer .tx p).Live
    rw [item_setItem, consumer_setConsumer]
    by_cases heq : p = q
    · subst heq
      rw [if_pos rfl, if_pos ⟨rfl, rfl⟩]
      exact hwill h
    · rw [if_neg fun hi => heq (Item.transmit.inj hi), if_neg fun hi => heq hi.2]
      exact h
  · exact Served.setConsumer_of_ne (d := .rx) h (by rintro ⟨⟨⟩, -⟩)

omit [DecidableEq Cpu] in
theorem Served.complete (h : Served early s d p) (hmissed : d = .rx → p = q → (s.napi p).missed = true) :
    Served early ((s.setNapi q (s.napi q).complete).setConsumer .rx q .idle) d p := by
  by_cases heq : d = .rx ∧ p = q
  · obtain ⟨rfl, rfl⟩ := heq
    refine .inr (.inr ⟨?_, ?_⟩)
    · show ((s.setNapi _ _).napi _).sched = true
      rw [napi_setNapi, if_pos rfl]
      exact hmissed rfl rfl
    · rw [consumer_setConsumer, if_pos ⟨rfl, rfl⟩]
  · refine Served.setConsumer_of_ne ?_ heq
    rcases d with _ | _
    · exact h
    · show ((s.setNapi _ _).napi p).missed = true ∨ (s.consumer .rx p).Live ∨
        ((s.setNapi _ _).napi p).sched = true ∧ s.consumer .rx p = .idle
      rw [napi_setNapi, if_neg fun hp => heq ⟨rfl, hp⟩]
      exact h

/-- A serial context that is to look at the queue does so; it stops when there is nothing to do. -/
theorem Served.step (h : Served early s d p) (hser : s.Serial) (hwf : NapiWf (s.napi p) (s.consumer .rx p))
    (hspend : d = .rx → e = .spend p → (s.napi p).disable = false) (hs : Step s e t) :
    Served early t d p ∨ e = .stop d p := by
  cases hs with
  | @queueWork c cpu d' q hc =>
    have hset : Served early (s.setItem (.crypt d' cpu) (s.item (.crypt d' cpu)).queue) d p := h.setItem_crypt
    exact .inl hset
  | callHandoff hc => exact .inl h.handoffStep
  | @startWorker d' cpu w hi =>
    have hset : Served early (s.setItem (.crypt d' cpu) w) d p := h.setItem_crypt
    exact .inl hset
  | workerHandoff hw => exact .inl h.handoffStep
  | @finishWorker d' cpu w hw hi =>
    have hset : Served early (s.setItem (.crypt d' cpu) w) d p := h.setItem_crypt
    exact .inl hset
  | startTx hi =>
    refine .inl (h.change_tx fun hwill => hwill.start hi ?_ trivial)
    rw [hser.consumer_idle hi]
    rintro ⟨⟩
  | startPoll => exact .inl (h.setConsumer trivial)
  | pop => exact .inl (Served.setConsumer h trivial)
  | consumerCleanup hp =>
    refine .inl (Served.setConsumer h ?_)
    rcases (s.cleanupStep _).2 with _ | _ <;> trivial
  | @stop d' q n hp hn =>
    by_cases hmine : d = d' ∧ p = q
    · obtain ⟨rfl, rfl⟩ := hmine
      exact .inr rfl
    · exact .inl (h.setConsumer_of_ne hmine)
  | finishTx hp hi =>
    refine .inl (h.change_tx fun hwill => hwill.finish hi ?_)
    rw [hp]
    rintro ⟨⟩
  | complete hp =>
    refine .inl (h.complete ?_)
    rintro rfl rfl
    rcases h with h | h | ⟨-, h⟩
    · exact h
    · rw [hp] at h
      cases h
    · rw [hp] at h
      cases h
  | spendDisabled hp hn hd =>
    refine .inl (h.complete ?_)
    rintro rfl rfl
    rw [hspend rfl rfl] at hd
    cases hd
  | @spend q n hp hd =>
    by_cases hmine : d = .rx ∧ p = q
    · obtain ⟨rfl, rfl⟩ := hmine
      refine .inl (.inr (.inr ⟨hwf.polling ?_, ?_⟩))
      · rw [hp]
        rintro ⟨⟩
      · rw [consumer_setConsumer, if_pos ⟨rfl, rfl⟩]
    · exact .inl (h.setConsumer_of_ne hmine)
  | _ => exact .inl h

omit [DecidableEq Cpu] in
/-- The bundle of a producer between its exchange and its link store is not ready. -/
theorem Ready.not_linking (hinv : Inv s) (h : Ready s d p) : s.linking d p = false := by
  unfold linking
  rw [List.any_eq_false]
  intro c _
  split
  case h_1 b hc =>
    rw [Bool.and_eq_true, decide_eq_true_eq, decide_eq_true_eq]
    rintro ⟨rfl, rfl⟩
    have hwait : s.Awaiting b := by
      refine hinv.awaited.mem (k := .call c) ?_
      show b ∈ Call.awaited (s.calls c)
      rw [hc]
      exact List.mem_singleton_self b
    exact h.2 b hwait.1 hwait.2
  · rintro ⟨⟩

omit [DecidableEq Cpu] in
theorem Ready.not_nothingToDo (hinv : Inv s) (h : Ready s d p) : s.nothingToDo d p = false := by
  unfold nothingToDo
  rcases hpeek : (s.queue d p).peeked with _ | b
  · have hne := h.1
    rw [PeerQueue.bundles_of_none hpeek] at hne
    simp only [h.not_linking hinv, Bool.or_false]
    rw [List.isEmpty_eq_false_iff]
    exact hne
  · refine decide_eq_false (h.2 b ?_)
    rw [PeerQueue.bundles_of_peeked hpeek]
    exact List.mem_cons_self

/-- Bundles that are all ready will be looked at. -/
def Attended (early : Nat → Prop) (s : PacketPipeline Peer Cpu) (d : Dir) (p : Peer) : Prop :=
  Ready s d p → KickPending s d p ∨ Served early s d p

theorem Attended.step (h : Attended early s d p) (hinv : Inv s) (hwf : NapiWf (s.napi p) (s.consumer .rx p))
    (hearly : KickPending s d p → d = .tx → ∀ n, early n)
    (hon : KickPending s d p → d = .rx → (s.napi p).disable = false ∧ (s.napi p).off = false)
    (hspend : d = .rx → e = .spend p → (s.napi p).disable = false) (hs : Step s e t) : Attended early t d p := by
  intro hready
  rcases ready_step hinv hs hready with hready' | hkick
  · rcases h hready' with hkick | hserved
    · exact hkick.step hinv.idle hinv.serial hwf (hearly hkick) (hon hkick) hs
    · rcases hserved.step hinv.serial hwf hspend hs with hserved | rfl
      · exact .inr hserved
      · cases hs with
        | stop hp hn =>
          rw [hready'.not_nothingToDo hinv] at hn
          cases hn
  · exact .inl hkick

omit [DecidableEq Peer] [DecidableEq Cpu] in
theorem NapiWf.schedule (h : NapiWf n c) : NapiWf n.schedule c := by
  refine ⟨fun hm => ?_, fun hne => Napi.sched_schedule (h.polling hne)⟩
  unfold Napi.schedule at hm ⊢
  split at hm
  · rw [if_pos ‹_›]
    exact h.missed hm
  · rw [if_neg ‹_›]
    split
    · assumption
    · rfl

omit [DecidableEq Cpu] in
theorem NapiWf.setConsumer (h : NapiWf (s.napi p) (s.consumer .rx p)) {c' : Consumer Peer}
    (hp : s.consumer d' q = c) (hne : c ≠ .idle) :
    NapiWf ((s.setConsumer d' q c').napi p) ((s.setConsumer d' q c').consumer .rx p) := by
  rw [consumer_setConsumer]
  split_ifs with heq
  · obtain ⟨rfl, rfl⟩ := heq
    refine ⟨h.missed, fun _ => h.polling ?_⟩
    rw [hp]
    exact hne
  · exact h

omit [DecidableEq Cpu] in
theorem NapiWf.complete (h : NapiWf (s.napi p) (s.consumer .rx p)) :
    NapiWf (((s.setNapi q (s.napi q).complete).setConsumer .rx q .idle).napi p)
      (((s.setNapi q (s.napi q).complete).setConsumer .rx q .idle).consumer .rx p) := by
  show NapiWf ((s.setNapi q _).napi p) ((s.setConsumer .rx q .idle).consumer .rx p)
  rw [napi_setNapi, consumer_setConsumer]
  by_cases heq : p = q
  · rw [if_pos heq, if_pos ⟨rfl, heq⟩]
    exact ⟨by rintro ⟨⟩, fun hne => absurd rfl hne⟩
  · rw [if_neg heq, if_neg fun h => heq h.2]
    exact h

theorem NapiWf.handoffStep (h : NapiWf (s.napi p) (s.consumer .rx p)) {h' : Handoff Peer} :
    NapiWf ((s.handoffStep h').1.napi p) ((s.handoffStep h').1.consumer .rx p) := by
  rcases h' with _ | _ | ⟨_ | _, q, ref⟩ | _
  · exact h
  · exact h
  · exact h
  · show NapiWf ((s.setNapi q _).napi p) (s.consumer .rx p)
    rw [napi_setNapi]
    split_ifs with heq
    · rw [← heq]
      exact h.schedule
    · exact h
  · exact h

theorem NapiWf.step (h : NapiWf (s.napi p) (s.consumer .rx p)) (hs : Step s e t) :
    NapiWf (t.napi p) (t.consumer .rx p) := by
  cases hs with
  | callHandoff | workerHandoff => exact h.handoffStep
  | @startTx q w hi =>
    show NapiWf (s.napi p) ((s.setConsumer .tx q _).consumer .rx p)
    rw [consumer_setConsumer, if_neg (by rintro ⟨⟨⟩, -⟩)]
    exact h
  | @startPoll q hp hsched hoff =>
    rw [consumer_setConsumer]
    split_ifs with heq
    · obtain ⟨-, rfl⟩ := heq
      exact ⟨h.missed, fun _ => hsched⟩
    · exact h
  | pop hp => exact NapiWf.setConsumer h hp (by rintro ⟨⟩)
  | consumerCleanup hp | stop hp | spend hp | finishTx hp => exact NapiWf.setConsumer h hp (by rintro ⟨⟩)
  | complete | spendDisabled => exact h.complete
  | _ => exact h

end

end PacketPipeline
end WireguardAes
