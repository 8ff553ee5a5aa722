import WireguardAes.PipelineCrypting

/-!
# Who holds the packets and the references of the pipeline

A packet that has been accepted is at one place at a time, until it is sent, delivered or freed; a
reference that has been taken is held at one place until it is put, on the object that it was taken
of. The bundles of a peer leave its queue in the order in which they came.
-/

namespace WireguardAes
namespace PacketPipeline

open Function Runs

variable {Peer Cpu : Type}

inductive Token (Peer : Type) where
  | packet (x : Packet)
  | ref (r : Ref Peer)
deriving DecidableEq

def Bundle.tokens (b : Bundle Peer) : List (Token Peer) :=
  b.packets.map .packet ++ (putRefs b b.peer).map .ref

def Cleanup.tokens (l : Cleanup Peer) : List (Token Peer) :=
  l.packets.map .packet ++ (l.before ++ l.after).map .ref

def Handoff.tokens : Handoff Peer → List (Token Peer)
  | .get _ _ => []
  | .set b _ ref => [.ref ⟨ref, .peer b.peer⟩]
  | .kick _ p ref | .put p ref => [.ref ⟨ref, .peer p⟩]

def Call.tokens : Call Peer → List (Token Peer)
  | .stolen _ xs | .outNokey _ xs => xs.map .packet
  | .keyed _ xs k ref => xs.map .packet ++ [.ref ⟨ref, .keypair k⟩]
  | .looked x k ref => [.packet x, .ref ⟨ref, .peer k.peer⟩]
  | .create b | .enqueue b | .reserved b => b.tokens
  | .handoff h => h.tokens
  | .cleanup l => l.tokens
  | .idle | .unlinked _ | .queued _ | .produced _ _ => []

def Worker.tokens : Worker Peer → List (Token Peer)
  | .handoff h => h.tokens
  | .idle | .looping | .crypting _ | .exiting => []

def Consumer.tokens : Consumer Peer → List (Token Peer)
  | .cleanup l _ => l.tokens
  | .idle | .looping _ | .exiting => []

/-- A packet is held by the staged queue, by a call until its bundle is in the queue of the peer, by
that queue, by the serial context that takes it out, and in the end it is released. -/
def tokens : Account Peer (Token Peer) where
  staged xs := xs.map .packet
  call := Call.tokens
  queue bs := bs.flatMap Bundle.tokens
  ring _ := []
  worker := Worker.tokens
  consumer := Consumer.tokens
  released xs := xs.map .packet
  puts rs := rs.map .ref

/-- The packets accepted and the references taken, so far. -/
def Known (s : PacketPipeline Peer Cpu) : Token Peer → Prop
  | .packet x => x ∈ s.accepted
  | .ref r => r ∈ s.gets

theorem tokens_doneCleanup {d : Dir} {p : Peer} {b : Bundle Peer} {state : PacketState} {fate : Option Fate}
    (hp : b.peer = p) : (doneCleanup d p b state fate).tokens = b.tokens := by
  subst hp
  rcases d with _ | _ <;> rcases state with _ | _ | _ <;> rcases fate with _ | _ <;> rfl

section
variable {s : PacketPipeline Peer Cpu}

theorem known_accept {xs : List Packet} {t : Token Peer} :
    (s.accept xs).Known t ↔ s.Known t ∨ t ∈ xs.map Token.packet := by
  cases t <;> simp [Known, accept]

theorem known_get {o : RefObject Peer} {t : Token Peer} :
    (s.get o).Known t ↔ s.Known t ∨ t ∈ [Token.ref ⟨s.nextRef, o⟩] := by
  cases t <;> simp [Known, get]

/-- The numbers of the references are new. -/
structure RefsFresh (s : PacketPipeline Peer Cpu) : Prop where
  lt : ∀ r ∈ s.gets, r.number < s.nextRef
  nodup : s.gets.Nodup

theorem RefsFresh.not_known (h : s.RefsFresh) {o : RefObject Peer} : ∀ t ∈ [Token.ref ⟨s.nextRef, o⟩], ¬ s.Known t := by
  intro t ht hk
  cases List.mem_singleton.mp ht
  exact Nat.lt_irrefl _ (h.lt _ hk)

theorem RefsFresh.get (h : s.RefsFresh) (o : RefObject Peer) : (s.get o).RefsFresh := by
  refine ⟨fun r hr => ?_, ?_⟩
  · rcases List.mem_append.mp hr with hr | hr
    · exact Nat.lt_succ_of_lt (h.lt r hr)
    · cases List.mem_singleton.mp hr
      exact Nat.lt_succ_self _
  · refine List.nodup_append'.mpr ⟨h.nodup, List.nodup_singleton _, fun r hr hr' => ?_⟩
    cases List.mem_singleton.mp hr'
    exact Nat.lt_irrefl _ (h.lt _ hr)

end

section
variable [DecidableEq Peer] [DecidableEq Cpu] {s t : PacketPipeline Peer Cpu} {e : Event Peer Cpu}
variable {k : Place Peer Cpu}

/-- The place `k` runs a step of `wg_queue_enqueue_per_peer_tx` or `_rx`. -/
theorem custody_handoffStep {h : Handoff Peer} (hcus : Custody (tokens.held s) s.Known)
    (hf : s.RefsFresh) (hk : tokens.held s k = h.tokens) (hputs : k ≠ .puts) :
    Custody (update (tokens.held (s.handoffStep h).1) k ((s.handoffStep h).2.elim [] Handoff.tokens))
      (s.handoffStep h).1.Known := by
  cases h with
  | get b ok =>
    refine hcus.enter (List.nodup_singleton _) hf.not_known ?_ fun t => known_get
    rw [hk]
    exact .refl _
  | set b ok ref => exact hcus.perm (.of_eq hk.symm)
  | kick d p ref => rcases d with _ | _ <;> exact hcus.perm (.of_eq hk.symm)
  | put p ref =>
    show Custody (update (tokens.held (s.put _)) k []) s.Known
    rw [held_put]
    refine hcus.move hputs.symm ?_
    rw [hk, List.append_nil]
    exact .of_eq List.map_append

theorem custody_cleanupStep {l : Cleanup Peer} (hcus : Custody (tokens.held s) s.Known)
    (hk : tokens.held s k = l.tokens) (hputs : k ≠ .puts) (hrel : k ≠ l.fate.place) :
    Custody (update (tokens.held (s.cleanupStep l).1) k ((s.cleanupStep l).2.elim [] Cleanup.tokens))
      (s.cleanupStep l).1.Known := by
  obtain ⟨before, packets, fate, after⟩ := l
  rcases before with _ | ⟨r, before⟩
  · rcases packets with _ | ⟨x, packets⟩
    · rcases after with _ | ⟨r, after⟩
      · exact hcus.perm (.of_eq hk.symm)
      · show Custody (update (tokens.held (s.put r)) k (Cleanup.tokens ⟨[], [], fate, after⟩)) s.Known
        rw [held_put]
        refine hcus.move hputs.symm ?_
        rw [hk]
        simp [tokens, Cleanup.tokens, Account.held]
    · show Custody (update (tokens.held (s.release [x] fate)) k (Cleanup.tokens ⟨[], packets, fate, after⟩))
        (s.release [x] fate).Known
      rw [held_release]
      refine (hcus.move hrel.symm ?_).all_congr fun t => ?_
      · rw [hk]
        rcases fate with _ | _ <;> simp [tokens, Cleanup.tokens, Account.held, Fate.place]
      · rcases fate with _ | _ <;> rcases t with _ | _ <;> rfl
  · show Custody (update (tokens.held (s.put r)) k (Cleanup.tokens ⟨before, packets, fate, after⟩)) s.Known
    rw [held_put]
    refine hcus.move hputs.symm ?_
    rw [hk]
    simp only [tokens, Cleanup.tokens, Account.held, List.map_append, List.map_cons, List.map_nil, List.append_assoc,
      List.cons_append, List.nil_append]
    exact .append_left _ List.perm_middle.symm

theorem custody_get {c : Nat} {o : RefObject Peer} {call : Call Peer} (hcus : Custody (tokens.held s) s.Known)
    (hf : s.RefsFresh) (hperm : call.tokens.Perm (.ref ⟨s.nextRef, o⟩ :: (s.calls c).tokens)) :
    Custody (tokens.held ((s.get o).setCall c call)) (s.get o).Known := by
  rw [held_setCall]
  exact hcus.enter (List.nodup_singleton _) hf.not_known hperm fun t => known_get

omit [DecidableEq Peer] [DecidableEq Cpu] in
theorem CallsIdle.tokens_eq_nil (h : s.CallsIdle) : tokens.held s (.call s.nextCall) = [] :=
  congrArg Call.tokens (h _ (Nat.le_refl _))

theorem custody_accept {f : Place Peer Cpu → List (Token Peer)} {xs : List Packet}
    {ts : List (Token Peer)} (hcus : Custody f s.Known) (hxs : xs.Nodup) (hnew : ∀ x ∈ xs, x ∉ s.accepted)
    (hperm : ts.Perm (xs.map .packet ++ f k)) : Custody (update f k ts) (s.accept xs).Known := by
  refine hcus.enter (hxs.map fun x y hxy => Token.packet.inj hxy) (fun t ht hk => ?_) hperm fun t => known_accept
  obtain ⟨x, hx, rfl⟩ := List.mem_map.mp ht
  exact hnew x hx hk

theorem custody_step (hcus : Custody (tokens.held s) s.Known) (hf : s.RefsFresh) (hidle : s.CallsIdle) (hh : s.Homed)
    (hser : s.Serial) (hs : Step s e t) : Custody (tokens.held t) t.Known := by
  cases hs with
  | @xmit p xs hxs hnew =>
    generalize (s.staged p).length - maxStagedPackets = n
    show Custody (tokens.held ((s.release _ .freed).setStaged p _)) (s.accept xs).Known
    rw [held_setStaged, held_release, ← update_idem]
    -- the oldest packets go, and then the new ones come
    have hdrop : Custody (update (update (tokens.held s) Fate.freed.place
        ((s.freed ++ (s.staged p).take n).map .packet)) (.staged p) (((s.staged p).drop n).map .packet)) s.Known := by
      refine hcus.move (by rintro ⟨⟩) (.of_eq ?_)
      rw [List.map_append, List.append_assoc, ← List.map_append, List.take_append_drop]
      rfl
    refine custody_accept hdrop hxs hnew ?_
    rw [update_self]
    exact (List.Perm.of_eq List.map_append).trans List.perm_append_comm
  | @keepalive p x hnew =>
    show Custody (tokens.held (s.setStaged p _)) (s.accept [x]).Known
    rw [held_setStaged]
    refine custody_accept hcus (List.nodup_singleton x) (List.forall_mem_singleton.mpr hnew) ?_
    exact (List.Perm.of_eq List.map_append).trans List.perm_append_comm
  | @purge p =>
    rw [held_setStaged, held_release]
    refine hcus.move (by rintro ⟨⟩) ?_
    simp [tokens, Account.held, Fate.place]
  | die => exact hcus
  | @steal p hne =>
    show Custody (tokens.held ((s.setStaged p []).setCall s.nextCall _)) s.Known
    rw [held_setCall, held_setStaged]
    refine hcus.move (by rintro ⟨⟩) ?_
    rw [hidle.tokens_eq_nil, List.append_nil]
    exact .refl _
  | noKeypair hc | keypairGone hc | noSpace hc | link hc | produce hc | ringFull hc | queueWork hc =>
    rw [held_setCall_of_eq tokens (by exact congrArg Call.tokens hc.symm)]
    exact hcus
  | getKeypair hc hk =>
    refine custody_get hcus hf ?_
    rw [hc]
    exact List.perm_append_comm
  | @reject c p xs k ref hc =>
    rw [held_setCall, held_put]
    refine hcus.move (by rintro ⟨⟩) ?_
    show List.Perm _ (_ ++ Call.tokens (s.calls c))
    rw [hc]
    simp only [tokens, Account.held, Call.tokens, List.map_append, List.append_assoc]
    exact .append_left _ List.perm_append_comm
  | assign hc =>
    refine custody_get hcus hf ?_
    rw [hc]
    simp only [Call.tokens, Bundle.tokens, putRefs, List.map_cons, List.map_nil]
    rw [← List.singleton_append, ← List.append_assoc]
    exact List.perm_append_comm
  | @splice c p xs hc =>
    rw [held_setCall, held_setStaged]
    refine hcus.move (by rintro ⟨⟩) ?_
    show List.Perm _ (_ ++ Call.tokens (s.calls c))
    rw [hc]
    simp only [tokens, Account.held, Call.tokens, List.map_append, List.append_nil]
    exact List.perm_append_comm
  | @receiveUnknown x hnew =>
    show Custody (tokens.held (s.setCall s.nextCall _)) (s.accept [x]).Known
    rw [held_setCall]
    refine custody_accept hcus (List.nodup_singleton x) (List.forall_mem_singleton.mpr hnew) ?_
    rw [hidle.tokens_eq_nil]
    exact .refl _
  | @receive x k hnew =>
    show Custody (tokens.held (s.setCall s.nextCall _)) ((s.accept [x]).get (.peer k.peer)).Known
    rw [held_setCall, ← update_idem]
    -- the packet comes to the call, and then the reference
    have hacc : Custody (update (tokens.held s) (.call s.nextCall) [.packet x]) (s.accept [x]).Known := by
      refine custody_accept hcus (List.nodup_singleton x) (List.forall_mem_singleton.mpr hnew) ?_
      rw [hidle.tokens_eq_nil]
      exact .refl _
    have hf' : (s.accept [x]).RefsFresh := ⟨hf.lt, hf.nodup⟩
    refine hacc.enter (List.nodup_singleton _) hf'.not_known ?_ fun t => known_get
    rw [update_self]
    exact .swap ..
  | keypairGet hc =>
    refine custody_get hcus hf ?_
    rw [hc]
    exact .swap ..
  | @checkDead c b hc =>
    rw [held_setCall_of_eq tokens (by rw [hc]; split <;> rfl)]
    exact hcus
  | @reserve c b hc =>
    rw [held_setCall_of_eq tokens (by exact congrArg Call.tokens hc.symm),
      held_setQueue_of_eq tokens (by rfl)]
    exact hcus
  | @exchange c b hc =>
    show Custody (tokens.held ((s.setQueue _ _ _).setCall c _)) s.Known
    rw [held_setCall, held_setQueue]
    refine hcus.move (by rintro ⟨⟩) ?_
    show List.Perm _ (_ ++ Call.tokens (s.calls c))
    rw [hc]
    simp [tokens, Account.held, Call.tokens, PeerQueue.bundles]
  | @callHandoff c h hc =>
    rw [held_setCall]
    show Custody (update _ _ (Call.tokens _)) _
    rw [← Option.elim_comp Call.tokens]
    exact custody_handoffStep (k := .call c) hcus hf (congrArg Call.tokens hc) (by rintro ⟨⟩)
  | @callCleanup c l _ _ _ hc heq =>
    rw [← heq, held_setCall]
    show Custody (update _ _ (Call.tokens _)) _
    rw [← Option.elim_comp Call.tokens]
    exact custody_cleanupStep (k := .call c) hcus (congrArg Call.tokens hc) (by rintro ⟨⟩)
      (by rcases l.fate with _ | _ <;> rintro ⟨⟩)
  | startWorker hi =>
    rw [held_setWorker_of_eq tokens (by exact congrArg Worker.tokens (hser.worker_idle hi).symm)]
    exact hcus
  | consume hw | ringEmpty hw | crypted hw | finishWorker hw =>
    rw [held_setWorker_of_eq tokens (by exact congrArg Worker.tokens hw.symm)]
    exact hcus
  | @workerHandoff d cpu h hw =>
    rw [held_setWorker]
    show Custody (update _ _ (Worker.tokens _)) _
    rw [← Option.elim_comp Worker.tokens]
    exact custody_handoffStep (k := .worker d cpu) hcus hf (congrArg Worker.tokens hw) (by rintro ⟨⟩)
  | startTx hi =>
    rw [held_setConsumer_of_eq tokens (by exact congrArg Consumer.tokens (hser.consumer_idle hi).symm)]
    exact hcus
  | startPoll hp | stop hp | finishTx hp | complete hp | spendDisabled hp | spend hp =>
    rw [held_setConsumer_of_eq tokens (by exact congrArg Consumer.tokens hp.symm)]
    exact hcus
  | peek hp hnone hq =>
    rw [held_setQueue_of_eq tokens (by rw [PeerQueue.bundles_of_none hnone, hq]; rfl)]
    exact hcus
  | @pop d p fate n b hp hb hst =>
    show Custody (tokens.held ((s.setQueue d p _).setConsumer d p _)) s.Known
    rw [held_setConsumer, held_setQueue]
    refine hcus.move (by rintro ⟨⟩) ?_
    have hbundles := PeerQueue.bundles_of_peeked hb
    obtain ⟨-, rfl⟩ := hh d p b (by rw [hbundles]; exact List.mem_cons_self)
    show List.Perm (_ ++ (doneCleanup ..).tokens) (tokens.queue (s.queue d _).bundles ++
      Consumer.tokens (s.consumer d _))
    rw [hp, hbundles, tokens_doneCleanup rfl]
    simp only [tokens, PeerQueue.bundles, Consumer.tokens, Option.toList_none, List.nil_append, List.flatMap_cons,
      List.append_nil]
    exact List.perm_append_comm
  | @consumerCleanup d p l n _ _ _ hp heq =>
    rw [← heq, held_setConsumer]
    show Custody (update _ _ (Consumer.tokens _)) _
    rw [← Option.elim_comp Consumer.tokens]
    exact custody_cleanupStep (k := .consumer d p) hcus (congrArg Consumer.tokens hp) (by rintro ⟨⟩)
      (by rcases l.fate with _ | _ <;> rintro ⟨⟩)

theorem RefsFresh.handoffStep (h : s.RefsFresh) {h' : Handoff Peer} : (s.handoffStep h').1.RefsFresh := by
  rcases h' with _ | _ | ⟨_ | _, p, ref⟩ | _
  · exact h.get _
  · exact ⟨h.lt, h.nodup⟩
  · exact ⟨h.lt, h.nodup⟩
  · exact ⟨h.lt, h.nodup⟩
  · exact ⟨h.lt, h.nodup⟩

theorem RefsFresh.step (h : s.RefsFresh) (hs : Step s e t) : t.RefsFresh := by
  cases hs with
  | getKeypair | assign | keypairGet | receive => exact ⟨(h.get _).lt, (h.get _).nodup⟩
  | callHandoff | workerHandoff => exact ⟨h.handoffStep.lt, h.handoffStep.nodup⟩
  | _ => exact ⟨h.lt, h.nodup⟩

/-! ### Whole runs -/

structure Inv (s : PacketPipeline Peer Cpu) : Prop where
  tokens : Custody (tokens.held s) s.Known
  awaited : Custody (awaited.held s) s.Awaiting
  ids : Numbered (ids.held s) s.nextBundle
  refs : s.RefsFresh
  reserved : s.ReservedUncrypted
  idle : s.CallsIdle
  serial : s.Serial
  homed : s.Homed
  inOrder : s.InOrder

omit [DecidableEq Peer] [DecidableEq Cpu] in
theorem Inv.init : Inv (.init : PacketPipeline Peer Cpu) where
  tokens := .of_nil (fun k => by cases k <;> rfl) fun t => by cases t <;> rintro ⟨⟩
  awaited := .of_nil (fun k => by cases k <;> rfl) (by rintro b ⟨⟨⟩, -⟩)
  ids := .of_nil fun k => by cases k <;> rfl
  refs := ⟨by rintro r ⟨⟩, List.nodup_nil⟩
  reserved := by rintro c b ⟨⟩
  idle _ _ := rfl
  serial i := by cases i <;> exact iff_of_false (by rintro ⟨⟩) fun hne => hne rfl
  homed := by rintro d p b ⟨⟩
  inOrder _ _ := rfl

theorem Inv.step (h : Inv s) (hs : Step s e t) : Inv t where
  tokens := custody_step h.tokens h.refs h.idle h.homed h.serial hs
  awaited := awaited_step h.awaited h.ids.toExclusive h.reserved h.idle h.serial hs
  ids := numbered_step h.ids hs
  refs := h.refs.step hs
  reserved := h.reserved.step h.awaited h.ids.toExclusive hs
  idle := h.idle.step hs
  serial := h.serial.step hs
  homed := h.homed.step (queue_step hs)
  inOrder := h.inOrder.step (queue_step hs)

theorem Inv.run (h : Exec PacketPipeline.step (fun _ _ => True) .init s) : Inv s :=
  h.inv Inv.init fun _ _ _ _ h hs => h.step (step_cases hs)

/-- Nothing is under way: all contexts are idle and the queues of the peers are empty. -/
structure AtRest (s : PacketPipeline Peer Cpu) : Prop where
  calls : ∀ c, s.calls c = .idle
  queue : ∀ d p, (s.queue d p).bundles = []
  worker : ∀ d cpu, s.worker d cpu = .idle
  consumer : ∀ d p, s.consumer d p = .idle

omit [DecidableEq Peer] [DecidableEq Cpu] in
theorem AtRest.eq_puts (h : s.AtRest) {r : Ref Peer} (hk : .ref r ∈ PacketPipeline.tokens.held s k) :
    k = .puts := by
  cases k with
  | staged p => simp [PacketPipeline.tokens, Account.held] at hk
  | call c => simp [PacketPipeline.tokens, Account.held, h.calls, Call.tokens] at hk
  | queue d p => simp [PacketPipeline.tokens, Account.held, h.queue] at hk
  | ring d => simp [PacketPipeline.tokens, Account.held] at hk
  | worker d cpu => simp [PacketPipeline.tokens, Account.held, h.worker, Worker.tokens] at hk
  | consumer d p => simp [PacketPipeline.tokens, Account.held, h.consumer, Consumer.tokens] at hk
  | sent => simp [PacketPipeline.tokens, Account.held] at hk
  | freed => simp [PacketPipeline.tokens, Account.held] at hk
  | puts => rfl

omit [DecidableEq Peer] [DecidableEq Cpu] in
theorem Inv.released_nodup (h : Inv s) : (s.sent ++ s.freed).Nodup := by
  have hnodup := h.tokens.toExclusive.nodup_append (a := .sent) (b := .freed) (by rintro ⟨⟩)
  have hmap : ((s.sent ++ s.freed).map (Token.packet : Packet → Token Peer)).Nodup := by
    rw [List.map_append]
    exact hnodup
  exact hmap.of_map _

omit [DecidableEq Peer] [DecidableEq Cpu] in
theorem Inv.puts_nodup (h : Inv s) : s.puts.Nodup := List.Nodup.of_map Token.ref (h.tokens.nodup .puts)

omit [DecidableEq Peer] [DecidableEq Cpu] in
theorem mem_tokens_puts {r : Ref Peer} : .ref r ∈ PacketPipeline.tokens.held s .puts ↔ r ∈ s.puts :=
  List.mem_map_of_injective fun _ _ h => Token.ref.inj h

omit [DecidableEq Peer] [DecidableEq Cpu] in
theorem Inv.puts_perm (h : Inv s) (hrest : s.AtRest) : s.puts.Perm s.gets := by
  refine (List.perm_ext_iff_of_nodup h.puts_nodup h.refs.nodup).mpr fun r => ?_
  refine (mem_tokens_puts (s := s)).symm.trans ⟨fun hr => h.tokens.mem hr, fun hr => ?_⟩
  obtain ⟨k, hk⟩ := (h.tokens.covers (.ref r)).mp hr
  rw [← hrest.eq_puts hk]
  exact hk

structure Accounted (s : PacketPipeline Peer Cpu) : Prop where
  /-- A packet that was accepted is at one place: a staged queue, a call that has stolen it or that
  has it on its way to the queue of the peer, that queue, the serial context that has taken it out,
  sent or delivered, or freed. -/
  packet : ∀ x ∈ s.accepted, ∃! k, .packet x ∈ tokens.held s k
  /-- A reference that was taken is held at one place, or it is put. -/
  ref : ∀ r ∈ s.gets, ∃! k, .ref r ∈ tokens.held s k
  nodup : ∀ k, (tokens.held s k).Nodup
  released : (s.sent ++ s.freed).Nodup
  puts : s.puts.Nodup ∧ ∀ r ∈ s.puts, r ∈ s.gets
  putAll : s.AtRest → s.puts.Perm s.gets
  /-- A bundle that waits in the queue of its peer has one other holder, which will set its state
  word. -/
  awaiting : ∀ b, s.Awaiting b → ∃! k, b ∈ awaited.held s k
  /-- The ring, the workers and the calls have no other bundles of the queues. -/
  awaited : ∀ k, (awaited.held s k).Nodup ∧ ∀ b ∈ awaited.held s k, s.Awaiting b
  order : ∀ d p, s.left d p <+: s.entered d p

/-- Packets and references are accounted for, whatever the contexts of the pipeline do, in any
order. -/
theorem accounted_after_run (h : Exec step (fun _ _ => True) init s) : s.Accounted := by
  have hinv := Inv.run h
  exact {
    packet := fun x hx => hinv.tokens.existsUnique (x := .packet x) hx
    ref := fun r hr => hinv.tokens.existsUnique (x := .ref r) hr
    nodup := hinv.tokens.nodup
    released := hinv.released_nodup
    puts := ⟨hinv.puts_nodup, fun r hr => hinv.tokens.mem (mem_tokens_puts.mpr hr)⟩
    putAll := hinv.puts_perm
    awaiting := fun b hb => hinv.awaited.existsUnique hb
    awaited := fun k => ⟨hinv.awaited.nodup k, fun b hb => hinv.awaited.mem hb⟩
    order := fun d p => ⟨_, (hinv.inOrder d p).symm⟩ }

/-- Two CPUs encrypt two bundles of a peer; the second is ready first, and the first is sent
first. -/
theorem accounted_after_run_overtaken : ∃ s : PacketPipeline Unit Bool,
    Exec step (fun _ _ => True) init s ∧ (s.sent, s.freed, s.gets.length) = ([1, 2, 3], [], 6) ∧ s.Accounted := by
  have hrun : ∃ s : PacketPipeline Unit Bool, Exec step (fun _ _ => True) init s ∧
      (s.sent, s.freed, s.gets.length) = ([1, 2, 3], [], 6) :=
    Exec.exists_of_foldlM [
      .xmit () [1, 2], .steal (), .getKeypair 0 (some ⟨(), 0⟩), .assign 0, .checkDead 0, .reserve 0,
        .exchange 0, .link 0,
      .produce 0, .queueWork 0 false, .startWorker .tx false, .consume .tx false false,
      .xmit () [3], .steal (), .getKeypair 1 (some ⟨(), 0⟩), .assign 1, .checkDead 1, .reserve 1, .exchange 1, .link 1,
      .produce 1, .queueWork 1 true, .startWorker .tx true, .consume .tx true false,
      .crypted .tx true true, .workerHandoff .tx true, .workerHandoff .tx true, .workerHandoff .tx true, .startTx (),
      .peek .tx (), .stop .tx (), .finishTx (),
      .crypted .tx false true, .workerHandoff .tx false, .workerHandoff .tx false,
        .workerHandoff .tx false, .startTx (),
      .pop .tx () none, .consumerCleanup .tx (), .consumerCleanup .tx (), .consumerCleanup .tx (),
      .consumerCleanup .tx (), .consumerCleanup .tx (), .peek .tx (), .pop .tx () none, .consumerCleanup .tx ()]
      (fun s : PacketPipeline Unit Bool => (s.sent, s.freed, s.gets.length)) (by decide +kernel)
  obtain ⟨s, hs, hshown⟩ := hrun
  exact ⟨s, hs, hshown, accounted_after_run hs⟩

end

end PacketPipeline
end WireguardAes
