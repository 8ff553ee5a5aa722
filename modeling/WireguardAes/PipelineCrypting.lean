import WireguardAes.PipelinePlaces
import WireguardAes.Lib.Custody

/-!
# The bundles that wait for a crypt worker

While its state word says `PACKET_STATE_UNCRYPTED`, a bundle in the queue of its peer is also with
one call, in the ring of the device or with one worker, and these have no other bundles: nobody
reaches a bundle that its peer has taken out, and the state word of each is set once.
-/

namespace WireguardAes

open Function

namespace PacketPipeline

variable {Peer Cpu : Type}

def Handoff.awaited : Handoff Peer → List (Bundle Peer)
  | .get b _ | .set b _ _ => [b]
  | .kick _ _ _ | .put _ _ => []

def Call.awaited : Call Peer → List (Bundle Peer)
  | .unlinked b | .queued b => [b]
  | .handoff h => h.awaited
  | _ => []

def Worker.awaited : Worker Peer → List (Bundle Peer)
  | .crypting b => [b]
  | .handoff h => h.awaited
  | .idle | .looping | .exiting => []

/-- The bundles whose state word is still to be set, where that will be done from. -/
def awaited : Account Peer (Bundle Peer) where
  staged _ := []
  call := Call.awaited
  queue _ := []
  ring bs := bs
  worker := Worker.awaited
  consumer _ := []
  released _ := []
  puts _ := []

def Awaiting (s : PacketPipeline Peer Cpu) (b : Bundle Peer) : Prop :=
  b ∈ (s.queue b.dir b.peer).bundles ∧ s.state b.id = .uncrypted

/-! ### The numbers of the bundles -/

def Call.ids : Call Peer → List Nat
  | .create b | .enqueue b | .reserved b => [b.id]
  | _ => []

/-- The numbers of the bundles on their way to the queue of a peer and in it. -/
def ids : Account Peer Nat where
  staged _ := []
  call := Call.ids
  queue bs := bs.map Bundle.id
  ring _ := []
  worker _ := []
  consumer _ := []
  released _ := []
  puts _ := []

section
variable [DecidableEq Peer] [DecidableEq Cpu] {s t : PacketPipeline Peer Cpu} {e : Event Peer Cpu}
variable {d : Dir} {p : Peer} {b b' : Bundle Peer} {c : Nat}

omit [DecidableEq Peer] [DecidableEq Cpu] in
theorem Call.ids_elim {β : Type} {f : β → Call Peer} (hf : ∀ x, (f x).ids = []) (o : Option β) :
    (o.elim .idle f).ids = [] := by
  cases o with
  | none => rfl
  | some x => exact hf x

theorem numbered_step (h : Numbered (ids.held s) s.nextBundle) (hs : Step s e t) :
    Numbered (ids.held t) t.nextBundle := by
  cases hs with
  | noKeypair | keypairGone | link | ringFull | splice | getKeypair | reject | noSpace | produce | queueWork =>
    rw [held_setCall]
    exact h.sublist (List.nil_sublist _)
  | @steal p hne =>
    show Numbered (ids.held ((s.setStaged p []).setCall s.nextCall _)) s.nextBundle
    rw [held_setCall]
    exact h.sublist (List.nil_sublist _)
  | @receiveUnknown x hnew =>
    show Numbered (ids.held (s.setCall s.nextCall _)) s.nextBundle
    rw [held_setCall]
    exact h.sublist (List.nil_sublist _)
  | @receive x k hnew =>
    show Numbered (ids.held (s.setCall s.nextCall _)) s.nextBundle
    rw [held_setCall]
    exact h.sublist (List.nil_sublist _)
  | @assign c p xs k ref hc =>
    show Numbered (ids.held (s.setCall c (.create ⟨s.nextBundle, .tx, k, xs, ref, s.nextRef⟩))) (s.nextBundle + 1)
    rw [held_setCall]
    exact h.enter (congrArg Call.ids hc)
  | @keypairGet c x k ref hc =>
    show Numbered (ids.held (s.setCall c (.create ⟨s.nextBundle, .rx, k, [x], s.nextRef, ref⟩))) (s.nextBundle + 1)
    rw [held_setCall]
    exact h.enter (congrArg Call.ids hc)
  | @checkDead c b hc =>
    rw [held_setCall]
    refine h.sublist ?_
    show List.Sublist _ (s.calls c).ids
    rw [hc]
    split
    · exact List.nil_sublist _
    · exact .refl _
  | @reserve c b hc =>
    rw [held_setCall_of_eq ids (by exact congrArg Call.ids hc.symm), held_setQueue_of_eq ids (by rfl)]
    exact h
  | @exchange c b hc =>
    show Numbered (ids.held ((s.setQueue b.dir b.peer _).setCall c _)) s.nextBundle
    rw [held_setCall, held_setQueue]
    refine h.move (by rintro ⟨⟩) (.of_eq ?_)
    show _ = _ ++ (s.calls c).ids
    rw [hc]
    simp only [ids, Account.held, Call.ids, PeerQueue.bundles, List.map_append, List.append_assoc, List.append_nil]
    rfl
  | @callHandoff c h' hc =>
    obtain ⟨_, _, _, _, _, _, heq⟩ := s.handoffStep_eq h'
    rw [heq, held_setCall]
    refine h.sublist ?_
    rw [show ids.call _ = [] from Call.ids_elim (fun _ => rfl) _]
    exact List.nil_sublist _
  | callCleanup hc =>
    rw [held_setCall]
    refine h.sublist ?_
    rw [show ids.call _ = [] from Call.ids_elim (fun _ => rfl) _]
    exact List.nil_sublist _
  | @workerHandoff d cpu h' hw =>
    obtain ⟨_, _, _, _, _, _, heq⟩ := s.handoffStep_eq h'
    rw [heq]
    exact h
  | peek hp hnone hq =>
    rw [held_setQueue_of_eq ids (by rw [PeerQueue.bundles_of_none hnone, hq]; rfl)]
    exact h
  | @pop d p fate n b hp hb hst =>
    show Numbered (ids.held (s.setQueue d p { s.queue d p with peeked := none })) s.nextBundle
    rw [held_setQueue]
    refine h.sublist ?_
    show List.Sublist _ ((s.queue d p).bundles.map Bundle.id)
    rw [PeerQueue.bundles_of_peeked hb]
    exact List.sublist_cons_self ..
  | _ => exact h

omit [DecidableEq Peer] [DecidableEq Cpu] in
theorem mem_ids_queue (hb : b ∈ (s.queue d p).bundles) :
    b.id ∈ ids.held s (.queue d p) := List.mem_map_of_mem hb

omit [DecidableEq Peer] [DecidableEq Cpu] in
theorem bundle_eq_of_id (hn : Exclusive (ids.held s)) {d' : Dir} {p' : Peer}
    (hb : b ∈ (s.queue d p).bundles) (hb' : b' ∈ (s.queue d' p').bundles) (hid : b.id = b'.id) : b = b' := by
  have hmem := mem_ids_queue hb
  rw [hid] at hmem
  cases hn.eq_of_mem _ _ _ hmem (mem_ids_queue hb')
  exact List.inj_on_of_nodup_map (hn.nodup (.queue d p)) hb hb' hid

omit [DecidableEq Peer] [DecidableEq Cpu] in
theorem id_ne_of_call (hn : Exclusive (ids.held s))
    (hc : (s.calls c).ids = [b.id]) (hb' : b' ∈ (s.queue d p).bundles) : b'.id ≠ b.id := by
  intro hid
  have hmem : b.id ∈ ids.held s (.call c) := by
    show b.id ∈ (s.calls c).ids
    rw [hc]
    exact List.mem_singleton_self _
  rw [← hid] at hmem
  cases hn.eq_of_mem _ _ _ hmem (mem_ids_queue hb')

/-! ### Who has the bundles -/

omit [DecidableEq Peer] [DecidableEq Cpu] in
theorem awaiting_setState (hn : Exclusive (ids.held s)) {state : PacketState} (hb : s.Awaiting b)
    (hstate : state ≠ .uncrypted) : (s.setState b.id state).Awaiting b' ↔ s.Awaiting b' ∧ b' ∉ [b] := by
  rw [List.mem_singleton]
  show b' ∈ (s.queue b'.dir b'.peer).bundles ∧ update s.state b.id state b'.id = .uncrypted ↔ _
  by_cases hid : b'.id = b.id
  · rw [hid, update_self]
    refine iff_of_false (fun h => hstate h.2) fun h => h.2 (bundle_eq_of_id hn h.1.1 hb.1 hid)
  · rw [update_of_ne hid]
    exact ⟨fun h => ⟨h, fun heq => hid (congrArg Bundle.id heq)⟩, And.left⟩

theorem awaited_handoffStep {h : Handoff Peer} {k : Place Peer Cpu} (hcus : Custody (awaited.held s) s.Awaiting)
    (hn : Exclusive (ids.held s)) (hk : awaited.held s k = h.awaited) :
    Custody (update (awaited.held (s.handoffStep h).1) k ((s.handoffStep h).2.elim [] Handoff.awaited))
      (s.handoffStep h).1.Awaiting := by
  cases h with
  | get b ok => exact hcus.perm (.of_eq hk.symm)
  | set b ok ref =>
    have hb : s.Awaiting b := by
      refine hcus.mem (k := k) ?_
      rw [hk]
      exact List.mem_singleton_self b
    refine hcus.leave (.of_eq hk) fun b' => awaiting_setState hn hb ?_
    rcases ok with _ | _ <;> rintro ⟨⟩
  | kick d p ref => rcases d with _ | _ <;> exact hcus.perm (.of_eq hk.symm)
  | put p ref => exact hcus.perm (.of_eq hk.symm)

/-- The state word of a bundle that has its place in the queue is `PACKET_STATE_UNCRYPTED`. -/
def ReservedUncrypted (s : PacketPipeline Peer Cpu) : Prop :=
  ∀ c b, s.calls c = .reserved b → s.state b.id = .uncrypted

omit [DecidableEq Peer] [DecidableEq Cpu] in
theorem awaiting_setState_of_call (hn : Exclusive (ids.held s))
    (hc : (s.calls c).ids = [b.id]) : (s.setState b.id .uncrypted).Awaiting b' ↔ s.Awaiting b' := by
  refine and_congr_right fun hb' => ?_
  show update s.state b.id .uncrypted b'.id = .uncrypted ↔ _
  rw [update_of_ne (id_ne_of_call hn hc hb')]

omit [DecidableEq Cpu] in
theorem awaiting_enter
    (hq : ∀ d p, (t.queue d p).bundles =
      if d = b.dir ∧ p = b.peer then (s.queue d p).bundles ++ [b] else (s.queue d p).bundles)
    (hst : s.state b.id = .uncrypted) (hstate : t.state = s.state) : t.Awaiting b' ↔ s.Awaiting b' ∨ b' ∈ [b] := by
  unfold Awaiting
  rw [hstate, hq, List.mem_singleton]
  split_ifs with hne
  · rw [List.mem_append, List.mem_singleton, or_and_right]
    refine or_congr_right ⟨And.left, ?_⟩
    rintro rfl
    exact ⟨rfl, hst⟩
  · refine (or_iff_left ?_).symm
    rintro rfl
    exact hne ⟨rfl, rfl⟩

omit [DecidableEq Cpu] in
theorem awaiting_leave (hb : (s.queue d p).bundles = b :: (t.queue d p).bundles)
    (hq : ∀ d' p', ¬ (d' = d ∧ p' = p) → (t.queue d' p').bundles = (s.queue d' p').bundles)
    (hst : s.state b.id ≠ .uncrypted) (hstate : t.state = s.state) : t.Awaiting b' ↔ s.Awaiting b' := by
  unfold Awaiting
  rw [hstate]
  refine and_congr_left fun hst' => ?_
  by_cases heq : b'.dir = d ∧ b'.peer = p
  · rw [heq.1, heq.2, hb, List.mem_cons]
    refine (or_iff_right ?_).symm
    rintro rfl
    exact hst hst'
  · rw [hq _ _ heq]

theorem awaited_step (hcus : Custody (awaited.held s) s.Awaiting) (hn : Exclusive (ids.held s))
    (hres : s.ReservedUncrypted) (hidle : s.CallsIdle) (hser : s.Serial) (hs : Step s e t) :
    Custody (awaited.held t) t.Awaiting := by
  cases hs with
  | @steal p hne =>
    show Custody (awaited.held (s.setCall s.nextCall _)) s.Awaiting
    rw [held_setCall_of_eq awaited (by exact congrArg Call.awaited (hidle _ (Nat.le_refl _)).symm)]
    exact hcus
  | @receiveUnknown x hnew =>
    show Custody (awaited.held (s.setCall s.nextCall _)) s.Awaiting
    rw [held_setCall_of_eq awaited (by exact congrArg Call.awaited (hidle _ (Nat.le_refl _)).symm)]
    exact hcus
  | @receive x k hnew =>
    show Custody (awaited.held (s.setCall s.nextCall _)) s.Awaiting
    rw [held_setCall_of_eq awaited (by exact congrArg Call.awaited (hidle _ (Nat.le_refl _)).symm)]
    exact hcus
  | noKeypair hc | getKeypair hc | reject hc | splice hc | keypairGone hc | link hc | ringFull hc | queueWork hc =>
    rw [held_setCall_of_eq awaited (by exact congrArg Call.awaited hc.symm)]
    exact hcus
  | @assign c p xs k ref hc =>
    show Custody (awaited.held (s.setCall c _)) s.Awaiting
    rw [held_setCall_of_eq awaited (by exact congrArg Call.awaited hc.symm)]
    exact hcus
  | @keypairGet c x k ref hc =>
    show Custody (awaited.held (s.setCall c _)) s.Awaiting
    rw [held_setCall_of_eq awaited (by exact congrArg Call.awaited hc.symm)]
    exact hcus
  | checkDead hc =>
    rw [held_setCall_of_eq awaited (by rw [hc]; split <;> rfl)]
    exact hcus
  | noSpace hc =>
    rw [held_setCall_of_eq awaited (by exact congrArg Call.awaited hc.symm)]
    exact hcus.all_congr fun b' => awaiting_setState_of_call hn (congrArg Call.ids hc)
  | @reserve c b hc =>
    rw [held_setCall_of_eq awaited (by exact congrArg Call.awaited hc.symm)]
    refine hcus.all_congr fun b' => Iff.trans ?_ (awaiting_setState_of_call hn (congrArg Call.ids hc))
    refine and_congr_left' ?_
    show b' ∈ ((s.setQueue _ _ _).queue _ _).bundles ↔ _
    rw [bundles_setQueue_of_eq (by rfl)]
    rfl
  | @exchange c b hc =>
    have hall : ∀ b', Awaiting _ b' ↔ s.Awaiting b' ∨ b' ∈ [b] := fun b' =>
      awaiting_enter (fun d p => bundles_setQueue_append) (hres c b hc) rfl
    show Custody (awaited.held (s.setCall c _)) (Awaiting (s.setQueue b.dir b.peer _))
    rw [held_setCall]
    refine hcus.enter (List.nodup_singleton b) ?_ ?_ hall
    · intro b' hb' hwait
      rw [List.mem_singleton.mp hb'] at hwait
      exact id_ne_of_call hn (congrArg Call.ids hc) hwait.1 rfl
    · show List.Perm _ (_ ++ Call.awaited (s.calls c))
      rw [hc]
      exact .refl _
  | @produce c b ring hc hring =>
    rw [held_setCall, held_setRing]
    refine hcus.move (by rintro ⟨⟩) (.of_eq ?_)
    show _ = _ ++ Call.awaited (s.calls c)
    rw [hc]
    show ring.entries ++ [] = _
    rw [PtrRing.entries_of_produce hring, List.append_nil]
    rfl
  | @callHandoff c h hc =>
    rw [held_setCall]
    show Custody (update _ _ (Call.awaited _)) _
    rw [← Option.elim_comp Call.awaited]
    exact awaited_handoffStep (k := .call c) hcus hn (congrArg Call.awaited hc)
  | callCleanup hc =>
    rw [held_setCall_of_eq awaited]
    · exact hcus
    · refine Eq.trans ?_ (congrArg Call.awaited hc.symm)
      rcases (s.cleanupStep _).2 with _ | _ <;> rfl
  | startWorker hi =>
    rw [held_setWorker_of_eq awaited (by exact congrArg Worker.awaited (hser.worker_idle hi).symm)]
    exact hcus
  | @consume d cpu clears b ring hw hring =>
    rw [held_setWorker, held_setRing]
    refine hcus.move (by rintro ⟨⟩) ?_
    show List.Perm _ ((s.ring d).entries ++ Worker.awaited (s.worker d cpu))
    rw [hw, PtrRing.entries_of_consume hring]
    show (ring.entries ++ [b]).Perm (b :: ring.entries ++ [])
    rw [List.append_nil]
    exact List.perm_append_comm
  | ringEmpty hw | crypted hw | finishWorker hw =>
    rw [held_setWorker_of_eq awaited (by exact congrArg Worker.awaited hw.symm)]
    exact hcus
  | @workerHandoff d cpu h hw =>
    rw [held_setWorker]
    show Custody (update _ _ (Worker.awaited _)) _
    rw [← Option.elim_comp Worker.awaited]
    exact awaited_handoffStep (k := .worker d cpu) hcus hn (congrArg Worker.awaited hw)
  | @peek d p n b entries hp hnone hq =>
    refine hcus.all_congr fun b' => and_congr_left' ?_
    rw [bundles_setQueue_of_eq (by rw [PeerQueue.bundles_of_none hnone, hq]; rfl)]
  | @pop d p fate n b hp hb hst =>
    refine hcus.all_congr fun b' => awaiting_leave (bundles_setQueue_pop hb) (fun d' p' hne => ?_) hst rfl
    exact congrArg PeerQueue.bundles (queue_setQueue.trans (if_neg hne))
  | _ => exact hcus

omit [DecidableEq Peer] [DecidableEq Cpu] in
theorem ReservedUncrypted.setCall (h : s.ReservedUncrypted) {call : Call Peer}
    (hcall : ∀ b, call = .reserved b → s.state b.id = .uncrypted) : (s.setCall c call).ReservedUncrypted := by
  intro c' b' hc'
  rw [calls_setCall] at hc'
  split at hc'
  · exact hcall b' hc'
  · exact h c' b' hc'

omit [DecidableEq Peer] [DecidableEq Cpu] in
theorem ReservedUncrypted.setState_uncrypted (h : s.ReservedUncrypted) {id : Nat} :
    (s.setState id .uncrypted).ReservedUncrypted := by
  intro c b hc
  show update s.state id .uncrypted b.id = .uncrypted
  by_cases hid : b.id = id
  · rw [hid, update_self]
  · rw [update_of_ne hid]
    exact h c b hc

omit [DecidableEq Peer] [DecidableEq Cpu] in
theorem ReservedUncrypted.setState (h : s.ReservedUncrypted) (hn : Exclusive (ids.held s))
    {state : PacketState} (hb : s.Awaiting b) : (s.setState b.id state).ReservedUncrypted := by
  intro c b' hc
  have hne : b.id ≠ b'.id := id_ne_of_call hn (congrArg Call.ids hc) hb.1
  show update s.state b.id state b'.id = .uncrypted
  rw [update_of_ne hne.symm]
  exact h c b' hc

theorem ReservedUncrypted.handoffStep (h : s.ReservedUncrypted) (hn : Exclusive (ids.held s)) {h' : Handoff Peer}
    (hb : ∀ b ∈ h'.awaited, s.Awaiting b) : (s.handoffStep h').1.ReservedUncrypted := by
  rcases h' with _ | _ | ⟨_ | _, p, ref⟩ | _
  · exact h
  · exact h.setState hn (hb _ (List.mem_singleton_self _))
  · exact h
  · exact h
  · exact h

theorem ReservedUncrypted.step (h : s.ReservedUncrypted) (hcus : Custody (awaited.held s) s.Awaiting)
    (hn : Exclusive (ids.held s)) (hs : Step s e t) : t.ReservedUncrypted := by
  cases hs with
  | steal | noKeypair | getKeypair | reject | assign | splice | receiveUnknown | receive | keypairGone | keypairGet
  | exchange | link | produce | ringFull | queueWork =>
    refine ReservedUncrypted.setCall h ?_
    rintro _ ⟨⟩
  | checkDead hc =>
    refine h.setCall fun b => ?_
    split <;> rintro ⟨⟩
  | noSpace hc =>
    refine h.setState_uncrypted.setCall ?_
    rintro _ ⟨⟩
  | @reserve c b hc =>
    refine ReservedUncrypted.setCall h.setState_uncrypted ?_
    rintro _ ⟨⟩
    exact update_self ..
  | @callHandoff c h' hc =>
    refine (h.handoffStep hn fun b hb => hcus.mem (k := .call c) ?_).setCall fun b => ?_
    · show b ∈ Call.awaited (s.calls c)
      rw [hc]
      exact hb
    · rcases (s.handoffStep h').2 with _ | _ <;> rintro ⟨⟩
  | callCleanup hc =>
    refine ReservedUncrypted.setCall h fun b => ?_
    rcases (s.cleanupStep _).2 with _ | _ <;> rintro ⟨⟩
  | @workerHandoff d cpu h' hw =>
    refine ReservedUncrypted.handoffStep h hn fun b hb => hcus.mem (k := .worker d cpu) ?_
    show b ∈ Worker.awaited (s.worker d cpu)
    rw [hw]
    exact hb
  | _ => exact h

end

end PacketPipeline
end WireguardAes
