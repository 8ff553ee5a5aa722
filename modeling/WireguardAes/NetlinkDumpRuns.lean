import WireguardAes.NetlinkDump

/-!
# Whole dumps

A dump of a device that does not change: the messages together have every peer and every allowed IP
once. And a dump between whose calls the configuration changes: a saved node is looked at only while
it is on the list. The latter rests on `seq`, which has 64 bits.
-/

namespace WireguardAes

open Function Runs ListCursor

namespace ConfigDevice

variable {C : Crypto} {pubkeyBucket : Bytes → PubkeyBucket} {dev dev' : ConfigDevice} {ctx : DumpCtx} {p : Nat}

/-! ### Changes between two calls -/

theorem ListsOk.change (h : ListsOk dev) (hc : Change pubkeyBucket SameView dev dev') : ListsOk dev' := by
  rcases hc.view with ⟨call, ret, a, hexec, rfl⟩ | ⟨peer, hpeer, rfl⟩ | ⟨p, rfl⟩ | hsame
  · exact ⟨h.nodup, h.created, h.alive, (Allowedips.counted_exec hexec).sized h.sized⟩
  · have hne : ∀ q ∈ dev.peerList, q ≠ dev.created := fun q hq => Nat.ne_of_lt (h.created q hq)
    refine ⟨?_, ?_, ?_, h.sized⟩
    · refine List.nodup_append.mpr ⟨h.nodup, List.nodup_singleton _, fun q hq r hr => ?_⟩
      rw [List.mem_singleton.mp hr]
      exact hne q hq
    · intro q hq
      rcases List.mem_append.mp hq with hq | hq
      · exact Nat.lt_succ_of_lt (h.created q hq)
      · rw [List.mem_singleton.mp hq]
        exact Nat.lt_succ_self _
    · intro q hq
      simp only [addPeer]
      rcases List.mem_append.mp hq with hq | hq
      · rw [update_of_ne (hne q hq)]
        exact h.alive q hq
      · rw [List.mem_singleton.mp hq, update_self]
        exact hpeer
  · have hmem : ∀ q, q ∈ dev.peerList.erase p → q ≠ p ∧ q ∈ dev.peerList := fun q hq => h.nodup.mem_erase_iff.mp hq
    refine ⟨h.nodup.erase p, fun q hq => h.created q (hmem q hq).2, fun q hq => ?_,
      (Allowedips.counted_removeByPeer _ p).sized h.sized⟩
    obtain ⟨hne, hq⟩ := hmem q hq
    simp only [peerMakeDead, modifyPeer, update_of_ne hne]
    exact h.alive q hq
  · obtain ⟨hlist, hcreated, hips, hdead⟩ := hsame
    refine ⟨?_, ?_, ?_, ?_⟩
    · rw [hlist]
      exact h.nodup
    · rw [hlist, hcreated]
      exact h.created
    · intro q hq
      rw [hlist] at hq
      rw [hdead]
      exact h.alive q hq
    · rw [hips]
      exact h.sized

/-- Once `seq` is counted up, the saved node is not looked at any more. -/
theorem Resumes.of_lt (h : Resumes dev ctx)
    (hcursor : ∀ q, ctx.nextPeer = some q → q < dev'.created ∧ (q ∈ dev'.peerList ∨ (dev'.peers q).isDead = true))
    (hup : dev'.allowedips.updates = dev.allowedips.updates + 1) (hseq : dev'.allowedips.updates + 1 < 2 ^ 64) :
    Resumes dev' ctx := by
  have hold : dev.allowedips.seq.toNat = dev.allowedips.updates + 1 := Allowedips.seq_toNat (by omega)
  have hnew : dev'.allowedips.seq.toNat = dev'.allowedips.updates + 1 := Allowedips.seq_toNat hseq
  refine ⟨hcursor, fun node hnode => ?_⟩
  obtain ⟨hne, hle, -⟩ := h.saved node hnode
  refine ⟨hne, by omega, fun heq => ?_⟩
  rw [heq] at hle
  omega

theorem Resumes.table (h : Resumes dev ctx) {a : Allowedips Nat} (hc : Allowedips.Counted dev.allowedips a)
    (hseq : a.updates + 1 < 2 ^ 64) : Resumes { dev with allowedips := a } ctx := by
  rcases hc.updates with hup | ⟨hsame, hlist⟩
  · exact h.of_lt h.cursor hup hseq
  · refine ⟨h.cursor, fun node hnode => ?_⟩
    dsimp only
    rw [Allowedips.seq, hsame, hlist]
    exact h.saved node hnode

theorem Resumes.create (h : Resumes dev ctx) (peer : ConfigPeer) : Resumes (dev.addPeer pubkeyBucket peer) ctx := by
  have hold : ∀ q, q < dev.created → (dev.addPeer pubkeyBucket peer).peers q = dev.peers q :=
    fun q hq => update_of_ne (Nat.ne_of_lt hq) ..
  refine ⟨fun q hq => ?_, fun node hnode => ?_⟩
  · obtain ⟨hlt, hor⟩ := h.cursor q hq
    rw [hold q hlt]
    exact ⟨Nat.lt_succ_of_lt hlt, hor.imp (List.mem_append_left _) id⟩
  · obtain ⟨hne, hle, hsame⟩ := h.saved node hnode
    refine ⟨hne, hle, fun heq => ?_⟩
    rcases hsame heq with ⟨q, hq, hd⟩ | ⟨p, hfollows, hin⟩
    · refine .inl ⟨q, hq, ?_⟩
      rw [hold q (h.cursor q hq).1]
      exact hd
    · exact .inr ⟨p, hfollows.append _, hin⟩

theorem Resumes.makeDead (h : Resumes dev ctx) (p : Nat)
    (hseq : (dev.peerMakeDead p).allowedips.updates + 1 < 2 ^ 64) :
    Resumes (dev.peerMakeDead p) ctx := by
  have hself : ((dev.peerMakeDead p).peers p).isDead = true := by
    simp only [peerMakeDead, modifyPeer, update_self]
  have hother : ∀ q, q ≠ p → (dev.peerMakeDead p).peers q = dev.peers q := fun q hq => update_of_ne hq ..
  have hdead : ∀ q, (dev.peers q).isDead = true → ((dev.peerMakeDead p).peers q).isDead = true := by
    intro q hq
    by_cases hqp : q = p
    · rw [hqp]
      exact hself
    · rw [hother q hqp]
      exact hq
  have hcursor : ∀ q, ctx.nextPeer = some q → q < (dev.peerMakeDead p).created ∧
      (q ∈ (dev.peerMakeDead p).peerList ∨ ((dev.peerMakeDead p).peers q).isDead = true) := by
    intro q hq
    obtain ⟨hlt, hor⟩ := h.cursor q hq
    refine ⟨hlt, ?_⟩
    by_cases hqp : q = p
    · rw [hqp]
      exact .inr hself
    · exact hor.imp (fun hin => (List.mem_erase_of_ne hqp).mpr hin) (hdead q)
  by_cases hempty : dev.allowedips.list p = []
  · have hips : (dev.peerMakeDead p).allowedips = dev.allowedips := if_pos hempty
    refine ⟨hcursor, fun node hnode => ?_⟩
    obtain ⟨hne, hle, hsame⟩ := h.saved node hnode
    rw [hips]
    refine ⟨hne, hle, fun heq => ?_⟩
    rcases hsame heq with ⟨q, hq, hd⟩ | ⟨p', hfollows, hin⟩
    · exact .inl ⟨q, hq, hdead q hd⟩
    by_cases hcur : ctx.nextPeer = some p
    · exact .inl ⟨p, hcur, hself⟩
    · -- the peer that comes next has an allowed IP, the one taken out has none
      refine .inr ⟨p', hfollows.erase (fun he => ?_) hcur, hin⟩
      rw [← he, hempty] at hin
      cases hin
  · exact h.of_lt hcursor (Allowedips.stored_removeByPeer hempty).updates hseq

theorem Resumes.other (h : Resumes dev ctx) (hs : dev.SameView dev') : Resumes dev' ctx := by
  obtain ⟨hlist, hcreated, hips, hdead⟩ := hs
  refine ⟨fun q hq => ?_, fun node hnode => ?_⟩
  · rw [hlist, hcreated, hdead]
    exact h.cursor q hq
  · rw [hlist, hips]
    simp only [hdead]
    exact h.saved node hnode

theorem Change.updates_le (hc : Change pubkeyBucket SameView dev dev') :
    dev.allowedips.updates ≤ dev'.allowedips.updates := by
  rcases hc.view with ⟨call, ret, a, hexec, rfl⟩ | ⟨peer, hpeer, rfl⟩ | ⟨p, rfl⟩ | hsame
  · exact (Allowedips.counted_exec hexec).updates_le
  · exact Nat.le_refl _
  · exact (Allowedips.counted_removeByPeer _ p).updates_le
  · rw [hsame.allowedips]

theorem Resumes.change (h : Resumes dev ctx) (hc : Change pubkeyBucket SameView dev dev')
    (hseq : dev'.allowedips.updates + 1 < 2 ^ 64) : Resumes dev' ctx := by
  rcases hc.view with ⟨call, ret, a, hexec, rfl⟩ | ⟨peer, hpeer, rfl⟩ | ⟨p, rfl⟩ | hsame
  · exact h.table (Allowedips.counted_exec hexec) hseq
  · exact h.create peer
  · exact h.makeDead p hseq
  · exact h.other hsame

/-- The dump that is going on can be taken up, as long as `seq` has not wrapped around. -/
structure Watched (dev : ConfigDevice) (ctx : Option DumpCtx) : Prop where
  lists : ListsOk dev
  resumes : dev.allowedips.updates + 1 < 2 ^ 64 → ∀ c, ctx = some c → Resumes dev c

namespace Watched

variable {c : Option DumpCtx}

theorem change (h : Watched dev c) (hc : Change pubkeyBucket SameView dev dev') : Watched dev' c := by
  have hle := hc.updates_le
  exact ⟨h.lists.change hc, fun hseq ctx hctx => (h.resumes (by omega) ctx hctx).change hc hseq⟩

theorem changes (h : Watched dev c) (hc : Changes pubkeyBucket SameView dev dev') : Watched dev' c := by
  induction hc with
  | refl => exact h
  | tail _ hc ih => exact ih.change hc

end Watched

end ConfigDevice

/-! ### Dumps while the configuration changes -/

structure DumpState where
  dev : ConfigDevice
  /-- The dump that is going on. -/
  ctx : Option DumpCtx

inductive DumpEvent where
  | config (ev : ConfigDevice.ConfigEvent)
  /-- `wg_get_device_start` -/
  | start
  | dump (call : DumpCall)

namespace DumpState

variable (C : Crypto) (pubkeyBucket : Bytes → PubkeyBucket)

def init : DumpState := ⟨.new C, none⟩

/-- The kernel asks for another message as long as it gets a positive length. -/
def step (s : DumpState) : DumpEvent → Option DumpState
  | .config ev => (s.dev.step C pubkeyBucket ev).map fun dev => { s with dev := dev }
  | .start => some { s with ctx := some .start }
  | .dump call =>
    match s.ctx with
    | none => none
    | some ctx =>
      (s.dev.wgGetDeviceDump call ctx).map fun res : ConfigDevice.DumpResult =>
        { s with ctx := if 0 < res.ret then some res.ctx else none }

variable {C pubkeyBucket} {s s' : DumpState}

theorem changes_step {dev dev' : ConfigDevice} {ev : ConfigDevice.ConfigEvent}
    (h : dev.step C pubkeyBucket ev = some dev') :
    ConfigDevice.Changes pubkeyBucket ConfigDevice.SameView dev dev' := by
  rcases ev with attrs | ⟨p, state, keypairs, endpoint⟩ | running
  · obtain ⟨⟨ret, dev₁⟩, hout, rfl⟩ := Option.map_eq_some_iff.mp h
    exact ConfigDevice.changes_wgSetDevice hout
  · cases h
    exact .single (.other (.modifyPeer dev p _ fun _ => rfl))
  · cases h
    exact .single (.other ⟨rfl, rfl, rfl, fun _ => rfl⟩)

theorem watched_init : (init C).dev.Watched (init C).ctx := by
  refine ⟨⟨List.nodup_nil, ?_, ?_, fun _ => rfl⟩, ?_⟩
  · intro p hp
    cases hp
  · intro p hp
    cases hp
  · intro _ c hc
    cases hc

theorem watched_step (h : s.dev.Watched s.ctx) {ev : DumpEvent} (hs : s.step C pubkeyBucket ev = some s') :
    s'.dev.Watched s'.ctx := by
  rcases ev with ev | _ | call
  · obtain ⟨dev, hdev, rfl⟩ := Option.map_eq_some_iff.mp hs
    exact h.changes (changes_step hdev)
  · cases hs
    refine ⟨h.lists, fun _ c hc => ?_⟩
    cases hc
    refine ⟨fun q hq => ?_, fun node hnode => ?_⟩
    · cases hq
    · cases hnode
  · cases hctx : s.ctx with
    | none => simp only [DumpState.step, hctx, reduceCtorEq] at hs
    | some ctx =>
      simp only [DumpState.step, hctx] at hs
      obtain ⟨res, hres, rfl⟩ := Option.map_eq_some_iff.mp hs
      refine ⟨h.lists, fun hseq c hc => ?_⟩
      obtain ⟨hpos, hc⟩ := Option.ite_none_right_eq_some.mp hc
      cases hc
      obtain ⟨res', hres', hresumes⟩ :=
        ConfigDevice.wgGetDeviceDump_resumes h.lists (Allowedips.seq_ne_zero hseq) (h.resumes hseq ctx hctx) call
      rw [hres] at hres'
      cases hres'
      exact hresumes hpos

end DumpState
end WireguardAes
