import WireguardAes.Messages
import WireguardAes.Lib.Ledger

/-!
# Creating a device (`device.c`, `ratelimiter.c`, `queueing.c`)

`wg_newlink` acquires what a device needs, one thing after the other, and jumps into a ladder of
labels if something fails: each label releases one thing and goes on with the next label. The rate
limiter is shared by all devices and counted; its tables are made for the first device. Which
acquisitions fail is arbitrary.

The per-CPU request buffers come last, after the rate limiter, and their release is not on the
ladder: it is left out when `register_netdevice` fails.
-/

namespace WireguardAes

inductive DeviceQueue where
  | encrypt
  | decrypt
  | handshake
deriving DecidableEq

inductive DeviceResource where
  | peerHashtable
  | indexHashtable
  | tstats
  | handshakeReceiveWq
  | handshakeSendWq
  | packetCryptWq
  /-- `ptr_ring_init` -/
  | ring (queue : DeviceQueue)
  /-- `wg_packet_percpu_multicore_worker_alloc` -/
  | worker (queue : DeviceQueue)
  | entryCache
  | tableV4
  | tableV6
  /-- `gc_work` is queued. -/
  | gcWork
  /-- The transform of `wg_init_aes_percpu`. -/
  | probe
  | aesCpu
  /-- The `aead_request` of a CPU. -/
  | req (cpu : Nat)
deriving DecidableEq

/-- Which acquisitions fail, and what `register_netdevice` returns. -/
structure NewlinkOutcomes where
  fails : DeviceResource → Bool
  registerNetdevice : Int

structure Newlink where
  ledger : Ledger DeviceResource
  /-- `init_refcnt` of the rate limiter. -/
  initRefcnt : Nat
  isChacha : Bool
  /-- `wg->aes_cpu`, with the CPUs whose `req` is set. -/
  aesCpu : Option (List Nat)

def enomem : Int := -12

namespace Newlink

def start (initRefcnt : Nat) : Newlink := ⟨.empty, initRefcnt, false, none⟩

def acquire (k : Newlink) (r : DeviceResource) : Newlink := { k with ledger := k.ledger.acquire r }

def release (k : Newlink) (r : DeviceResource) : Newlink := { k with ledger := k.ledger.release r }

def alloc (o : NewlinkOutcomes) (k : Newlink) (r : DeviceResource) : Option Newlink :=
  if o.fails r then none else some (k.acquire r)

def wgPacketQueueInit (o : NewlinkOutcomes) (queue : DeviceQueue) (k : Newlink) : Int × Newlink :=
  match k.alloc o (.ring queue) with
  | none => (enomem, k)
  | some k =>
    match k.alloc o (.worker queue) with
    | none => (enomem, k.release (.ring queue))
    | some k => (0, k)

def wgPacketQueueFree (queue : DeviceQueue) (k : Newlink) : Newlink := (k.release (.worker queue)).release (.ring queue)

/-- `err` of `wg_ratelimiter_init` -/
def ratelimiterErr (k : Newlink) : Int × Newlink := (enomem, { k with initRefcnt := k.initRefcnt - 1 })

/-- `err_kmemcache` of `wg_ratelimiter_init` -/
def errKmemcache (k : Newlink) : Int × Newlink := ratelimiterErr (k.release .entryCache)

/-- `wg_ratelimiter_init` for the first device. -/
def ratelimiterAlloc (o : NewlinkOutcomes) (k : Newlink) : Int × Newlink :=
  match k.alloc o .entryCache with
  | none => ratelimiterErr k
  | some k =>
    match k.alloc o .tableV4 with
    | none => errKmemcache k
    | some k =>
      match k.alloc o .tableV6 with
      | none => errKmemcache (k.release .tableV4)
      | some k => (0, k.acquire .gcWork)

def wgRatelimiterInit (o : NewlinkOutcomes) (k : Newlink) : Int × Newlink :=
  let k := { k with initRefcnt := k.initRefcnt + 1 }
  if k.initRefcnt ≠ 1 then (0, k) else ratelimiterAlloc o k

def wgRatelimiterUninit (k : Newlink) : Newlink :=
  if k.initRefcnt = 0 then k
  else
    let k := { k with initRefcnt := k.initRefcnt - 1 }
    if k.initRefcnt ≠ 0 then k
    else (((k.release .gcWork).release .tableV4).release .tableV6).release .entryCache

def wgFreeAesPercpu (nrCpus : Nat) (k : Newlink) : Newlink :=
  match k.aesCpu with
  | none => k
  | some reqs =>
    let k := (List.range nrCpus).foldl (fun k cpu => if cpu ∈ reqs then k.release (.req cpu) else k) k
    { k.release .aesCpu with aesCpu := none }

/-- The loop of `wg_init_aes_percpu` over the possible CPUs. -/
def allocRequests (o : NewlinkOutcomes) (nrCpus : Nat) (reqs : List Nat) : List Nat → Newlink → Int × Newlink
  | [], k => (0, k)
  | cpu :: rest, k =>
    match k.alloc o (.req cpu) with
    | none => (enomem, wgFreeAesPercpu nrCpus k)
    | some k => allocRequests o nrCpus (reqs ++ [cpu]) rest { k with aesCpu := some (reqs ++ [cpu]) }

def wgInitAesPercpu (o : NewlinkOutcomes) (nrCpus : Nat) (k : Newlink) : Int × Newlink :=
  match k.alloc o .probe with
  | none => (0, { k with isChacha := true })
  | some k =>
    match (k.release .probe).alloc o .aesCpu with
    | none => (enomem, k.release .probe)
    | some k => allocRequests o nrCpus [] (List.range nrCpus) { k with aesCpu := some [] }

/-! ### The labels -/

def errFreePeerHashtable (k : Newlink) : Newlink := k.release .peerHashtable
def errFreeIndexHashtable (k : Newlink) : Newlink := errFreePeerHashtable (k.release .indexHashtable)
def errFreeTstats (k : Newlink) : Newlink := errFreeIndexHashtable (k.release .tstats)
def errDestroyHandshakeReceive (k : Newlink) : Newlink := errFreeTstats (k.release .handshakeReceiveWq)
def errDestroyHandshakeSend (k : Newlink) : Newlink := errDestroyHandshakeReceive (k.release .handshakeSendWq)
def errDestroyPacketCrypt (k : Newlink) : Newlink := errDestroyHandshakeSend (k.release .packetCryptWq)
def errFreeEncryptQueue (k : Newlink) : Newlink := errDestroyPacketCrypt (wgPacketQueueFree .encrypt k)
def errFreeDecryptQueue (k : Newlink) : Newlink := errFreeEncryptQueue (wgPacketQueueFree .decrypt k)
def errFreeHandshakeQueue (k : Newlink) : Newlink := errFreeDecryptQueue (wgPacketQueueFree .handshake k)
def errUninitRatelimiter (k : Newlink) : Newlink := errFreeHandshakeQueue (wgRatelimiterUninit k)

/-- `if (!..) goto label` -/
def allocOrGoto (o : NewlinkOutcomes) (r : DeviceResource) (label : Newlink → Newlink) (next : Newlink → Int × Newlink)
    (k : Newlink) : Int × Newlink :=
  match k.alloc o r with
  | none => (enomem, label k)
  | some k => next k

/-- `if (ret < 0) goto label` -/
def orGoto (out : Int × Newlink) (label : Newlink → Newlink) (next : Newlink → Int × Newlink) : Int × Newlink :=
  if out.1 < 0 then (out.1, label out.2) else next out.2

/-- `wg_newlink` up to `register_netdevice`. -/
def setup (o : NewlinkOutcomes) (nrCpus : Nat) : Newlink → Int × Newlink :=
  allocOrGoto o .peerHashtable id <|
  allocOrGoto o .indexHashtable errFreePeerHashtable <|
  allocOrGoto o .tstats errFreeIndexHashtable <|
  allocOrGoto o .handshakeReceiveWq errFreeTstats <|
  allocOrGoto o .handshakeSendWq errDestroyHandshakeReceive <|
  allocOrGoto o .packetCryptWq errDestroyHandshakeSend fun k =>
  orGoto (wgPacketQueueInit o .encrypt k) errDestroyPacketCrypt fun k =>
  orGoto (wgPacketQueueInit o .decrypt k) errFreeEncryptQueue fun k =>
  orGoto (wgPacketQueueInit o .handshake k) errFreeDecryptQueue fun k =>
  orGoto (wgRatelimiterInit o k) errFreeHandshakeQueue fun k =>
  orGoto (wgInitAesPercpu o nrCpus k) errUninitRatelimiter fun k => (0, k)

def wgNewlink (o : NewlinkOutcomes) (nrCpus : Nat) (k : Newlink) : Int × Newlink :=
  orGoto (setup o nrCpus k) id fun k =>
  orGoto (o.registerNetdevice, k) errUninitRatelimiter fun k => (o.registerNetdevice, k)

/-! ### The acquisitions of the set-up -/

def queueAcquisitions (queue : DeviceQueue) : List DeviceResource := [.ring queue, .worker queue]

/-- The tables are made for the first device only. -/
def ratelimiterAcquisitions (refcnt : Nat) : List DeviceResource :=
  if refcnt = 0 then [.entryCache, .tableV4, .tableV6] else []

/-- What `wg_init_aes_percpu` acquires after the probe. -/
def aesAcquisitions (nrCpus : Nat) : List DeviceResource := .aesCpu :: (List.range nrCpus).map .req

/-- What `wg_newlink` acquires before `register_netdevice` and cannot do without, in this order. -/
def setupAcquisitions (refcnt nrCpus : Nat) : List DeviceResource :=
  .peerHashtable :: .indexHashtable :: .tstats :: .handshakeReceiveWq :: .handshakeSendWq :: .packetCryptWq ::
    (queueAcquisitions .encrypt ++ (queueAcquisitions .decrypt ++ (queueAcquisitions .handshake ++
      (ratelimiterAcquisitions refcnt ++ aesAcquisitions nrCpus))))

/-- None of them fails. -/
def Succeed (o : NewlinkOutcomes) (rs : List DeviceResource) : Prop := ∀ r ∈ rs, o.fails r = false

/-! ### What is held -/

/-- The order of the acquisitions. -/
def rank : DeviceResource → Nat
  | .peerHashtable => 0
  | .indexHashtable => 1
  | .tstats => 2
  | .handshakeReceiveWq => 3
  | .handshakeSendWq => 4
  | .packetCryptWq => 5
  | .ring .encrypt => 6
  | .worker .encrypt => 7
  | .ring .decrypt => 8
  | .worker .decrypt => 9
  | .ring .handshake => 10
  | .worker .handshake => 11
  | .entryCache => 12
  | .tableV4 => 13
  | .tableV6 => 14
  | .gcWork => 15
  | .probe => 16
  | .aesCpu => 17
  | .req cpu => 18 + cpu

/-- The device holds `held`, and the rate limiter has been counted `refcnt` times. -/
structure Owns (k : Newlink) (b : Nat) (held : List DeviceResource) (refcnt : Nat) : Prop where
  holds : k.ledger.Holds rank b held
  refcnt : k.initRefcnt = refcnt

variable {o : NewlinkOutcomes} {k : Newlink} {b refcnt refcnt₀ nrCpus : Nat} {r : DeviceResource}
    {held : List DeviceResource}
variable {rs : List DeviceResource} {m : Nat}

theorem alloc_cases (o : NewlinkOutcomes) (k : Newlink) (r : DeviceResource) :
    o.fails r = true ∧ k.alloc o r = none ∨ o.fails r = false ∧ k.alloc o r = some (k.acquire r) := by
  unfold alloc
  cases o.fails r with
  | true => exact .inl ⟨rfl, rfl⟩
  | false => exact .inr ⟨rfl, rfl⟩

theorem not_succeed (hr : r ∈ rs) (hf : o.fails r = true) : ¬ Succeed o rs := by
  intro h
  rw [h r hr] at hf
  cases hf

namespace Owns

theorem acquire (h : k.Owns b held refcnt) (hr : b ≤ rank r) : (k.acquire r).Owns (rank r + 1) (r :: held) refcnt :=
  ⟨h.holds.acquire hr, h.refcnt⟩

theorem release (h : k.Owns b (r :: held) refcnt) : (k.release r).Owns b held refcnt :=
  ⟨h.holds.release, h.refcnt⟩

theorem mono (h : k.Owns b held refcnt) {b' : Nat} (hb : b ≤ b') : k.Owns b' held refcnt :=
  ⟨h.holds.mono hb, h.refcnt⟩

theorem congr (h : k.Owns b held refcnt) {held' : List DeviceResource} (hp : held.Perm held') : k.Owns b held' refcnt :=
  ⟨h.holds.congr hp, h.refcnt⟩

end Owns

/-- What is held at the labels. -/
def atPeerHashtable : List DeviceResource := [.peerHashtable]
def atIndexHashtable : List DeviceResource := .indexHashtable :: atPeerHashtable
def atTstats : List DeviceResource := .tstats :: atIndexHashtable
def atHandshakeReceive : List DeviceResource := .handshakeReceiveWq :: atTstats
def atHandshakeSend : List DeviceResource := .handshakeSendWq :: atHandshakeReceive
def atPacketCrypt : List DeviceResource := .packetCryptWq :: atHandshakeSend
def withQueue (queue : DeviceQueue) (held : List DeviceResource) : List DeviceResource :=
  .worker queue :: .ring queue :: held
def atEncryptQueue : List DeviceResource := withQueue .encrypt atPacketCrypt
def atDecryptQueue : List DeviceResource := withQueue .decrypt atEncryptQueue
def atHandshakeQueue : List DeviceResource := withQueue .handshake atDecryptQueue

/-- What the rate limiter holds for the device when it was counted `refcnt` times before. -/
def ratelimiterHeld (refcnt : Nat) : List DeviceResource :=
  if refcnt = 0 then [.gcWork, .tableV6, .tableV4, .entryCache] else []

/-! The labels release what is held there, and leave the `rest` alone. -/

section
variable {rest : List DeviceResource}

theorem Owns.errFreePeerHashtable (h : k.Owns b (atPeerHashtable ++ rest) refcnt) :
    (errFreePeerHashtable k).Owns b rest refcnt := h.release

theorem Owns.errFreeIndexHashtable (h : k.Owns b (atIndexHashtable ++ rest) refcnt) :
    (errFreeIndexHashtable k).Owns b rest refcnt := h.release.errFreePeerHashtable

theorem Owns.errFreeTstats (h : k.Owns b (atTstats ++ rest) refcnt) : (errFreeTstats k).Owns b rest refcnt :=
  h.release.errFreeIndexHashtable

theorem Owns.errDestroyHandshakeReceive (h : k.Owns b (atHandshakeReceive ++ rest) refcnt) :
    (errDestroyHandshakeReceive k).Owns b rest refcnt := h.release.errFreeTstats

theorem Owns.errDestroyHandshakeSend (h : k.Owns b (atHandshakeSend ++ rest) refcnt) :
    (errDestroyHandshakeSend k).Owns b rest refcnt := h.release.errDestroyHandshakeReceive

theorem Owns.errDestroyPacketCrypt (h : k.Owns b (atPacketCrypt ++ rest) refcnt) :
    (errDestroyPacketCrypt k).Owns b rest refcnt := h.release.errDestroyHandshakeSend

theorem Owns.queueFree {queue : DeviceQueue} (h : k.Owns b (withQueue queue held) refcnt) :
    (wgPacketQueueFree queue k).Owns b held refcnt := h.release.release

theorem Owns.errFreeEncryptQueue (h : k.Owns b (atEncryptQueue ++ rest) refcnt) :
    (errFreeEncryptQueue k).Owns b rest refcnt := .errDestroyPacketCrypt h.queueFree

theorem Owns.errFreeDecryptQueue (h : k.Owns b (atDecryptQueue ++ rest) refcnt) :
    (errFreeDecryptQueue k).Owns b rest refcnt := .errFreeEncryptQueue h.queueFree

theorem Owns.errFreeHandshakeQueue (h : k.Owns b (atHandshakeQueue ++ rest) refcnt) :
    (errFreeHandshakeQueue k).Owns b rest refcnt := .errFreeDecryptQueue h.queueFree

theorem Owns.ratelimiterUninit (h : k.Owns b (ratelimiterHeld refcnt ++ held) (refcnt + 1)) :
    (wgRatelimiterUninit k).Owns b held refcnt := by
  have hcount := h.refcnt
  have hdec : ({ k with initRefcnt := k.initRefcnt - 1 } : Newlink).Owns b (ratelimiterHeld refcnt ++ held) refcnt :=
    ⟨h.holds, by rw [hcount]; rfl⟩
  unfold wgRatelimiterUninit
  rw [if_neg (by omega)]
  unfold ratelimiterHeld at hdec
  by_cases hzero : refcnt = 0
  · rw [if_pos hzero] at hdec
    rw [if_neg (by rw [hdec.refcnt]; exact not_not.mpr hzero)]
    have hperm : ([.gcWork, .tableV6, .tableV4, .entryCache] ++ held : List DeviceResource).Perm
        (.gcWork :: .tableV4 :: .tableV6 :: .entryCache :: held) := (List.Perm.swap ..).cons _
    exact (hdec.congr hperm).release.release.release.release
  · rw [if_neg hzero] at hdec
    rw [if_pos (by rw [hdec.refcnt]; exact hzero)]
    exact hdec

theorem Owns.errUninitRatelimiter (h : k.Owns b (ratelimiterHeld refcnt ++ (atHandshakeQueue ++ rest)) (refcnt + 1)) :
    (errUninitRatelimiter k).Owns b rest refcnt := h.ratelimiterUninit.errFreeHandshakeQueue

end

/-- A call that acquires `rs` fails, and holds what was held before, or succeeds. -/
def Called (o : NewlinkOutcomes) (rs : List DeviceResource) (b : Nat) (held : List DeviceResource) (refcnt : Nat)
    (Ok : Newlink → Prop) (out : Int × Newlink) : Prop :=
  out.1 < 0 ∧ out.2.Owns b held refcnt ∧ ¬ Succeed o rs ∨ out.1 = 0 ∧ Ok out.2 ∧ Succeed o rs

/-- A queue is made as a whole or not at all. -/
theorem Owns.queueInit (o : NewlinkOutcomes) (queue : DeviceQueue) (h : k.Owns b held refcnt)
    (hb : b ≤ rank (.ring queue)) :
    Called o (queueAcquisitions queue) (rank (.worker queue) + 1) held refcnt
      (·.Owns (rank (.worker queue) + 1) (withQueue queue held) refcnt) (wgPacketQueueInit o queue k) := by
  have hrank : rank (.ring queue) + 1 ≤ rank (.worker queue) := by rcases queue with _ | _ | _ <;> decide
  have herr : enomem < 0 := by decide
  unfold wgPacketQueueInit
  rcases alloc_cases o k (.ring queue) with ⟨hf, hring⟩ | ⟨hf, hring⟩ <;> rw [hring]
  · exact .inl ⟨herr, h.mono (by omega), not_succeed (by simp [queueAcquisitions]) hf⟩
  · have hring' := h.acquire hb
    dsimp only
    rcases alloc_cases o (k.acquire (.ring queue)) (.worker queue) with ⟨hf', hworker⟩ | ⟨hf', hworker⟩ <;> rw [hworker]
    · exact .inl ⟨herr, (hring'.mono (by omega)).release, not_succeed (by simp [queueAcquisitions]) hf'⟩
    · exact .inr ⟨rfl, hring'.acquire hrank, by simp [Succeed, queueAcquisitions, hf, hf']⟩

theorem Owns.ratelimiterAlloc (h : k.Owns b held 1) (hb : b ≤ rank .entryCache) :
    Called o (ratelimiterAcquisitions 0) (rank .gcWork + 1) held 0
      (·.Owns (rank .gcWork + 1) (ratelimiterHeld 0 ++ held) 1) (ratelimiterAlloc o k) := by
  have herr : enomem < 0 := by decide
  -- `--init_refcnt` on the way out
  have hdec {k : Newlink} {b : Nat} (h : k.Owns b held 1) (hb : b ≤ rank .gcWork + 1) :
      ({ k with initRefcnt := k.initRefcnt - 1 } : Newlink).Owns (rank .gcWork + 1) held 0 :=
    ⟨h.holds.mono hb, by rw [h.refcnt]⟩
  unfold Newlink.ratelimiterAlloc
  rcases alloc_cases o k .entryCache with ⟨hf, hcache⟩ | ⟨hf, hcache⟩ <;> rw [hcache]
  · exact .inl ⟨herr, hdec h (Nat.le_trans hb (by decide)), not_succeed (by decide) hf⟩
  · have hcache' := h.acquire hb
    dsimp only
    rcases alloc_cases o (k.acquire .entryCache) .tableV4 with ⟨hf', hv4⟩ | ⟨hf', hv4⟩ <;> rw [hv4]
    · exact .inl ⟨herr, hdec hcache'.release (by decide), not_succeed (by decide) hf'⟩
    · have hv4' := hcache'.acquire (r := .tableV4) (by decide)
      dsimp only
      rcases alloc_cases o ((k.acquire .entryCache).acquire .tableV4)
        .tableV6 with ⟨hf'', hv6⟩ | ⟨hf'', hv6⟩ <;> rw [hv6]
      · exact .inl ⟨herr, hdec hv4'.release.release (by decide), not_succeed (by decide) hf''⟩
      · exact .inr ⟨rfl, (hv4'.acquire (r := .tableV6) (by decide)).acquire (by decide),
          by simp [Succeed, ratelimiterAcquisitions, hf, hf', hf'']⟩

theorem Owns.ratelimiterInit (o : NewlinkOutcomes) (h : k.Owns b held refcnt) (hb : b ≤ rank .entryCache) :
    Called o (ratelimiterAcquisitions refcnt) (rank .gcWork + 1) held refcnt
      (·.Owns (rank .gcWork + 1) (ratelimiterHeld refcnt ++ held) (refcnt + 1)) (wgRatelimiterInit o k) := by
  have hinc : ({ k with initRefcnt := k.initRefcnt + 1 } : Newlink).Owns b held (refcnt + 1) :=
    ⟨h.holds, by rw [h.refcnt]⟩
  have hcount := h.refcnt
  unfold wgRatelimiterInit
  by_cases hzero : refcnt = 0
  · subst hzero
    rw [if_neg (by dsimp only; omega)]
    exact hinc.ratelimiterAlloc hb
  · rw [if_pos (by dsimp only; omega)]
    refine .inr ⟨rfl, ?_, ?_⟩
    · rw [ratelimiterHeld, if_neg hzero]
      exact hinc.mono (Nat.le_trans hb (by decide))
    · rw [ratelimiterAcquisitions, if_neg hzero]
      exact List.forall_mem_nil _

theorem filter_range_perm {n : Nat} (h : m ≤ n) :
    ((List.range n).filter (· ∈ List.range m)).Perm (List.range m) := by
  refine (List.perm_ext_iff_of_nodup (List.nodup_range.filter _) List.nodup_range).mpr fun i => ?_
  simp only [List.mem_filter, List.mem_range, decide_eq_true_eq]
  omega

/-- The loop of `wg_free_aes_percpu` releases the requests that are there. -/
theorem releaseRequests {cpus reqs : List Nat}
    (h : k.ledger.Holds rank b ((cpus.filter (· ∈ reqs)).map .req ++ held)) :
    (cpus.foldl (fun k cpu => if cpu ∈ reqs then k.release (.req cpu) else k) k).ledger.Holds rank b held ∧
    (cpus.foldl (fun k cpu => if cpu ∈ reqs then k.release (.req cpu) else k) k).initRefcnt = k.initRefcnt := by
  induction cpus generalizing k with
  | nil => exact ⟨h, rfl⟩
  | cons cpu cpus ih =>
    rw [List.foldl_cons]
    by_cases hmem : cpu ∈ reqs
    · rw [List.filter_cons_of_pos (by simpa using hmem)] at h
      rw [if_pos hmem]
      exact ih h.release
    · rw [List.filter_cons_of_neg (by simpa using hmem)] at h
      rw [if_neg hmem]
      exact ih h

/-- The requests of the CPUs below `m` are there. -/
structure Requests (k : Newlink) (m : Nat) (held : List DeviceResource) (refcnt : Nat) : Prop where
  holds : k.ledger.Holds rank (rank (.req m)) ((List.range m).map .req ++ .aesCpu :: held)
  refcnt : k.initRefcnt = refcnt
  aesCpu : k.aesCpu = some (List.range m)

theorem Requests.free (h : k.Requests m held refcnt) (hm : m ≤ nrCpus) :
    (wgFreeAesPercpu nrCpus k).Owns (rank (.req nrCpus)) held refcnt := by
  have hperm : ((List.range m).map DeviceResource.req ++ .aesCpu :: held).Perm
      (((List.range nrCpus).filter (· ∈ List.range m)).map DeviceResource.req ++ .aesCpu :: held) :=
    ((filter_range_perm hm).symm.map _).append_right _
  obtain ⟨hfold, hcount⟩ := releaseRequests (h.holds.congr hperm)
  have hrank : rank (.req m) ≤ rank (.req nrCpus) := Nat.add_le_add_left hm 18
  unfold wgFreeAesPercpu
  rw [h.aesCpu]
  exact ⟨hfold.release.mono hrank, hcount.trans h.refcnt⟩

theorem Requests.succ (h : k.Requests m held refcnt) :
    ({ k.acquire (.req m) with aesCpu := some (List.range m ++ [m]) } : Newlink).Requests (m + 1) held refcnt := by
  have hperm : (DeviceResource.req m :: ((List.range m).map .req ++ .aesCpu :: held)).Perm
      ((List.range (m + 1)).map .req ++ .aesCpu :: held) := by
    rw [List.range_succ, List.map_append, List.append_assoc]
    exact List.perm_middle.symm
  refine ⟨(h.holds.acquire (Nat.le_refl _)).congr hperm, h.refcnt, ?_⟩
  rw [List.range_succ]

/-- Either every CPU gets its request, or none keeps one. -/
theorem Requests.alloc (o : NewlinkOutcomes) {j : Nat} (h : k.Requests m held refcnt) (hn : m + j = nrCpus) :
    Called o ((List.range' m j).map .req) (rank (.req nrCpus)) held refcnt (·.Requests nrCpus held refcnt)
      (allocRequests o nrCpus (List.range m) (List.range' m j) k) := by
  induction j generalizing m k with
  | zero =>
    rw [Nat.add_zero] at hn
    exact .inr ⟨rfl, hn ▸ h, List.forall_mem_nil _⟩
  | succ j ih =>
    rw [List.range'_succ, allocRequests, List.map_cons]
    rcases alloc_cases o k (.req m) with ⟨hf, hreq⟩ | ⟨hf, hreq⟩ <;> rw [hreq]
    · exact .inl ⟨show enomem < 0 by decide, h.free (by omega), not_succeed List.mem_cons_self hf⟩
    · have hnext := ih h.succ (by omega)
      rw [List.range_succ] at hnext
      refine hnext.imp (fun ⟨hret, hk, hs⟩ => ⟨hret, hk, fun h => hs (List.forall_mem_cons.mp h).2⟩) ?_
      exact fun ⟨hret, hk, hs⟩ => ⟨hret, hk, List.forall_mem_cons.mpr ⟨hf, hs⟩⟩

/-- Without the probe there are no requests, and the device uses ChaCha20-Poly1305. -/
theorem Owns.initAesPercpu (o : NewlinkOutcomes) (nrCpus : Nat) (h : k.Owns b held refcnt) (hb : b ≤ rank .probe) :
    o.fails .probe = true ∧ (wgInitAesPercpu o nrCpus k).1 = 0 ∧
        (wgInitAesPercpu o nrCpus k).2.Owns (rank (.req nrCpus)) held refcnt ∨
      o.fails .probe = false ∧ Called o (aesAcquisitions nrCpus) (rank (.req nrCpus)) held refcnt
        (·.Requests nrCpus held refcnt) (wgInitAesPercpu o nrCpus k) := by
  have hreq : rank .probe + 1 + 1 ≤ rank (.req nrCpus) := Nat.le_add_right 18 nrCpus
  unfold wgInitAesPercpu
  rcases alloc_cases o k .probe with ⟨hp, hprobe⟩ | ⟨hp, hprobe⟩ <;> rw [hprobe]
  · have hmono := h.mono (Nat.le_trans hb (by omega : rank .probe ≤ rank (.req nrCpus)))
    exact .inl ⟨hp, rfl, hmono.holds, hmono.refcnt⟩
  · refine .inr ⟨hp, ?_⟩
    have hprobe' := (h.acquire hb).release
    dsimp only
    rcases alloc_cases o ((k.acquire .probe).release .probe) .aesCpu with ⟨hf, haes⟩ | ⟨hf, haes⟩ <;> rw [haes]
    · exact .inl ⟨show enomem < 0 by decide, hprobe'.mono (by omega), not_succeed List.mem_cons_self hf⟩
    · have haes' := hprobe'.acquire (r := .aesCpu) (by decide)
      have hstart : ({ ((k.acquire .probe).release .probe).acquire .aesCpu with
        aesCpu := some [] } : Newlink).Requests 0
          held refcnt := ⟨haes'.holds, haes'.refcnt, rfl⟩
      have hres := hstart.alloc o (Nat.zero_add nrCpus)
      rw [List.range_zero, ← List.range_eq_range'] at hres
      refine hres.imp (fun ⟨hret, hk, hs⟩ => ⟨hret, hk, fun h => hs (List.forall_mem_cons.mp h).2⟩) ?_
      exact fun ⟨hret, hk, hs⟩ => ⟨hret, hk, List.forall_mem_cons.mpr ⟨hf, hs⟩⟩

/-- What the device holds after the set-up, beside its requests. -/
def setupHeld (refcnt : Nat) : List DeviceResource := ratelimiterHeld refcnt ++ atHandshakeQueue

/-- Nothing is left over if one of `rs` fails; else the device holds everything, and its requests if
it uses AES-GCM. -/
def Outcome (o : NewlinkOutcomes) (nrCpus : Nat) (rs : List DeviceResource) (refcnt : Nat)
    (out : Int × Newlink) : Prop :=
  (∃ b, out.1 < 0 ∧ out.2.Owns b [] refcnt ∧ ¬ Succeed o rs) ∨
    out.1 = 0 ∧ ((∃ b, out.2.Owns b (setupHeld refcnt) (refcnt + 1) ∧ o.fails .probe = true) ∨
      out.2.Requests nrCpus (setupHeld refcnt) (refcnt + 1) ∧ o.fails .probe = false ∧ Succeed o rs)

theorem Outcome.append {rs' : List DeviceResource} {out : Int × Newlink} (h : Outcome o nrCpus rs' refcnt out)
    (hrs : Succeed o rs) : Outcome o nrCpus (rs ++ rs') refcnt out := by
  rcases h with ⟨b, hret, hk, hs⟩ | ⟨hret, hk | ⟨hk, hp, hs⟩⟩
  · exact .inl ⟨b, hret, hk, fun h => hs (List.forall_mem_append.mp h).2⟩
  · exact .inr ⟨hret, .inl hk⟩
  · exact .inr ⟨hret, .inr ⟨hk, hp, List.forall_mem_append.mpr ⟨hrs, hs⟩⟩⟩

theorem outcome_alloc {label : Newlink → Newlink} {next : Newlink → Int × Newlink}
    (h : k.Owns b held refcnt) (hb : b ≤ rank r) (hlabel : (label k).Owns b [] refcnt)
    (hnext : ∀ k : Newlink, k.Owns (rank r + 1) (r :: held) refcnt → Outcome o nrCpus rs refcnt (next k)) :
    Outcome o nrCpus (r :: rs) refcnt (allocOrGoto o r label next k) := by
  unfold allocOrGoto
  rcases alloc_cases o k r with ⟨hf, ha⟩ | ⟨hf, ha⟩ <;> rw [ha]
  · exact .inl ⟨b, show enomem < 0 by decide, hlabel, not_succeed List.mem_cons_self hf⟩
  · have hs : Succeed o [r] := List.forall_mem_singleton.mpr hf
    exact (hnext _ (h.acquire hb)).append hs

theorem outcome_call {Ok : Newlink → Prop} {rs' : List DeviceResource} {out : Int × Newlink}
    {label : Newlink → Newlink} {next : Newlink → Int × Newlink} (h : Called o rs b held refcnt Ok out)
    (hlabel : ∀ k : Newlink, k.Owns b held refcnt → (label k).Owns b [] refcnt₀)
    (hnext : ∀ k, Ok k → Succeed o rs → Outcome o nrCpus rs' refcnt₀ (next k)) :
    Outcome o nrCpus (rs ++ rs') refcnt₀ (orGoto out label next) := by
  unfold orGoto
  rcases h with ⟨hret, hk, hs⟩ | ⟨hret, hk, hs⟩
  · rw [if_pos hret]
    exact .inl ⟨b, hret, hlabel out.2 hk, fun h => hs (List.forall_mem_append.mp h).1⟩
  · rw [if_neg (by rw [hret]; exact Int.lt_irrefl 0)]
    exact (hnext out.2 hk hs).append hs

theorem outcome_aes (o : NewlinkOutcomes) (nrCpus : Nat) (h : k.Owns b (setupHeld refcnt) (refcnt + 1))
    (hb : b ≤ rank .probe) :
    Outcome o nrCpus (aesAcquisitions nrCpus) refcnt
      (orGoto (wgInitAesPercpu o nrCpus k) errUninitRatelimiter fun k => (0, k)) := by
  rcases h.initAesPercpu o nrCpus hb with ⟨hp, hret, hk⟩ | ⟨hp, hcall⟩
  · unfold orGoto
    rw [if_neg (by rw [hret]; exact Int.lt_irrefl 0)]
    exact .inr ⟨rfl, .inl ⟨_, hk, hp⟩⟩
  · rw [← List.append_nil (aesAcquisitions nrCpus)]
    exact outcome_call hcall (fun k hk => .errUninitRatelimiter hk) fun k hk hs =>
      .inr ⟨rfl, .inr ⟨hk, hp, List.forall_mem_nil _⟩⟩

theorem Owns.setup (o : NewlinkOutcomes) (nrCpus : Nat) (h : k.Owns 0 [] refcnt) :
    Outcome o nrCpus (setupAcquisitions refcnt nrCpus) refcnt (setup o nrCpus k) := by
  unfold Newlink.setup
  refine outcome_alloc h (Nat.le_refl 0) h fun k h => ?_
  refine outcome_alloc h (Nat.le_refl 1) h.errFreePeerHashtable fun k h => ?_
  refine outcome_alloc h (Nat.le_refl 2) h.errFreeIndexHashtable fun k h => ?_
  refine outcome_alloc h (Nat.le_refl 3) h.errFreeTstats fun k h => ?_
  refine outcome_alloc h (Nat.le_refl 4) h.errDestroyHandshakeReceive fun k h => ?_
  refine outcome_alloc h (Nat.le_refl 5) h.errDestroyHandshakeSend fun k h => ?_
  refine outcome_call (h.queueInit o .encrypt (Nat.le_refl 6)) (fun k h => h.errDestroyPacketCrypt) fun k h _ => ?_
  refine outcome_call (h.queueInit o .decrypt (Nat.le_refl 8)) (fun k h => h.errFreeEncryptQueue) fun k h _ => ?_
  refine outcome_call (h.queueInit o .handshake (Nat.le_refl 10)) (fun k h => h.errFreeDecryptQueue) fun k h _ => ?_
  refine outcome_call (h.ratelimiterInit o (Nat.le_refl 12)) (fun k h => h.errFreeHandshakeQueue) fun k h _ => ?_
  exact outcome_aes o nrCpus h (Nat.le_refl 16)

/-- After a failed `register_netdevice` the requests are left. -/
theorem Requests.errUninitRatelimiter (h : k.Requests nrCpus (setupHeld refcnt) (refcnt + 1)) :
    ¬ (errUninitRatelimiter k).ledger.released.Perm (errUninitRatelimiter k).ledger.acquired := by
  have hperm : ((List.range nrCpus).map DeviceResource.req ++ .aesCpu :: setupHeld refcnt).Perm
      (ratelimiterHeld refcnt ++ (atHandshakeQueue ++ (.aesCpu :: (List.range nrCpus).map .req))) := by
    rw [← List.append_assoc]
    exact List.perm_middle.trans ((List.perm_append_comm.cons _).trans List.perm_middle.symm)
  have howns : k.Owns (rank (.req nrCpus)) (setupHeld refcnt ++ aesAcquisitions nrCpus) (refcnt + 1) := by
    rw [setupHeld, List.append_assoc]
    exact ⟨h.holds.congr hperm, h.refcnt⟩
  rw [setupHeld, List.append_assoc] at howns
  exact howns.errUninitRatelimiter.holds.not_settled (List.cons_ne_nil _ _)

/-- When `wg_newlink` returns an error, everything that it has acquired has been released once and
the rate limiter is counted as before, unless it was `register_netdevice` that failed for a device
with AES-GCM requests: exactly if `register_netdevice` would not fail, or the probe for AES-GCM
fails, or something that the set-up cannot do without. -/
theorem newlink_error_releases (o : NewlinkOutcomes) (nrCpus refcnt : Nat)
    (herr : (wgNewlink o nrCpus (start refcnt)).1 < 0) :
    ((wgNewlink o nrCpus (start refcnt)).2.ledger.acquired.Nodup ∧
      (wgNewlink o nrCpus (start refcnt)).2.ledger.released.Perm (wgNewlink o nrCpus (start refcnt)).2.ledger.acquired ∧
      (wgNewlink o nrCpus (start refcnt)).2.initRefcnt = refcnt) ↔
    0 ≤ o.registerNetdevice ∨ o.fails .probe = true ∨ ∃ r ∈ setupAcquisitions refcnt nrCpus, o.fails r = true := by
  have hstart : (start refcnt).Owns 0 [] refcnt := ⟨.empty, rfl⟩
  have hreleased {k : Newlink} {b : Nat} (h : k.Owns b [] refcnt) : k.ledger.acquired.Nodup ∧
      k.ledger.released.Perm k.ledger.acquired ∧ k.initRefcnt = refcnt :=
    ⟨h.holds.settled.1, h.holds.settled.2, h.refcnt⟩
  unfold wgNewlink orGoto at herr ⊢
  rcases hstart.setup o nrCpus with ⟨b, hret, hk, hs⟩ | ⟨hret, hk⟩
  · -- the set-up has failed
    rw [if_pos hret]
    refine iff_of_true (hreleased hk) (.inr (.inr ?_))
    by_contra hnone
    refine hs fun r hr => Bool.eq_false_iff.mpr fun hf => hnone ⟨r, hr, hf⟩
  · have hpos : ¬ (setup o nrCpus (start refcnt)).1 < 0 := by
      rw [hret]
      exact Int.lt_irrefl 0
    rw [if_neg hpos] at herr ⊢
    dsimp only at herr ⊢
    have hneg : o.registerNetdevice < 0 := by
      by_contra hneg
      rw [if_neg hneg] at herr
      exact hneg herr
    rw [if_pos hneg]
    rcases hk with ⟨b, hk, hp⟩ | ⟨hk, hp, hs⟩
    · exact iff_of_true (hreleased (.errUninitRatelimiter hk)) (.inr (.inl hp))
    · -- `register_netdevice` has failed, and nothing else
      refine iff_of_false (fun h => hk.errUninitRatelimiter h.2.1) ?_
      rintro (hnonneg | hprobe | ⟨r, hr, hf⟩)
      · exact Int.not_le.mpr hneg hnonneg
      · exact Bool.false_ne_true (hp.symm.trans hprobe)
      · exact not_succeed hr hf hs

/-- The request of the second CPU cannot be allocated, on the first device. -/
theorem newlink_error_releases_request :
    (wgNewlink ⟨fun r => r = .req 1, 0⟩ 2 (start 0)).1 = enomem ∧
    (wgNewlink ⟨fun r => r = .req 1, 0⟩ 2 (start 0)).2.ledger.acquired.length = 19 ∧
    (wgNewlink ⟨fun r => r = .req 1, 0⟩ 2 (start 0)).2.ledger.released.Perm
      (wgNewlink ⟨fun r => r = .req 1, 0⟩ 2 (start 0)).2.ledger.acquired :=
  ⟨by decide, by decide, ((newlink_error_releases ⟨fun r => r = .req 1, 0⟩ 2 0 (by decide)).mpr (.inl (by decide))).2.1⟩

/-- `register_netdevice` fails: the request of the CPU and the per-CPU array are never released. -/
theorem registerFails_leaks_requests :
    (wgNewlink ⟨fun _ => false, -17⟩ 1 (start 0)).1 = -17 ∧
    .req 0 ∈ (wgNewlink ⟨fun _ => false, -17⟩ 1 (start 0)).2.ledger.acquired ∧
    .req 0 ∉ (wgNewlink ⟨fun _ => false, -17⟩ 1 (start 0)).2.ledger.released ∧
    .aesCpu ∈ (wgNewlink ⟨fun _ => false, -17⟩ 1 (start 0)).2.ledger.acquired ∧
    .aesCpu ∉ (wgNewlink ⟨fun _ => false, -17⟩ 1 (start 0)).2.ledger.released := by
  decide

end Newlink
end WireguardAes
