import WireguardAes.DataPath
import WireguardAes.Lib.Runs
import Mathlib.Data.List.Perm.Basic

/-!
# The AEAD request of a CPU (`send.c`, `receive.c`, `device.h`)

`wg_packet_encrypt_worker` and `wg_packet_decrypt_worker` of a device with AES-GCM, on one CPU. Both
use the `aead_request` of that CPU: for every packet it is bound to the handle of the keypair, set
up, and handed to the crypto API. A step is one call of the API or one section of a worker around
it; a switch between the workers is a step of its own, and so is the completion of an operation for
which the API returned `-EINPROGRESS`. Bundles are released by `wg_packet_tx_worker` and
`wg_packet_rx_poll`.
-/

namespace WireguardAes

open Function Runs

inductive CryptWorker where
  | encrypt
  | decrypt
  deriving DecidableEq

def CryptWorker.other : CryptWorker → CryptWorker
  | .encrypt => .decrypt
  | .decrypt => .encrypt

/-- A packet, by its buffer, with what is needed for its request; `len` is `plaintext_len` or
`skb->len`. -/
structure CryptJob where
  skb : Nat
  keypair : NoiseKeypair
  nonce : U64
  len : Nat

/-- Source and destination are both the scatterlist of one buffer. -/
structure AeadRequest where
  tfm : Option Bytes
  assoclen : Nat
  sg : Option Nat
  cryptlen : Nat
  iv : Bytes

def CryptWorker.tfm (keypair : NoiseKeypair) : CryptWorker → Option Bytes
  | .encrypt => keypair.aeadEnc
  | .decrypt => keypair.aeadDec

/-- The request that is set up for this packet and no other. -/
def ownRequest (w : CryptWorker) (job : CryptJob) : AeadRequest where
  tfm := w.tfm job.keypair
  assoclen := 0
  sg := some job.skb
  cryptlen := job.len
  iv := gcmIv job.nonce

/-- Which calls have been made for the current packet. -/
inductive SetupPhase where
  | start
  | tfmSet
  | callbackSet
  | adSet
  | cryptSet
  deriving DecidableEq

/-- The next `aead_request_set_*` call. The callback is the null one of a zeroed request. -/
def setRequest (w : CryptWorker) (job : CryptJob) (req : AeadRequest) : SetupPhase → Option (SetupPhase × AeadRequest)
  | .start => some (.tfmSet, { req with tfm := w.tfm job.keypair })
  | .tfmSet => some (.callbackSet, req)
  | .callbackSet => some (.adSet, { req with assoclen := 0 })
  | .adSet => some (.cryptSet, { req with sg := some job.skb, cryptlen := job.len, iv := gcmIv job.nonce })
  | .cryptSet => none

inductive PacketState where
  | crypted
  | dead

/-- A worker in the middle of a bundle; the decrypt worker's bundles have one packet. -/
structure CryptWork where
  phase : SetupPhase
  done : List CryptJob
  job : CryptJob
  rest : List CryptJob

def CryptWork.bundle (work : CryptWork) : List CryptJob := work.done ++ work.job :: work.rest

inductive WorkerPc where
  /-- Before `ptr_ring_consume_bh`. -/
  | idle
  | crypting (work : CryptWork)
  /-- Before `wg_queue_enqueue_per_peer_tx` or `_rx`. -/
  | ending (bundle : List CryptJob) (state : PacketState)

/-- After a packet that went well. -/
def CryptWork.next (work : CryptWork) : WorkerPc :=
  match work.rest with
  | [] => .ending work.bundle .crypted
  | job :: rest => .crypting ⟨.start, work.done ++ [work.job], job, rest⟩

structure QueuedBundle where
  worker : CryptWorker
  bundle : List CryptJob
  state : PacketState

/-- An operation that has been carried out, with the request it was carried out with. -/
structure ProcessedOp where
  worker : CryptWorker
  job : CryptJob
  req : AeadRequest

structure AeadState where
  req : AeadRequest
  running : CryptWorker
  pc : CryptWorker → WorkerPc
  inFlight : List (CryptWorker × CryptJob)
  queued : List QueuedBundle
  released : List Nat
  processed : List ProcessedOp

/-- What `crypto_aead_encrypt` or `crypto_aead_decrypt` returns. -/
inductive CryptResult where
  | ok
  | failed
  | inProgress
  deriving DecidableEq

inductive AeadEvent where
  /-- `ptr_ring_consume_bh` gives the running worker a bundle. -/
  | take (jobs : List CryptJob)
  /-- `skb_cow_data`, `skb_cow_head`, `skb_checksum_help` or `skb_to_sgvec` fails, or the keypair
  has expired. -/
  | prepareFails
  | call
  | crypt (result : CryptResult)
  /-- `pskb_trim` fails. -/
  | trimFails
  | enqueue
  | release (i : Nat)
  | complete (i : Nat)
  | switch

def WorkerPc.bundle : WorkerPc → List CryptJob
  | .idle => []
  | .crypting work => work.bundle
  | .ending bundle _ => bundle

/-- The packets of a bundle for which the worker has seen a success. -/
def WorkerPc.finished : WorkerPc → List CryptJob
  | .idle => []
  | .crypting work => work.done
  | .ending bundle .crypted => bundle
  | .ending _ .dead => []

/-- The packet for which the worker has begun to set up the request. -/
def WorkerPc.opened : WorkerPc → Option CryptJob
  | .crypting work => if work.phase = .start then none else some work.job
  | _ => none

namespace AeadState

/-- The request comes from `kzalloc`. -/
def init : AeadState where
  req := ⟨none, 0, none, 0, []⟩
  running := .encrypt
  pc _ := .idle
  inFlight := []
  queued := []
  released := []
  processed := []

def queuedBuffers (s : AeadState) : List Nat := s.queued.flatMap fun q => q.bundle.map CryptJob.skb

/-- All the buffers that have been seen. -/
def buffers (s : AeadState) : List Nat :=
  (s.pc .encrypt).bundle.map CryptJob.skb ++ (s.pc .decrypt).bundle.map CryptJob.skb ++ s.queuedBuffers ++ s.released

/-- The packets between their first `aead_request_set_*` call and the end of their operation. -/
def windows (s : AeadState) : List CryptJob :=
  (s.pc .encrypt).opened.toList ++ (s.pc .decrypt).opened.toList ++ s.inFlight.map Prod.snd

def goto (s : AeadState) (pc : WorkerPc) : AeadState := { s with pc := update s.pc s.running pc }

def step (s : AeadState) : AeadEvent → Option AeadState
  | .take jobs =>
    match s.pc s.running, jobs with
    | .idle, job :: rest =>
      if ((job :: rest).map CryptJob.skb ++ s.buffers).Nodup ∧ (s.running = .decrypt → rest.length = 0) then
        some (s.goto (.crypting ⟨.start, [], job, rest⟩))
      else none
    | _, _ => none
  | .prepareFails =>
    match s.pc s.running with
    | .crypting work => if work.phase = .start then some (s.goto (.ending work.bundle .dead)) else none
    | _ => none
  | .call =>
    match s.pc s.running with
    | .crypting work => (setRequest s.running work.job s.req work.phase).map fun (phase, req) =>
        { s.goto (.crypting { work with phase }) with req }
    | _ => none
  | .crypt result =>
    match s.pc s.running with
    | .crypting work =>
      if work.phase = .cryptSet then
        let op := ⟨s.running, work.job, s.req⟩
        match result with
        | .ok => some { s.goto work.next with processed := op :: s.processed }
        | .failed => some { s.goto (.ending work.bundle .dead) with processed := op :: s.processed }
        -- every return value but 0 is a failure for the worker
        | .inProgress => some { s.goto (.ending work.bundle .dead) with
            inFlight := (s.running, work.job) :: s.inFlight }
      else none
    | _ => none
  | .trimFails =>
    match s.running, s.pc s.running with
    | .decrypt, .ending bundle .crypted => some (s.goto (.ending bundle .dead))
    | _, _ => none
  | .enqueue =>
    match s.pc s.running with
    | .ending bundle state => some { s.goto .idle with queued := ⟨s.running, bundle, state⟩ :: s.queued }
    | _ => none
  | .release i =>
    (s.queued[i]?).map fun q =>
      { s with queued := s.queued.eraseIdx i, released := q.bundle.map CryptJob.skb ++ s.released }
  | .complete i =>
    (s.inFlight[i]?).map fun (w, job) =>
      { s with inFlight := s.inFlight.eraseIdx i, processed := ⟨w, job, s.req⟩ :: s.processed }
  | .switch => some { s with running := s.running.other }

/-! ### Runs without interference -/

/-- The condition on a step: the CPU does not switch to the other worker between the first
`aead_request_set_*` call for a packet and the return of the operation, and operations are
synchronous. -/
def Uninterrupted (s : AeadState) : AeadEvent → Prop
  | .switch => (s.pc s.running).opened.isNone
  | .crypt result => result ≠ .inProgress
  | _ => True

instance (s : AeadState) : (e : AeadEvent) → Decidable (s.Uninterrupted e)
  | .switch => inferInstanceAs (Decidable (_ = true))
  | .crypt _ => inferInstanceAs (Decidable (_ ≠ _))
  | .take _ | .prepareFails | .call | .trimFails | .enqueue | .release _ | .complete _ =>
    inferInstanceAs (Decidable True)

/-- A packet has the request, and its own buffer, to itself, and is processed with its own
request. -/
structure ExclusiveUse (s : AeadState) : Prop where
  exclusive : s.windows.length ≤ 1
  unreleased : ∀ job ∈ s.windows, job.skb ∉ s.released
  own : ∀ op ∈ s.processed, op.req = ownRequest op.worker op.job
  crypted : ∀ q ∈ s.queued, q.state = .crypted →
    ∀ job ∈ q.bundle, ⟨q.worker, job, ownRequest q.worker job⟩ ∈ s.processed

end AeadState

/-- The part of the request that the calls made so far have set. -/
def Prepared (req own : AeadRequest) : SetupPhase → Prop
  | .start => True
  | .tfmSet | .callbackSet => req.tfm = own.tfm
  | .adSet => req.tfm = own.tfm ∧ req.assoclen = own.assoclen
  | .cryptSet => req = own

theorem Prepared.setRequest {w : CryptWorker} {job : CryptJob} {req req' : AeadRequest} {phase phase' : SetupPhase}
    (h : Prepared req (ownRequest w job) phase) (hs : setRequest w job req phase = some (phase', req')) :
    Prepared req' (ownRequest w job) phase' := by
  cases phase with
  | start | tfmSet => cases hs; first | rfl | exact h
  | callbackSet =>
    cases hs
    exact ⟨h, rfl⟩
  | adSet =>
    obtain ⟨htfm, had⟩ := h
    cases hs
    unfold Prepared ownRequest at *
    rw [htfm, had]
  | cryptSet => cases hs

theorem CryptWork.bundle_next (work : CryptWork) : work.next.bundle = work.bundle := by
  unfold CryptWork.next
  split
  · rfl
  case h_2 job rest h =>
    simp [WorkerPc.bundle, CryptWork.bundle, h]

theorem CryptWork.mem_finished_next {work : CryptWork} {job : CryptJob} (h : job ∈ work.next.finished) :
    job ∈ work.done ∨ job = work.job := by
  unfold CryptWork.next at h
  split at h
  case h_1 hrest =>
    simpa [WorkerPc.finished, CryptWork.bundle, hrest] using h
  · simpa [WorkerPc.finished] using h

namespace AeadState

variable {s s' : AeadState} {pc : WorkerPc}
variable {work : CryptWork}

/-- The buffers that are not in the hands of the running worker. -/
def elsewhere (s : AeadState) : List Nat :=
  (s.pc s.running.other).bundle.map CryptJob.skb ++ s.queuedBuffers ++ s.released

theorem buffers_perm (s : AeadState) :
    s.buffers.Perm ((s.pc s.running).bundle.map CryptJob.skb ++ s.elsewhere) := by
  unfold buffers elsewhere
  cases s.running with
  | encrypt => simp [CryptWorker.other]
  | decrypt =>
    simp only [CryptWorker.other, ← List.append_assoc]
    exact (List.perm_append_comm.append_right _).append_right _

theorem running_ne_other (w : CryptWorker) : w.other ≠ w := by cases w <;> decide

theorem buffers_goto (s : AeadState) (pc : WorkerPc) :
    (s.goto pc).buffers.Perm (pc.bundle.map CryptJob.skb ++ s.elsewhere) := by
  have hself : (s.goto pc).pc s.running = pc := update_self ..
  have hother : (s.goto pc).pc s.running.other = s.pc s.running.other :=
    update_of_ne (running_ne_other _) ..
  have hperm := (s.goto pc).buffers_perm
  unfold elsewhere at hperm ⊢
  rw [show (s.goto pc).running = s.running from rfl, hself, hother] at hperm
  exact hperm

theorem buffers_queue (s : AeadState) (q : QueuedBundle) :
    { s with queued := q :: s.queued }.buffers.Perm (q.bundle.map CryptJob.skb ++ s.buffers) := by
  refine List.perm_iff_count.mpr fun skb => ?_
  simp only [buffers, queuedBuffers, List.flatMap_cons, List.count_append]
  omega

structure Inv (s : AeadState) : Prop where
  sync : s.inFlight = []
  parked : (s.pc s.running.other).opened = none
  nodup : s.buffers.Nodup
  prepared : ∀ work, s.pc s.running = .crypting work → Prepared s.req (ownRequest s.running work.job) work.phase
  own : ∀ op ∈ s.processed, op.req = ownRequest op.worker op.job
  finished : ∀ w, ∀ job ∈ (s.pc w).finished, ⟨w, job, ownRequest w job⟩ ∈ s.processed
  crypted : ∀ q ∈ s.queued, q.state = .crypted →
    ∀ job ∈ q.bundle, ⟨q.worker, job, ownRequest q.worker job⟩ ∈ s.processed

namespace Inv

theorem init : Inv AeadState.init :=
  ⟨rfl, rfl, List.nodup_nil, by rintro _ ⟨⟩, List.forall_mem_nil _, fun _ => List.forall_mem_nil _,
    List.forall_mem_nil _⟩

theorem exclusiveUse (h : Inv s) : s.ExclusiveUse := by
  have hwin : s.windows = (s.pc s.running).opened.toList := by
    have hp := h.parked
    unfold windows
    rw [h.sync]
    cases hr : s.running <;> rw [hr] at hp <;> simp only [CryptWorker.other] at hp <;> simp [hp]
  refine ⟨?_, fun job hjob hrel => ?_, h.own, h.crypted⟩
  · rw [hwin]
    cases (s.pc s.running).opened <;> simp
  · rw [hwin, Option.mem_toList] at hjob
    -- the packet is still in the hands of its worker
    have hmem : job ∈ (s.pc s.running).bundle := by
      cases hpc : s.pc s.running with
      | idle | ending => rw [hpc] at hjob; cases hjob
      | crypting work =>
        simp only [hpc, WorkerPc.opened, Option.ite_none_left_eq_some, Option.some.injEq] at hjob
        simp [WorkerPc.bundle, CryptWork.bundle, ← hjob.2]
    have hnd := (s.buffers_perm.nodup_iff).mp h.nodup
    exact List.disjoint_of_nodup_append hnd (List.mem_map_of_mem hmem) (List.mem_append_right _ hrel)

/-- The running worker moves on, and may have set up the request or processed a packet. -/
theorem goto (h : Inv s) (req : AeadRequest) (ops : List ProcessedOp)
    (hnd : (pc.bundle.map CryptJob.skb ++ s.elsewhere).Nodup)
    (hprep : ∀ work, pc = .crypting work → Prepared req (ownRequest s.running work.job) work.phase)
    (hown : ∀ op ∈ ops, op.req = ownRequest op.worker op.job)
    (hfin : ∀ job ∈ pc.finished, ⟨s.running, job, ownRequest s.running job⟩ ∈ ops ++ s.processed) :
    Inv { s.goto pc with req, processed := ops ++ s.processed } := by
  have hself : (s.goto pc).pc s.running = pc := update_self ..
  have hother : ∀ w, w ≠ s.running → (s.goto pc).pc w = s.pc w := fun w hw => update_of_ne hw ..
  refine ⟨h.sync, ?_, ?_, ?_, ?_, ?_, ?_⟩
  · exact (congrArg WorkerPc.opened (hother _ (running_ne_other _))).trans h.parked
  · exact (s.buffers_goto pc).nodup_iff.mpr hnd
  · intro work hw
    exact hprep work (hself.symm.trans hw)
  · intro op hop
    rcases List.mem_append.mp hop with hop | hop
    · exact hown op hop
    · exact h.own op hop
  · intro w job hjob
    by_cases hw : w = s.running
    · subst hw
      exact hfin job (by rw [← hself]; exact hjob)
    · exact List.mem_append_right _ (h.finished w job (by rw [← hother w hw]; exact hjob))
  · intro q hq hst job hjob
    exact List.mem_append_right _ (h.crypted q hq hst job hjob)

theorem nodup_of_bundle_eq (h : Inv s) (hb : pc.bundle = (s.pc s.running).bundle) :
    (pc.bundle.map CryptJob.skb ++ s.elsewhere).Nodup := by
  rw [hb]
  exact (s.buffers_perm.nodup_iff).mp h.nodup

theorem take (h : Inv s) {job : CryptJob} {rest : List CryptJob} (hpc : s.pc s.running = .idle)
    (hnd : ((job :: rest).map CryptJob.skb ++ s.buffers).Nodup) :
    Inv (s.goto (.crypting ⟨.start, [], job, rest⟩)) := by
  have hperm : s.buffers.Perm s.elsewhere := by simpa [hpc, WorkerPc.bundle] using s.buffers_perm
  refine h.goto s.req [] ((hperm.append_left _).nodup_iff.mp hnd) ?_ (List.forall_mem_nil _) (List.forall_mem_nil _)
  rintro work ⟨⟩
  trivial

theorem dead (h : Inv s) {bundle : List CryptJob} (hb : bundle = (s.pc s.running).bundle) (ops : List ProcessedOp)
    (hown : ∀ op ∈ ops, op.req = ownRequest op.worker op.job) :
    Inv { s.goto (.ending bundle .dead) with processed := ops ++ s.processed } :=
  h.goto s.req ops (h.nodup_of_bundle_eq hb) (by rintro _ ⟨⟩) hown (List.forall_mem_nil _)

theorem call (h : Inv s) {phase : SetupPhase} {req : AeadRequest}
    (hpc : s.pc s.running = .crypting work) (hs : setRequest s.running work.job s.req work.phase = some (phase, req)) :
    Inv { s.goto (.crypting { work with phase }) with req } := by
  refine h.goto req [] (h.nodup_of_bundle_eq (by rw [hpc]; rfl)) ?_ (List.forall_mem_nil _) fun job hjob => ?_
  · rintro _ ⟨⟩
    exact (h.prepared work hpc).setRequest hs
  · exact h.finished s.running job (by rw [hpc]; exact hjob)

theorem processed (h : Inv s) (hpc : s.pc s.running = .crypting work)
    (hphase : work.phase = .cryptSet) : s.req = ownRequest s.running work.job := by
  have hprep := h.prepared work hpc
  rw [hphase] at hprep
  exact hprep

theorem cryptOk (h : Inv s) (hpc : s.pc s.running = .crypting work)
    (hphase : work.phase = .cryptSet) :
    Inv { s.goto work.next with processed := ⟨s.running, work.job, s.req⟩ :: s.processed } := by
  have hreq := h.processed hpc hphase
  refine h.goto s.req [⟨s.running, work.job, s.req⟩]
    (h.nodup_of_bundle_eq (by rw [work.bundle_next, hpc]; rfl)) ?_ ?_ fun job hjob => ?_
  · -- the next packet starts from the first call
    intro work' hw
    unfold CryptWork.next at hw
    split at hw <;> cases hw
    trivial
  · simpa using hreq
  · rcases CryptWork.mem_finished_next hjob with hdone | rfl
    · exact List.mem_cons_of_mem _ (h.finished s.running job (by rw [hpc]; exact hdone))
    · rw [← hreq]
      exact List.mem_cons_self

theorem enqueue (h : Inv s) {bundle : List CryptJob} {state : PacketState}
    (hpc : s.pc s.running = .ending bundle state) :
    Inv { s.goto .idle with queued := ⟨s.running, bundle, state⟩ :: s.queued } := by
  have hidle : Inv (s.goto .idle) := by
    refine h.goto s.req [] ?_ (by rintro _ ⟨⟩) (List.forall_mem_nil _) (List.forall_mem_nil _)
    exact List.Nodup.of_append_right ((s.buffers_perm.nodup_iff).mp h.nodup)
  refine ⟨hidle.sync, hidle.parked, ?_, hidle.prepared, hidle.own, hidle.finished, ?_⟩
  · have hs := s.buffers_perm
    rw [hpc] at hs
    exact (((buffers_queue ..).trans ((s.buffers_goto .idle).append_left _)).trans hs.symm).nodup_iff.mpr h.nodup
  · intro q hq hst job hjob
    rcases List.mem_cons.mp hq with rfl | hq
    · have hfin := h.finished s.running job
      rw [hpc] at hfin
      cases hst
      exact hfin hjob
    · exact hidle.crypted q hq hst job hjob

theorem release (h : Inv s) {i : Nat} {q : QueuedBundle} (hq : s.queued[i]? = some q) :
    Inv { s with queued := s.queued.eraseIdx i, released := q.bundle.map CryptJob.skb ++ s.released } := by
  refine ⟨h.sync, h.parked, ?_, h.prepared, h.own, h.finished, fun q' hq' => ?_⟩
  · refine (List.perm_iff_count.mpr fun skb => ?_).nodup h.nodup
    obtain ⟨hi, rfl⟩ := List.getElem?_eq_some_iff.mp hq
    have hperm := ((List.getElem_cons_eraseIdx_perm hi).flatMap_right fun q => q.bundle.map CryptJob.skb)
    have hc := List.perm_iff_count.mp hperm skb
    simp only [buffers, queuedBuffers, List.flatMap_cons, List.count_append] at hc ⊢
    omega
  · exact h.crypted q' (List.mem_of_mem_eraseIdx hq')

theorem switch (h : Inv s) (hopen : (s.pc s.running).opened.isNone) : Inv { s with running := s.running.other } := by
  have hback : s.running.other.other = s.running := by cases s.running <;> rfl
  refine ⟨h.sync, ?_, h.nodup, fun work hw => ?_, h.own, h.finished, h.crypted⟩
  · rw [hback]
    exact Option.isNone_iff_eq_none.mp hopen
  · -- the worker that resumes has not touched the request for its packet
    have hp := h.parked
    rw [show s.pc s.running.other = .crypting work from hw] at hp
    have hphase : work.phase = .start := by simpa [WorkerPc.opened] using hp
    rw [hphase]
    trivial

theorem step (h : Inv s) {e : AeadEvent} (hok : s.Uninterrupted e) (hs : s.step e = some s') : Inv s' := by
  unfold AeadState.step at hs
  cases e with
  | take jobs =>
    simp only at hs
    split at hs
    · split at hs
      case isTrue hpc hguard =>
        cases hs
        exact h.take hpc hguard.1
      · cases hs
    · cases hs
  | prepareFails =>
    simp only at hs
    split at hs
    case h_1 work hpc =>
      obtain ⟨-, ⟨⟩⟩ := Option.ite_none_right_eq_some.mp hs
      exact h.dead (by rw [hpc]; rfl) [] (List.forall_mem_nil _)
    · cases hs
  | call =>
    simp only at hs
    split at hs
    case h_1 work hpc =>
      obtain ⟨⟨phase, req⟩, hset, rfl⟩ := Option.map_eq_some_iff.mp hs
      exact h.call hpc hset
    · cases hs
  | crypt result =>
    simp only at hs
    split at hs
    case h_1 work hpc =>
      split at hs
      case isTrue hphase =>
        cases result with
        | ok =>
          cases hs
          exact h.cryptOk hpc hphase
        | failed =>
          cases hs
          exact h.dead (by rw [hpc]; rfl) [_] (by simpa using h.processed hpc hphase)
        | inProgress => exact absurd rfl hok
      · cases hs
    · cases hs
  | trimFails =>
    simp only at hs
    split at hs
    case h_1 bundle hrun hpc =>
      cases hs
      exact h.dead (by rw [hpc]; rfl) [] (List.forall_mem_nil _)
    · cases hs
  | enqueue =>
    simp only at hs
    split at hs
    case h_1 bundle state hpc =>
      cases hs
      exact h.enqueue hpc
    · cases hs
  | release i =>
    obtain ⟨q, hq, rfl⟩ := Option.map_eq_some_iff.mp hs
    exact h.release hq
  | complete i =>
    rw [h.sync] at hs
    cases hs
  | switch =>
    cases hs
    exact h.switch hok

end Inv

/-- In every run in which the CPU does not switch workers in the middle of a packet and every
operation is synchronous, each packet has the request to itself and is processed with its own
handle, IV and buffer. -/
theorem exclusiveUse_run (s : AeadState) (h : Exec step Uninterrupted init s) : s.ExclusiveUse :=
  (h.inv Inv.init fun _ _ _ hok hinv hs => hinv.step hok hs).exclusiveUse

/-! ### Sample runs -/

def sampleKeypair : NoiseKeypair where
  sending := ⟨[1], 0, true⟩
  receiving := ⟨[2], 0, true⟩
  remoteIndex := 0
  iAmTheInitiator := true
  aeadEnc := some [1]
  aeadDec := some [2]

def sampleJob (skb : Nat) (nonce : U64) : CryptJob := ⟨skb, sampleKeypair, nonce, 32⟩

/-- One packet each way; the second is not authenticated. -/
def bothWays : List AeadEvent :=
  [.take [sampleJob 0 5], .call, .call, .call, .call, .crypt .ok, .enqueue, .switch, .take [sampleJob 1 9],
    .release 0, .call, .call, .call, .call, .crypt .failed, .enqueue]

theorem exclusiveUse_run_both_ways : ∃ s, Exec step Uninterrupted init s ∧ s.processed.length = 2 ∧
    s.released = [0] ∧ s.ExclusiveUse := by
  have hex : ∃ s, Exec step Uninterrupted init s ∧ (s.processed.length, s.released) = (2, [0]) :=
    Exec.exists_of_foldlM bothWays (fun s : AeadState => (s.processed.length, s.released)) (by decide +kernel)
  obtain ⟨s, hrun, hres⟩ := hex
  obtain ⟨hlen, hrel⟩ := Prod.mk.inj hres
  exact ⟨s, hrun, hlen, hrel, exclusiveUse_run s hrun⟩

/-- A switch after the handle is bound lets the decrypt worker set the same request up, and the
packet to send is then encrypted with the handle of the other direction. And a packet for which the
API returns `-EINPROGRESS` is given up, and its buffer released, with the operation still to
come. -/
theorem interference_breaks_exclusiveUse :
    (∃ s t, Exec step (fun _ _ => True) init s ∧ s.windows.length = 2 ∧ Exec step (fun _ _ => True) s t ∧
      ∃ op ∈ t.processed, op.worker = .encrypt ∧ op.req.tfm = op.job.keypair.aeadDec ∧
        op.req.tfm ≠ op.job.keypair.aeadEnc) ∧
    (∃ s, Exec step (fun _ _ => True) init s ∧ ∃ job ∈ s.windows, job.skb ∈ s.released) := by
  refine ⟨⟨_, _, .of_foldlM [.take [sampleJob 0 5], .call, .switch, .take [sampleJob 1 9], .call] rfl, rfl,
    .of_foldlM [.switch, .call, .call, .call, .crypt .ok] rfl,
    ⟨.encrypt, sampleJob 0 5, ⟨some [2], 0, some 0, 32, gcmIv 5⟩⟩, List.mem_cons_self, rfl, rfl, by decide⟩,
    ⟨_, .of_foldlM [.take [sampleJob 0 5], .call, .call, .call, .call, .crypt .inProgress, .enqueue, .release 0] rfl,
      sampleJob 0 5, List.mem_cons_self, List.mem_cons_self⟩⟩

end AeadState

/-! ### What a request computes -/

/-- `crypto_aead_encrypt` or `crypto_aead_decrypt` of a request on the bytes in its scatterlist, the
associated data first. -/
def AeadRequest.crypt (C : Crypto) (req : AeadRequest) (src : Bytes) : CryptWorker → Option Bytes
  | .encrypt => req.tfm.map fun key => C.gcmEncrypt key req.iv (src.take req.assoclen) (src.drop req.assoclen)
  | .decrypt => req.tfm.bind fun key => C.gcmDecrypt key req.iv (src.take req.assoclen) (src.drop req.assoclen)

/-- The AES-GCM branch of `encrypt_packet` and `decrypt_packet` on a packet by itself. -/
def CryptJob.crypt (C : Crypto) (job : CryptJob) (src : Bytes) : CryptWorker → Option Bytes
  | .encrypt => aeadEncrypt C job.keypair false job.nonce src
  | .decrypt => aeadDecrypt C job.keypair false job.nonce src

theorem ownRequest_crypt (C : Crypto) (w : CryptWorker) (job : CryptJob) (src : Bytes) :
    (ownRequest w job).crypt C src w = job.crypt C src w := by
  cases w <;> rfl

/-- Without interference, sharing the request is not seen: each operation computes what it computes
for its packet alone. -/
theorem AeadState.ExclusiveUse.crypt {s : AeadState} (h : s.ExclusiveUse) (C : Crypto) (src : Bytes) :
    ∀ op ∈ s.processed, op.req.crypt C src op.worker = op.job.crypt C src op.worker := by
  intro op hop
  rw [h.own op hop]
  exact ownRequest_crypt C op.worker op.job src

end WireguardAes
