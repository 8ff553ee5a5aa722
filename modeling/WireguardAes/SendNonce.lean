import WireguardAes.Messages
import WireguardAes.Lib.ByteOrder
import WireguardAes.Lib.Runs
import Mathlib.Data.List.Nodup

/-!
# Nonces of the send path (`send.c`)

The calls of `wg_packet_send_staged_packets` on a peer and the encrypt workers, as a transition
system: what a call does between two accesses to shared memory (the staged queue, `current_keypair`,
`is_valid`, `sending_counter`, the ring of the encrypt queue) is one step. A packet belongs to one
queue, call or worker at a time, so its `PACKET_CB(skb)->nonce` travels with it. `drawn` and
`encrypted` record the values `sending_counter` has given out and the executions of the cipher.

The counter is a 64-bit word that keeps running past `REJECT_AFTER_MESSAGES`; that it does not wrap
is `SendInv.valid` and `SendInv.invalid`: a call draws at most once past the limit and is then on
its way to clear `is_valid`, after which no call gets beyond the check.
-/

namespace WireguardAes

open Function ByteOrder Runs

structure Skb where
  id : Nat
  nonce : U64

/-- Where a call of `wg_packet_send_staged_packets` is, with the packets it has stolen. -/
inductive SendCall (K : Type) where
  | stolen (packets : List Skb)
  | gotKeypair (k : K) (packets : List Skb)
  /-- `sending.is_valid` was read as true. -/
  | valid (k : K) (packets : List Skb)
  /-- In the loop, before the head of `todo`. -/
  | numbering (k : K) (done todo : List Skb)
  | numbered (k : K) (packets : List Skb)
  | outInvalid (k : K) (packets : List Skb)
  | outNokey (packets : List Skb)

structure SendState (K : Type) where
  current : Option K
  counter : K → U64
  isValid : K → Bool
  staged : List Skb
  calls : List (SendCall K)
  ring : List (K × List Skb)
  workers : List (K × List Skb)
  drawn : List (K × U64)
  encrypted : List (K × U64)

def maxStagedPackets : Nat := 128

/-- The initialization vector of the AES-GCM path: 4 zero bytes and the little-endian counter. -/
def gcmIv (nonce : U64) : Bytes := List.replicate 4 0 ++ leBytes 8 nonce.toNat

variable {K : Type}

/-- The loop body after `atomic64_inc_return`, with the number in `p`. -/
def afterDraw (k : K) (done : List Skb) (p : Skb) (todo : List Skb) : SendCall K :=
  if rejectAfterMessages ≤ p.nonce.toNat then .outInvalid k (done ++ p :: todo)
  else match todo with
    | [] => .numbered k (done ++ [p])
    | _ :: _ => .numbering k (done ++ [p]) todo

/-- Fresh keypairs: the counters at zero, the keys valid. -/
def SendState.init (current : Option K) : SendState K :=
  ⟨current, fun _ => 0, fun _ => true, [], [], [], [], [], []⟩

section
variable [DecidableEq K]

inductive SendStep : SendState K → SendState K → Prop
  /-- `wg_xmit`. -/
  | xmit (s : SendState K) (packets : List Skb) :
      SendStep s { s with staged := s.staged.drop (s.staged.length - maxStagedPackets) ++ packets }
  /-- `wg_packet_send_keepalive`; the queue was found empty without the lock. -/
  | keepalive (s : SendState K) (skb : Skb) : SendStep s { s with staged := s.staged ++ [skb] }
  | purge (s : SendState K) : SendStep s { s with staged := [] }
  /-- Another keypair, or none, becomes `current_keypair`. -/
  | rotate (s : SendState K) (k : Option K) : SendStep s { s with current := k }
  /-- `wg_noise_expire_current_peer_keypairs`. -/
  | expire (s : SendState K) (k : K) : SendStep s { s with isValid := update s.isValid k false }
  | steal (s : SendState K) (h : s.staged ≠ []) :
      SendStep s { s with staged := [], calls := s.calls ++ [.stolen s.staged] }
  | getKeypair (s : SendState K) {a b : List (SendCall K)} {packets : List Skb} {k : K}
      (h : s.calls = a ++ .stolen packets :: b) (hk : s.current = some k) :
      SendStep s { s with calls := a ++ .gotKeypair k packets :: b }
  /-- There is no keypair, or `kref_get_unless_zero` failed. -/
  | noKeypair (s : SendState K) {a b : List (SendCall K)} {packets : List Skb}
      (h : s.calls = a ++ .stolen packets :: b) : SendStep s { s with calls := a ++ .outNokey packets :: b }
  | readValid (s : SendState K) {a b : List (SendCall K)} {packets : List Skb} {k : K}
      (h : s.calls = a ++ .gotKeypair k packets :: b) :
      SendStep s { s with calls := a ++ (if s.isValid k then .valid k packets else .outNokey packets) :: b }
  | birthdate (s : SendState K) {a b : List (SendCall K)} {packets : List Skb} {k : K} (expired : Bool)
      (h : s.calls = a ++ .valid k packets :: b) :
      SendStep s { s with calls := a ++ (if expired then .outInvalid k packets else .numbering k [] packets) :: b }
  | draw (s : SendState K) {a b : List (SendCall K)} {done todo : List Skb} {p : Skb} {k : K}
      (h : s.calls = a ++ .numbering k done (p :: todo) :: b) :
      SendStep s { s with
        counter := update s.counter k (s.counter k + 1), drawn := s.drawn ++ [(k, s.counter k)],
        calls := a ++ afterDraw k done { p with nonce := s.counter k } todo :: b }
  | enqueue (s : SendState K) {a b : List (SendCall K)} {packets : List Skb} {k : K}
      (h : s.calls = a ++ .numbered k packets :: b) :
      SendStep s { s with calls := a ++ b, ring := s.ring ++ [(k, packets)] }
  /-- The peer is dead or one of the queues is full: the batch is freed. -/
  | drop (s : SendState K) {a b : List (SendCall K)} {packets : List Skb} {k : K}
      (h : s.calls = a ++ .numbered k packets :: b) : SendStep s { s with calls := a ++ b }
  | clearValid (s : SendState K) {a b : List (SendCall K)} {packets : List Skb} {k : K}
      (h : s.calls = a ++ .outInvalid k packets :: b) :
      SendStep s { s with isValid := update s.isValid k false, calls := a ++ .outNokey packets :: b }
  | putBack (s : SendState K) {a b : List (SendCall K)} {packets : List Skb}
      (h : s.calls = a ++ .outNokey packets :: b) :
      SendStep s { s with staged := packets ++ s.staged, calls := a ++ b }
  /-- A worker takes a batch off the ring. -/
  | consume (s : SendState K) {batch : K × List Skb} {rest : List (K × List Skb)} (h : s.ring = batch :: rest) :
      SendStep s { s with ring := rest, workers := s.workers ++ [batch] }
  | encrypt (s : SendState K) {a b : List (K × List Skb)} {k : K} {p : Skb} {rest : List Skb}
      (h : s.workers = a ++ (k, p :: rest) :: b) :
      SendStep s { s with workers := a ++ (k, rest) :: b, encrypted := s.encrypted ++ [(k, p.nonce)] }
  /-- `encrypt_packet` fails, before the cipher is run or in it; the rest of the batch is dropped.
  -/
  | encryptFails (s : SendState K) {a b : List (K × List Skb)} {k : K} {p : Skb} {rest : List Skb} (ran : Bool)
      (h : s.workers = a ++ (k, p :: rest) :: b) :
      SendStep s { s with
        workers := a ++ b, encrypted := if ran then s.encrypted ++ [(k, p.nonce)] else s.encrypted }
  | batchDone (s : SendState K) {a b : List (K × List Skb)} {k : K} (h : s.workers = a ++ (k, []) :: b) :
      SendStep s { s with workers := a ++ b }

/-! ### What the invariant counts -/

/-- Past the reference to `k` and not done with it. -/
def SendCall.on (k : K) : SendCall K → Bool
  | gotKeypair k' _ | valid k' _ | numbering k' _ _ | numbered k' _ | outInvalid k' _ => k' = k
  | _ => false

def SendCall.active (k : K) : SendCall K → Bool
  | valid k' _ | numbering k' _ _ => k' = k
  | _ => false

def SendCall.leaving (k : K) : SendCall K → Bool
  | outInvalid k' _ => k' = k
  | _ => false

def batchNonces (k : K) (batch : K × List Skb) : List U64 := if batch.1 = k then batch.2.map Skb.nonce else []

/-- The numbers a call has given to packets that it may still send. -/
def SendCall.nonces (k : K) : SendCall K → List U64
  | numbering k' done _ => batchNonces k (k', done)
  | numbered k' packets => batchNonces k (k', packets)
  | _ => []

/-- The numbers of a batch that is complete. -/
def SendCall.batch (k : K) : SendCall K → List U64
  | numbered k' packets => batchNonces k (k', packets)
  | _ => []

namespace SendState

def inFlight (k : K) (s : SendState K) : Nat := s.calls.countP (SendCall.on k)

/-- The numbers of the executions of the cipher under `k`. -/
def encryptions (k : K) (s : SendState K) : List U64 := (s.encrypted.filter (·.1 = k)).map Prod.snd

def queued (k : K) (s : SendState K) : List U64 :=
  s.ring.flatMap (batchNonces k) ++ s.workers.flatMap (batchNonces k) ++ s.encryptions k

/-- The numbers of the batches of `k`, from the moment they are complete. -/
def batched (k : K) (s : SendState K) : List U64 := s.calls.flatMap (SendCall.batch k) ++ s.queued k

def held (k : K) (s : SendState K) : List U64 := s.calls.flatMap (SendCall.nonces k) ++ s.queued k

def numActive (k : K) (s : SendState K) : Nat := s.calls.countP (SendCall.active k)

def numLeaving (k : K) (s : SendState K) : Nat := s.calls.countP (SendCall.leaving k)

theorem numActive_add_numLeaving_le (k : K) (s : SendState K) : s.numActive k + s.numLeaving k ≤ s.inFlight k := by
  rw [numActive, numLeaving, inFlight]
  induction s.calls with
  | nil => simp
  | cons c cs ih =>
    simp only [List.countP_cons]
    cases c <;> grind [SendCall.active, SendCall.leaving, SendCall.on]

end SendState

theorem count_batchNonces_cons (k k' : K) (p : Skb) (rest : List Skb) (n : U64) :
    (batchNonces k (k', p :: rest)).count n = (batchNonces k (k', [p])).count n +
      (batchNonces k (k', rest)).count n := by
  unfold batchNonces
  split <;> simp [List.count_cons, Nat.add_comm]

theorem encryptions_concat {k k' : K} {s : SendState K} {p : Skb} {workers : List (K × List Skb)} :
    SendState.encryptions k { s with workers := workers, encrypted := s.encrypted ++ [(k', p.nonce)] } =
      s.encryptions k ++ batchNonces k (k', [p]) := by
  by_cases hk : k' = k <;> simp [SendState.encryptions, batchNonces, hk]

/-! ### What a step can do to the numbers of a keypair -/

omit [DecidableEq K] in
theorem countP_mid {a b : List (SendCall K)} {c : SendCall K} {p : SendCall K → Bool} :
    (a ++ c :: b).countP p = (a ++ b).countP p + if p c then 1 else 0 := by
  simp only [List.countP_append, List.countP_cons]
  omega

/-- A step that draws no number of `k`: numbers are passed on or given up, and while `is_valid` is
false no further call gets past its check. -/
structure Frame (k : K) (s s' : SendState K) : Prop where
  held : ∀ n, (s'.held k).count n ≤ (s.held k).count n
  batched : ∀ n, (s'.batched k).count n ≤ (s.batched k).count n
  counter : s'.counter k = s.counter k
  drawn : ∀ n, (k, n) ∈ s'.drawn → (k, n) ∈ s.drawn
  valid : s'.isValid k = true → s.isValid k = true ∧ s.numLeaving k ≤ s'.numLeaving k
  active : s'.isValid k = false → s'.numActive k ≤ s.numActive k

/-- A call draws a number of `k`. -/
structure Draws (k : K) (s s' : SendState K) (a b : List (SendCall K)) (done todo : List Skb) (p : Skb) : Prop where
  calls : s.calls = a ++ .numbering k done (p :: todo) :: b
  calls' : s'.calls = a ++ afterDraw k done { p with nonce := s.counter k } todo :: b
  queued : s'.queued k = s.queued k
  counter : s'.counter k = s.counter k + 1
  drawn : s'.drawn = s.drawn ++ [(k, s.counter k)]
  valid : s'.isValid k = s.isValid k

namespace Frame
variable {k : K} {s s' : SendState K} {a b : List (SendCall K)} {c c' : SendCall K}

theorem same (hcalls : s'.calls = s.calls) (hring : s'.ring = s.ring) (hworkers : s'.workers = s.workers)
    (hencrypted : s'.encrypted = s.encrypted) (hcounter : s'.counter k = s.counter k)
    (hdrawn : s'.drawn = s.drawn) (hvalid : s'.isValid k = true → s.isValid k = true) : Frame k s s' := by
  have hq : s'.queued k = s.queued k := by
    simp only [SendState.queued, SendState.encryptions, hring, hworkers, hencrypted]
  refine ⟨fun n => ?_, fun n => ?_, hcounter, by simp [hdrawn], fun hv => ⟨hvalid hv, ?_⟩, fun _ => ?_⟩
  · rw [SendState.held, SendState.held, hcalls, hq]
  · rw [SendState.batched, SendState.batched, hcalls, hq]
  · rw [SendState.numLeaving, SendState.numLeaving, hcalls]
  · rw [SendState.numActive, SendState.numActive, hcalls]

theorem moves (hc : s.calls = a ++ c :: b) (hc' : s'.calls = a ++ c' :: b) (hq : s'.queued k = s.queued k)
    (hcounter : s'.counter k = s.counter k) (hdrawn : ∀ n, (k, n) ∈ s'.drawn → (k, n) ∈ s.drawn)
    (hvalid : s'.isValid k = true → s.isValid k = true)
    (hnonces : c'.nonces k = []) (hbatch : c'.batch k = [])
    (hleaving : s'.isValid k = true → c.leaving k = true → c'.leaving k = true)
    (hactive : s'.isValid k = false → c'.active k = true → c.active k = true) : Frame k s s' := by
  refine ⟨fun n => ?_, fun n => ?_, hcounter, hdrawn, fun hv => ⟨hvalid hv, ?_⟩, fun hv => ?_⟩
  · simp only [SendState.held, hc, hc', hq, hnonces, List.flatMap_append, List.flatMap_cons, List.count_append,
      List.count_nil]
    omega
  · simp only [SendState.batched, hc, hc', hq, hbatch, List.flatMap_append, List.flatMap_cons, List.count_append,
      List.count_nil]
    omega
  · have := hleaving hv
    rw [SendState.numLeaving, SendState.numLeaving, hc, hc', countP_mid, countP_mid]
    split <;> simp_all
  · have := hactive hv
    rw [SendState.numActive, SendState.numActive, hc, hc', countP_mid, countP_mid]
    split <;> simp_all

theorem returns (hc : s.calls = a ++ c :: b) (hc' : s'.calls = a ++ b)
    (hq : ∀ n, (s'.queued k).count n ≤ (s.queued k).count n + (c.batch k).count n)
    (hb : c.nonces k = c.batch k) (hcounter : s'.counter k = s.counter k) (hdrawn : s'.drawn = s.drawn)
    (hvalid : s'.isValid k = s.isValid k) (hleaving : c.leaving k = false) : Frame k s s' := by
  refine ⟨fun n => ?_, fun n => ?_, hcounter, by simp [hdrawn], fun hv => ⟨hvalid ▸ hv, ?_⟩, fun hv => ?_⟩
  · have := hq n
    simp only [SendState.held, hc, hc', hb, List.flatMap_append, List.flatMap_cons, List.count_append]
    omega
  · have := hq n
    simp only [SendState.batched, hc, hc', List.flatMap_append, List.flatMap_cons, List.count_append]
    omega
  · rw [SendState.numLeaving, SendState.numLeaving, hc, hc', countP_mid, hleaving]
    simp
  · rw [SendState.numActive, SendState.numActive, hc, hc', countP_mid]
    omega

theorem works (hcalls : s'.calls = s.calls) (hq : ∀ n, (s'.queued k).count n ≤ (s.queued k).count n)
    (hcounter : s'.counter k = s.counter k) (hdrawn : s'.drawn = s.drawn) (hvalid : s'.isValid k = s.isValid k) :
    Frame k s s' := by
  refine ⟨fun n => ?_, fun n => ?_, hcounter, by simp [hdrawn], fun hv => ⟨hvalid ▸ hv, ?_⟩, fun _ => ?_⟩
  · have := hq n
    simp only [SendState.held, hcalls, List.count_append]
    omega
  · have := hq n
    simp only [SendState.batched, hcalls, List.count_append]
    omega
  · rw [SendState.numLeaving, SendState.numLeaving, hcalls]
  · rw [SendState.numActive, SendState.numActive, hcalls]

end Frame

theorem afterDraw_other {k k' : K} (hk : k' ≠ k) (done : List Skb) (p : Skb) (todo : List Skb) :
    (afterDraw k' done p todo).nonces k = [] ∧ (afterDraw k' done p todo).batch k = [] ∧
      (afterDraw k' done p todo).active k = false := by
  unfold afterDraw
  split
  · simp [SendCall.nonces, SendCall.batch, SendCall.active]
  · cases todo <;> simp [SendCall.nonces, SendCall.batch, SendCall.active, batchNonces, hk]

theorem SendStep.cases (k : K) {s s' : SendState K} (hs : SendStep s s') :
    Frame k s s' ∨ ∃ a b done todo p, Draws k s s' a b done todo p := by
  cases hs with
  | xmit packets => exact .inl (.same rfl rfl rfl rfl rfl rfl id)
  | keepalive skb => exact .inl (.same rfl rfl rfl rfl rfl rfl id)
  | purge => exact .inl (.same rfl rfl rfl rfl rfl rfl id)
  | rotate k' => exact .inl (.same rfl rfl rfl rfl rfl rfl id)
  | expire k' =>
    refine .inl (.same rfl rfl rfl rfl rfl rfl fun hv => ?_)
    by_cases hk : k = k'
    · subst hk; simp at hv
    · simpa [update_of_ne hk] using hv
  | steal hne =>
    refine .inl ⟨fun n => ?_, fun n => ?_, rfl, fun _ => id, fun hv => ⟨hv, ?_⟩, fun _ => ?_⟩
    · simp [SendState.held, SendState.queued, SendState.encryptions, SendCall.nonces]
    · simp [SendState.batched, SendState.queued, SendState.encryptions, SendCall.batch]
    · simp [SendState.numLeaving, SendCall.leaving]
    · simp [SendState.numActive, SendCall.active]
  | getKeypair hc hk =>
    exact .inl (.moves hc rfl rfl rfl (fun _ => id) id rfl rfl (by simp [SendCall.leaving]) (by simp [SendCall.active]))
  | noKeypair hc =>
    exact .inl (.moves hc rfl rfl rfl (fun _ => id) id rfl rfl (by simp [SendCall.leaving]) (by simp [SendCall.active]))
  | readValid hc =>
    refine .inl (.moves hc rfl rfl rfl (fun _ => id) id ?_ ?_ (by simp [SendCall.leaving]) ?_)
    · split <;> rfl
    · split <;> rfl
    · intro hv
      split_ifs with hv'
      · simp only [SendCall.active, decide_eq_true_eq]
        rintro rfl
        simp [hv'] at hv
      · simp [SendCall.active]
  | birthdate expired hc =>
    refine .inl (.moves hc rfl rfl rfl (fun _ => id) id ?_ ?_ (by simp [SendCall.leaving]) ?_)
    · cases expired <;> simp [SendCall.nonces, batchNonces]
    · cases expired <;> rfl
    · cases expired <;> simp [SendCall.active]
  | @draw a b done todo p k' hc =>
    by_cases hk : k = k'
    · subst hk
      exact .inr ⟨a, b, done, todo, p, hc, rfl, rfl, update_self .., rfl, rfl⟩
    · -- another keypair's number
      obtain ⟨hn, hb, ha⟩ := afterDraw_other (Ne.symm hk) done { p with nonce := s.counter k' } todo
      refine .inl (.moves hc rfl rfl (update_of_ne hk ..) (fun n hm => ?_) id hn hb ?_ ?_)
      · rcases List.mem_append.1 hm with hm | hm
        · exact hm
        · rw [List.mem_singleton, Prod.mk.injEq] at hm
          exact absurd hm.1 hk
      · simp [SendCall.leaving]
      · simp [ha]
  | enqueue hc =>
    refine .inl (.returns hc rfl (fun n => ?_) rfl rfl rfl rfl rfl)
    simp only [SendState.queued, SendState.encryptions, List.flatMap_append, List.flatMap_cons, List.flatMap_nil,
      List.count_append, List.count_nil, SendCall.batch]
    omega
  | drop hc => exact .inl (.returns hc rfl (fun n => Nat.le_add_right ..) rfl rfl rfl rfl rfl)
  | @clearValid _ _ _ k' hc =>
    refine .inl (.moves hc rfl rfl rfl (fun _ => id) (fun hv => ?_) rfl rfl (fun hv => ?_) (by simp [SendCall.active]))
    · by_cases hk : k = k'
      · subst hk; simp at hv
      · simpa [update_of_ne hk] using hv
    · by_cases hk : k = k'
      · subst hk; simp at hv
      · simp [SendCall.leaving, Ne.symm hk]
  | putBack hc => exact .inl (.returns hc rfl (fun n => Nat.le_add_right ..) rfl rfl rfl rfl rfl)
  | consume hr =>
    refine .inl (.works rfl (fun n => ?_) rfl rfl rfl)
    simp only [SendState.queued, SendState.encryptions, hr, List.flatMap_append, List.flatMap_cons, List.flatMap_nil,
      List.count_append, List.count_nil]
    omega
  | @encrypt _ _ k' p rest hw =>
    refine .inl (.works rfl (fun n => ?_) rfl rfl rfl)
    have hbatch := count_batchNonces_cons k k' p rest n
    simp only [SendState.queued, encryptions_concat, hw, List.flatMap_append, List.flatMap_cons, List.count_append]
    omega
  | @encryptFails _ _ k' p rest ran hw =>
    refine .inl (.works rfl (fun n => ?_) rfl rfl rfl)
    have hbatch := count_batchNonces_cons k k' p rest n
    cases ran with
    | true =>
      simp only [SendState.queued, if_true, encryptions_concat, hw, List.flatMap_append, List.flatMap_cons,
        List.count_append]
      omega
    | false =>
      simp only [SendState.queued, SendState.encryptions, hw, List.flatMap_append, List.flatMap_cons,
        List.count_append, Bool.false_eq_true, if_false]
      omega
  | batchDone hw =>
    refine .inl (.works rfl (fun n => ?_) rfl rfl rfl)
    simp only [SendState.queued, SendState.encryptions, hw, List.flatMap_append, List.flatMap_cons, List.count_append]
    omega

/-! ### The invariant -/

/-- Every number of `k` in use was drawn, once, below the limit; the counter is past the limit by at
most one draw for each call that has to clear `is_valid`, and once that is cleared only the calls
that had read it before go on. -/
structure SendInv (k : K) (s : SendState K) : Prop where
  once : ∀ n, (s.held k).count n ≤ 1
  below : ∀ n ∈ s.held k, n.toNat < (s.counter k).toNat ∧ n.toNat < rejectAfterMessages
  drawn : ∀ n, (k, n) ∈ s.drawn → n.toNat < (s.counter k).toNat
  valid : s.isValid k = true → (s.counter k).toNat ≤ rejectAfterMessages + s.numLeaving k
  invalid : s.isValid k = false → (s.counter k).toNat - rejectAfterMessages + s.numActive k < counterWindowSize

namespace SendInv
variable {k : K} {s s' : SendState K} {a b : List (SendCall K)} {done todo : List Skb} {p : Skb}

theorem init (current : Option K) : SendInv k (SendState.init current) := by
  refine ⟨?_, ?_, ?_, ?_, ?_⟩ <;> simp [SendState.init, SendState.held, SendState.queued, SendState.encryptions]

/-- There is room behind the limit for all the calls in flight. -/
theorem room (h : SendInv k s) (hC : s.inFlight k < counterWindowSize) :
    (s.counter k).toNat - rejectAfterMessages + s.numActive k < counterWindowSize := by
  have hle := s.numActive_add_numLeaving_le k
  cases hv : s.isValid k with
  | false => exact h.invalid hv
  | true => have := h.valid hv; omega

theorem frame (h : SendInv k s) (hC : s.inFlight k < counterWindowSize) (hf : Frame k s s') : SendInv k s' := by
  refine ⟨fun n => (hf.held n).trans (h.once n), fun n hn => ?_, fun n hn => ?_, fun hv => ?_, fun hv => ?_⟩
  · rw [hf.counter]
    exact h.below n (List.count_pos_iff.1 (lt_of_lt_of_le (List.count_pos_iff.2 hn) (hf.held n)))
  · rw [hf.counter]; exact h.drawn n (hf.drawn n hn)
  · obtain ⟨hv', hle⟩ := hf.valid hv
    rw [hf.counter]
    exact (h.valid hv').trans (Nat.add_le_add_left hle _)
  · have h1 := h.room hC
    have h2 := hf.active hv
    rw [hf.counter]
    omega

theorem counter_succ (h : SendInv k s) (hC : s.inFlight k < counterWindowSize)
    (hd : Draws k s s' a b done todo p) : (s'.counter k).toNat = (s.counter k).toNat + 1 := by
  have hroom := h.room hC
  have hW : rejectAfterMessages + counterWindowSize + 2 = 2 ^ 64 := by decide
  rw [hd.counter, BitVec.toNat_add, show (1 : U64).toNat = 1 from rfl, Nat.mod_eq_of_lt (by omega)]

theorem draws (h : SendInv k s) (hC : s.inFlight k < counterWindowSize) (hd : Draws k s s' a b done todo p) :
    SendInv k s' := by
  have hroom := h.room hC
  have hsucc := h.counter_succ hC hd
  have hA : s.numActive k = (a ++ b).countP (SendCall.active k) + 1 := by
    rw [SendState.numActive, hd.calls, countP_mid]; simp [SendCall.active]
  have hL : s.numLeaving k = (a ++ b).countP (SendCall.leaving k) := by
    rw [SendState.numLeaving, hd.calls, countP_mid]; simp [SendCall.leaving]
  have hdrawn' : ∀ n, (k, n) ∈ s'.drawn → n.toNat < (s'.counter k).toNat := by
    intro n hn
    rw [hd.drawn] at hn
    rw [hsucc]
    rcases List.mem_append.1 hn with hn | hn
    · have := h.drawn n hn; omega
    · rw [List.mem_singleton, Prod.mk.injEq] at hn
      rw [hn.2]; omega
  have hheld : ∀ n, (s'.held k).count n + (done.map Skb.nonce).count n =
      (s.held k).count n + ((afterDraw k done { p with nonce := s.counter k } todo).nonces k).count n := by
    intro n
    simp only [SendState.held, hd.calls, hd.calls', hd.queued, List.flatMap_append, List.flatMap_cons,
      List.count_append, SendCall.nonces, batchNonces, if_true]
    omega
  by_cases hlim : rejectAfterMessages ≤ (s.counter k).toNat
  · -- past the limit: the call gives up its numbers and is on its way to clear `is_valid`
    have hafter : afterDraw k done { p with nonce := s.counter k } todo =
        .outInvalid k (done ++ { p with nonce := s.counter k } :: todo) := if_pos hlim
    have hA' : s'.numActive k = (a ++ b).countP (SendCall.active k) := by
      rw [SendState.numActive, hd.calls', hafter, countP_mid]; simp [SendCall.active]
    have hL' : s'.numLeaving k = (a ++ b).countP (SendCall.leaving k) + 1 := by
      rw [SendState.numLeaving, hd.calls', hafter, countP_mid]; simp [SendCall.leaving]
    have hle : ∀ n, (s'.held k).count n ≤ (s.held k).count n := by
      intro n
      have := hheld n
      rw [hafter] at this
      simp only [SendCall.nonces, List.count_nil] at this
      omega
    refine ⟨fun n => (hle n).trans (h.once n), fun n hn => ?_, hdrawn', fun hv => ?_, fun hv => ?_⟩
    · have := h.below n (List.count_pos_iff.1 (lt_of_lt_of_le (List.count_pos_iff.2 hn) (hle n)))
      omega
    · have := h.valid (hd.valid ▸ hv)
      omega
    · omega
  · -- below the limit: the packet has a number nobody holds
    have hnonces : (afterDraw k done { p with nonce := s.counter k } todo).nonces k =
        done.map Skb.nonce ++ [s.counter k] := by
      cases todo <;> simp [afterDraw, hlim, SendCall.nonces, batchNonces]
    have hA' : s'.numActive k ≤ (a ++ b).countP (SendCall.active k) + 1 := by
      rw [SendState.numActive, hd.calls', countP_mid]
      split <;> omega
    have hnew : (s.held k).count (s.counter k) = 0 := by
      rw [List.count_eq_zero]
      exact fun hm => lt_irrefl _ (h.below _ hm).1
    have hcount : ∀ n, (s'.held k).count n = (s.held k).count n + [s.counter k].count n := by
      intro n
      have := hheld n
      rw [hnonces, List.count_append] at this
      omega
    have hother : ∀ n, n ≠ s.counter k → (s'.held k).count n = (s.held k).count n := fun n hn => by
      rw [hcount, List.count_singleton, if_neg (by simpa using Ne.symm hn), Nat.add_zero]
    refine ⟨fun n => ?_, fun n hn => ?_, hdrawn', fun hv => ?_, fun hv => ?_⟩
    · by_cases hn : n = s.counter k
      · subst hn; rw [hcount, hnew]; simp
      · rw [hother n hn]; exact h.once n
    · by_cases hn' : n = s.counter k
      · subst hn'; omega
      · have hpos := List.count_pos_iff.2 hn
        rw [hother n hn'] at hpos
        have := h.below n (List.count_pos_iff.1 hpos)
        omega
    · omega
    · omega

theorem step (h : SendInv k s) (hC : s.inFlight k < counterWindowSize) (hs : SendStep s s') : SendInv k s' := by
  rcases hs.cases k with hf | ⟨_, _, _, _, _, hd⟩
  exacts [h.frame hC hf, h.draws hC hd]

/-- Past the limit no batch is completed any more. -/
theorem no_new_batch (h : SendInv k s) (hC : s.inFlight k < counterWindowSize)
    (hlim : rejectAfterMessages < (s.counter k).toNat) (hs : SendStep s s') :
    rejectAfterMessages < (s'.counter k).toNat ∧ ∀ n, (s'.batched k).count n ≤ (s.batched k).count n := by
  rcases hs.cases k with hf | ⟨a, b, done, todo, p, hd⟩
  · rw [hf.counter]
    exact ⟨hlim, hf.batched⟩
  · refine ⟨by rw [h.counter_succ hC hd]; omega, fun n => ?_⟩
    have hafter : afterDraw k done { p with nonce := s.counter k } todo =
        .outInvalid k (done ++ { p with nonce := s.counter k } :: todo) := if_pos hlim.le
    simp only [SendState.batched, hd.calls, hd.calls', hd.queued, hafter, List.flatMap_append, List.flatMap_cons,
      List.count_append, SendCall.batch, List.count_nil, le_rfl]

end SendInv

theorem gcmIv_injective {m n : U64} (h : gcmIv m = gcmIv n) : m = n := by
  have hm : m.toNat < 256 ^ 8 := m.isLt
  have hn : n.toNat < 256 ^ 8 := n.isLt
  have h' := congrArg leNat (List.append_cancel_left h)
  rw [leNat_leBytes, leNat_leBytes, Nat.mod_eq_of_lt hm, Nat.mod_eq_of_lt hn] at h'
  exact BitVec.eq_of_toNat_eq h'

/-- In every run with fewer than `COUNTER_WINDOW_SIZE` calls on `k` in flight at once, no two
executions of the cipher under `k` have the same initialization vector or counter, all of them are
below the limit, and once a number at or above it has been drawn no further batch comes about. -/
theorem sendStagedPackets_nonces (current : Option K) (k : K) {s : SendState K}
    (hrun : Run SendStep (fun s => s.inFlight k < counterWindowSize) (SendState.init current) s) :
    (s.encryptions k).Pairwise (fun m n => gcmIv m ≠ gcmIv n ∧ m ≠ n) ∧
      (∀ n ∈ s.encryptions k, n.toNat < rejectAfterMessages) ∧
      ∀ n, (k, n) ∈ s.drawn → rejectAfterMessages ≤ n.toNat →
        ∀ t, Run SendStep (fun s => s.inFlight k < counterWindowSize) s t → ∀ m ∈ t.batched k, m ∈ s.batched k := by
  have hinv : SendInv k s := hrun.inv (SendInv.init current) fun _ _ hC _ h hs => h.step hC hs
  have hsub : (s.encryptions k).Sublist (s.held k) :=
    (List.sublist_append_right _ _).trans (List.sublist_append_right _ _)
  refine ⟨?_, fun n hn => (hinv.below n (hsub.subset hn)).2, fun n hn hlim t hrun' => ?_⟩
  · have hnd : (s.encryptions k).Nodup := (List.nodup_iff_count_le_one.2 hinv.once).sublist hsub
    exact hnd.imp fun hne => ⟨fun he => hne (gcmIv_injective he), hne⟩
  · have hover : rejectAfterMessages < (s.counter k).toNat := lt_of_le_of_lt hlim (hinv.drawn n hn)
    have key : SendInv k t ∧ rejectAfterMessages < (t.counter k).toNat ∧
        ∀ m, (t.batched k).count m ≤ (s.batched k).count m := by
      refine hrun'.inv (I := fun t => SendInv k t ∧ rejectAfterMessages < (t.counter k).toNat ∧
        ∀ m, (t.batched k).count m ≤ (s.batched k).count m) ⟨hinv, hover, fun _ => le_rfl⟩ ?_
      rintro t u hC - ⟨h1, h2, h3⟩ hs
      obtain ⟨h4, h5⟩ := h1.no_new_batch hC h2 hs
      exact ⟨h1.step hC hs, h4, fun m => (h5 m).trans (h3 m)⟩
    exact fun m hm => List.count_pos_iff.1 (lt_of_lt_of_le (List.count_pos_iff.2 hm) (key.2.2 m))

end

/-- Two packets staged, numbered and encrypted. -/
theorem sendStagedPackets_nonces_two_packets :
    ∃ s : SendState Unit, s.encryptions () = [0, 1] ∧
      (s.encryptions ()).Pairwise (fun m n => gcmIv m ≠ gcmIv n ∧ m ≠ n) := by
  have h₀ : Run SendStep (fun s => s.inFlight () < counterWindowSize) (SendState.init (some ()))
    _ := .refl _ (by decide)
  have h₁ := h₀.tail (.xmit _ [⟨0, 0⟩, ⟨1, 0⟩]) (by decide)
  have h₂ := h₁.tail (.steal _ (by decide)) (by decide)
  have h₃ := h₂.tail (.getKeypair _ (a := []) rfl rfl) (by decide)
  have h₄ := h₃.tail (.readValid _ (a := []) rfl) (by decide)
  have h₅ := h₄.tail (.birthdate _ (a := []) false rfl) (by decide)
  have h₆ := h₅.tail (.draw _ (a := []) rfl) (by decide)
  have h₇ := h₆.tail (.draw _ (a := []) rfl) (by decide)
  have h₈ := h₇.tail (.enqueue _ (a := []) rfl) (by decide)
  have h₉ := h₈.tail (.consume _ rfl) (by decide)
  have h₁₀ := h₉.tail (.encrypt _ (a := []) rfl) (by decide)
  have h₁₁ := h₁₀.tail (.encrypt _ (a := []) rfl) (by decide)
  exact ⟨_, rfl, (sendStagedPackets_nonces (some ()) () h₁₁).1⟩

end WireguardAes
