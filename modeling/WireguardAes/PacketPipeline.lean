import WireguardAes.SendNonce
import WireguardAes.Lib.PtrRing
import WireguardAes.Lib.WorkQueue
import WireguardAes.Lib.Runs
import Mathlib.Logic.Function.Basic

/-!
# The packet pipeline (`send.c`, `receive.c`, `queueing.h`)

A bundle of packets (one packet, on the way in) goes to the queue of its peer and to the ring of the
device; a worker on some CPU takes it from the ring, encrypts or decrypts it and says so in its
state word; the serial context of the peer, `transmit_packet_work` on the way out and NAPI on the
way in, takes the bundles from the queue of the peer in their order, once the state word says so.
The model has any number of calls, CPUs and peers, and one event for each access to something
shared.

The queue of a peer is the bounded FIFO that `PrevQueueFifo` shows `prev_queue` to be, filled in the
order of the exchanges on `head`; a dequeue may find nothing while a producer is between its
exchange and its link store. Packets, calls, bundles and references have numbers that are never used
again; a reference knows the object that it counts for, so that putting it on another object is not
putting it.
-/

namespace WireguardAes

open Function

namespace PacketPipeline

abbrev Packet := Nat

inductive Dir where
  | tx
  | rx
deriving DecidableEq

/-- A keypair, with the peer that it is entered for (`entry.peer`). -/
structure KeypairEntry (Peer : Type) where
  peer : Peer
  index : Nat
deriving DecidableEq

inductive RefObject (Peer : Type) where
  | keypair (keypair : KeypairEntry Peer)
  | peer (peer : Peer)
deriving DecidableEq

structure Ref (Peer : Type) where
  number : Nat
  object : RefObject Peer
deriving DecidableEq

/-- The packets of a bundle and what `PACKET_CB` of the first one says. -/
structure Bundle (Peer : Type) where
  id : Nat
  dir : Dir
  keypair : KeypairEntry Peer
  packets : List Packet
  /-- The reference to the keypair that the bundle holds. -/
  keypairRef : Nat
  /-- The reference to the peer that the bundle holds. -/
  peerRef : Nat
deriving DecidableEq

/-- `PACKET_PEER` -/
def Bundle.peer {Peer : Type} (b : Bundle Peer) : Peer := b.keypair.peer

inductive PacketState where
  | uncrypted
  | crypted
  | dead
deriving DecidableEq

/-- Where `wg_queue_enqueue_per_peer_tx` and `_rx` are; `ok` is for `PACKET_STATE_CRYPTED`. -/
inductive Handoff (Peer : Type) where
  /-- Before `wg_peer_get`. -/
  | get (b : Bundle Peer) (ok : Bool)
  /-- Before the state word is set. -/
  | set (b : Bundle Peer) (ok : Bool) (ref : Nat)
  /-- The bundle may be gone; before `queue_work_on` or `napi_schedule`. -/
  | kick (dir : Dir) (peer : Peer) (ref : Nat)
  /-- Before `wg_peer_put`. -/
  | put (peer : Peer) (ref : Nat)
deriving DecidableEq

/-- What becomes of a packet: it is handed on, to `wg_socket_send_skb_to_peer` or to the network
stack, or it is freed. -/
inductive Fate where
  | sent
  | freed
deriving DecidableEq

/-- What is left to do for packets that are out of the queues: references are put, the packets are
released one after the other, and references are put. -/
structure Cleanup (Peer : Type) where
  before : List (Ref Peer)
  packets : List Packet
  fate : Fate
  after : List (Ref Peer)
deriving DecidableEq

/-- Where a call of `wg_packet_send_staged_packets` or `wg_packet_consume_data` is. -/
inductive Call (Peer : Type) where
  | idle
  /-- The packets are off the staged queue. -/
  | stolen (peer : Peer) (packets : List Packet)
  | keyed (peer : Peer) (packets : List Packet) (keypair : KeypairEntry Peer) (ref : Nat)
  /-- At `out_nokey`, the keypair put. -/
  | outNokey (peer : Peer) (packets : List Packet)
  /-- The index lookup found the keypair and took a reference to its peer. -/
  | looked (packet : Packet) (keypair : KeypairEntry Peer) (ref : Nat)
  /-- Before `is_dead` is read. -/
  | create (b : Bundle Peer)
  | enqueue (b : Bundle Peer)
  /-- Counted in the queue of the peer. -/
  | reserved (b : Bundle Peer)
  /-- In the queue of the peer, with the link to it not made. -/
  | unlinked (b : Bundle Peer)
  | queued (b : Bundle Peer)
  /-- In the ring of the device; before `queue_work_on`. -/
  | produced (dir : Dir) (peer : Peer)
  /-- After `-EPIPE`. -/
  | handoff (h : Handoff Peer)
  | cleanup (c : Cleanup Peer)
deriving DecidableEq

/-- Where a crypt worker is. -/
inductive Worker (Peer : Type) where
  | idle
  /-- Before `ptr_ring_consume_bh`. -/
  | looping
  | crypting (b : Bundle Peer)
  | handoff (h : Handoff Peer)
  /-- It has found the ring empty. -/
  | exiting
deriving DecidableEq

/-- Where `wg_packet_tx_worker` or `wg_packet_rx_poll` is, with the number of bundles that it has
been through. -/
inductive Consumer (Peer : Type) where
  | idle
  | looping (workDone : Nat)
  | cleanup (c : Cleanup Peer) (workDone : Nat)
  /-- It has found nothing to do. -/
  | exiting
deriving DecidableEq

structure PeerQueue (Peer : Type) where
  entries : List (Bundle Peer)
  peeked : Option (Bundle Peer)
  count : Nat

def PeerQueue.bundles {Peer : Type} (q : PeerQueue Peer) : List (Bundle Peer) := q.peeked.toList ++ q.entries

theorem PeerQueue.bundles_of_peeked {Peer : Type} {q : PeerQueue Peer} {b : Bundle Peer} (h : q.peeked = some b) :
    q.bundles = b :: q.entries := by
  rw [bundles, h]
  rfl

theorem PeerQueue.bundles_of_none {Peer : Type} {q : PeerQueue Peer} (h : q.peeked = none) : q.bundles = q.entries := by
  rw [bundles, h]
  rfl

/-- The work items on `packet_crypt_wq`. -/
inductive Item (Peer Cpu : Type) where
  | crypt (dir : Dir) (cpu : Cpu)
  | transmit (peer : Peer)
deriving DecidableEq

/-- The state bits of a `napi_struct`. -/
structure Napi where
  sched : Bool
  missed : Bool
  /-- `napi_disable` waits. -/
  disable : Bool
  /-- `napi_disable` has returned. -/
  off : Bool
deriving DecidableEq

def Napi.schedule (n : Napi) : Napi :=
  if n.disable || n.off then n else if n.sched then { n with missed := true } else { n with sched := true }

/-- `napi_complete_done` -/
def Napi.complete (n : Napi) : Napi := { n with sched := n.missed, missed := false }

/-- The budget of a poll, `NAPI_POLL_WEIGHT`. -/
def budget : Nat := 64

end PacketPipeline

open PacketPipeline

structure PacketPipeline (Peer Cpu : Type) where
  staged : Peer → List Packet
  calls : Nat → Call Peer
  isDead : Peer → Bool
  /-- The state word of each bundle. -/
  state : Nat → PacketPipeline.PacketState
  /-- `tx_queue` and `rx_queue` of each peer. -/
  queue : Dir → Peer → PeerQueue Peer
  /-- The rings of `encrypt_queue` and `decrypt_queue`. -/
  ring : Dir → PtrRing (Bundle Peer) maxQueuedPackets
  worker : Dir → Cpu → Worker Peer
  consumer : Dir → Peer → Consumer Peer
  item : Item Peer Cpu → WorkItem
  napi : Peer → Napi
  nextCall : Nat
  nextBundle : Nat
  nextRef : Nat
  /-- The packets put on a staged queue or given to `wg_packet_consume_data`, so far. -/
  accepted : List Packet
  sent : List Packet
  freed : List Packet
  /-- The references taken, so far. -/
  gets : List (Ref Peer)
  puts : List (Ref Peer)
  /-- The bundles in the order in which they came to the queue of a peer, so far. -/
  entered : Dir → Peer → List (Bundle Peer)
  /-- The bundles in the order in which they were taken from the queue of a peer, so far. -/
  left : Dir → Peer → List (Bundle Peer)

namespace PacketPipeline
variable {Peer Cpu : Type}

def init : PacketPipeline Peer Cpu where
  staged _ := []
  calls _ := .idle
  isDead _ := false
  state _ := .uncrypted
  queue _ _ := ⟨[], none, 0⟩
  ring _ := .empty
  worker _ _ := .idle
  consumer _ _ := .idle
  item _ := .idle
  napi _ := ⟨false, false, false, false⟩
  nextCall := 0
  nextBundle := 0
  nextRef := 0
  accepted := []
  sent := []
  freed := []
  gets := []
  puts := []
  entered _ _ := []
  left _ _ := []

inductive Event (Peer Cpu : Type) where
  /-- `wg_xmit`, with the packets it has made of its own one. -/
  | xmit (peer : Peer) (packets : List Packet)
  /-- `wg_packet_send_keepalive`; the queue was found empty without the lock. -/
  | keepalive (peer : Peer) (packet : Packet)
  | purge (peer : Peer)
  | die (peer : Peer)
  -- `wg_packet_send_staged_packets`
  | steal (peer : Peer)
  | getKeypair (call : Nat) (current : Option (KeypairEntry Peer))
  /-- The keypair is not valid, has expired or is out of nonces. -/
  | reject (call : Nat)
  /-- All the packets have nonces. -/
  | assign (call : Nat)
  | splice (call : Nat)
  -- `wg_packet_consume_data`
  | receive (packet : Packet) (found : Option (KeypairEntry Peer))
  | keypairGet (call : Nat) (ok : Bool)
  -- `wg_packet_create_data`, `wg_queue_enqueue_per_device_and_peer`
  | checkDead (call : Nat)
  | reserve (call : Nat)
  | exchange (call : Nat)
  | link (call : Nat)
  | produce (call : Nat)
  | queueWork (call : Nat) (cpu : Cpu)
  | callHandoff (call : Nat)
  | callCleanup (call : Nat)
  -- the crypt workers
  | startWorker (dir : Dir) (cpu : Cpu)
  | consume (dir : Dir) (cpu : Cpu) (clears : Bool)
  | crypted (dir : Dir) (cpu : Cpu) (ok : Bool)
  | workerHandoff (dir : Dir) (cpu : Cpu)
  | finishWorker (dir : Dir) (cpu : Cpu)
  -- `wg_packet_tx_worker`, `wg_packet_rx_poll`
  | startTx (peer : Peer)
  | startPoll (peer : Peer)
  | peek (dir : Dir) (peer : Peer)
  /-- `fate`: what `wg_packet_consume_data_done` does, unless the nonce or the endpoint is refused.
  -/
  | pop (dir : Dir) (peer : Peer) (fate : Option Fate)
  | consumerCleanup (dir : Dir) (peer : Peer)
  | stop (dir : Dir) (peer : Peer)
  | finishTx (peer : Peer)
  | complete (peer : Peer)
  /-- The poll has used its budget. -/
  | spend (peer : Peer)

section
variable [DecidableEq Peer] (s : PacketPipeline Peer Cpu)

def setStaged (p : Peer) (xs : List Packet) : PacketPipeline Peer Cpu :=
  { s with staged := update s.staged p xs }

def accept (xs : List Packet) : PacketPipeline Peer Cpu :=
  { s with accepted := s.accepted ++ xs }

def release (xs : List Packet) : Fate → PacketPipeline Peer Cpu
  | .sent => { s with sent := s.sent ++ xs }
  | .freed => { s with freed := s.freed ++ xs }

def setDead (p : Peer) : PacketPipeline Peer Cpu :=
  { s with isDead := update s.isDead p true }

def setCall (c : Nat) (call : Call Peer) : PacketPipeline Peer Cpu :=
  { s with calls := update s.calls c call }

def newCall (call : Call Peer) : PacketPipeline Peer Cpu :=
  { s.setCall s.nextCall call with nextCall := s.nextCall + 1 }

/-- `PACKET_CB` of the first packet is filled in. -/
def newBundle : PacketPipeline Peer Cpu := { s with nextBundle := s.nextBundle + 1 }

def setState (id : Nat) (state : PacketState) : PacketPipeline Peer Cpu :=
  { s with state := update s.state id state }

def setQueue (d : Dir) (p : Peer) (q : PeerQueue Peer) : PacketPipeline Peer Cpu :=
  { s with queue := update s.queue d (update (s.queue d) p q) }

def noteEntered (d : Dir) (p : Peer) (b : Bundle Peer) : PacketPipeline Peer Cpu :=
  { s with entered := update s.entered d (update (s.entered d) p (s.entered d p ++ [b])) }

def noteLeft (d : Dir) (p : Peer) (b : Bundle Peer) : PacketPipeline Peer Cpu :=
  { s with left := update s.left d (update (s.left d) p (s.left d p ++ [b])) }

def setRing (d : Dir) (ring : PtrRing (Bundle Peer) maxQueuedPackets) :
    PacketPipeline Peer Cpu :=
  { s with ring := update s.ring d ring }

def setConsumer (d : Dir) (p : Peer) (c : Consumer Peer) : PacketPipeline Peer Cpu :=
  { s with consumer := update s.consumer d (update (s.consumer d) p c) }

def setWorker [DecidableEq Cpu] (s : PacketPipeline Peer Cpu) (d : Dir) (cpu : Cpu) (w : Worker Peer) :
    PacketPipeline Peer Cpu :=
  { s with worker := update s.worker d (update (s.worker d) cpu w) }

def setItem [DecidableEq Cpu] (s : PacketPipeline Peer Cpu) (i : Item Peer Cpu) (w : WorkItem) :
    PacketPipeline Peer Cpu :=
  { s with item := update s.item i w }

def setNapi (p : Peer) (n : Napi) : PacketPipeline Peer Cpu :=
  { s with napi := update s.napi p n }

/-- A reference is taken; its number is `nextRef`. -/
def get (object : RefObject Peer) : PacketPipeline Peer Cpu :=
  { s with gets := s.gets ++ [⟨s.nextRef, object⟩], nextRef := s.nextRef + 1 }

def put (ref : Ref Peer) : PacketPipeline Peer Cpu :=
  { s with puts := s.puts ++ [ref] }

/-- One step of `wg_queue_enqueue_per_peer_tx` or `_rx`, and where it is then. -/
def handoffStep [DecidableEq Cpu] (s : PacketPipeline Peer Cpu) :
    Handoff Peer → PacketPipeline Peer Cpu × Option (Handoff Peer)
  | .get b ok => (s.get (.peer b.peer), some (.set b ok s.nextRef))
  | .set b ok ref => (s.setState b.id (if ok then .crypted else .dead), some (.kick b.dir b.peer ref))
  | .kick .tx p ref => (s.setItem (.transmit p) (s.item (.transmit p)).queue, some (.put p ref))
  | .kick .rx p ref => (s.setNapi p (s.napi p).schedule, some (.put p ref))
  | .put p ref => (s.put ⟨ref, .peer p⟩, none)

def cleanupStep (c : Cleanup Peer) : PacketPipeline Peer Cpu × Option (Cleanup Peer) :=
  match c.before, c.packets, c.after with
  | ref :: refs, _, _ => (s.put ref, some { c with before := refs })
  | [], x :: xs, _ => (s.release [x] c.fate, some { c with packets := xs })
  | [], [], ref :: refs => (s.put ref, some { c with after := refs })
  | [], [], [] => (s, none)

/-- The references of a bundle, put by a context that has `peer` for its peer. -/
def putRefs (b : Bundle Peer) (peer : Peer) : List (Ref Peer) :=
  [⟨b.keypairRef, .keypair b.keypair⟩, ⟨b.peerRef, .peer peer⟩]

/-- `err` of `wg_packet_create_data` and of `wg_packet_consume_data`. -/
def errCleanup (b : Bundle Peer) : Cleanup Peer := ⟨putRefs b b.peer, b.packets, .freed, []⟩

/-- The body of the loop of `wg_packet_tx_worker` and of `wg_packet_rx_poll`. -/
def doneCleanup (d : Dir) (p : Peer) (b : Bundle Peer) (state : PacketState) (fate : Option Fate) : Cleanup Peer :=
  match d, state, fate with
  | .tx, .crypted, _ => ⟨[], b.packets, .sent, putRefs b p⟩
  | .tx, _, _ => ⟨[], b.packets, .freed, putRefs b p⟩
  | .rx, .crypted, some fate => ⟨[], b.packets, fate, putRefs b p⟩
  | .rx, _, _ => ⟨putRefs b p, b.packets, .freed, []⟩

/-- The poll may go on; `wg_packet_tx_worker` has no budget. -/
def withinBudget (d : Dir) (workDone : Nat) : Bool :=
  match d with
  | .tx => true
  | .rx => workDone < budget

/-- A producer of the queue is between its exchange and its link store. -/
def linking (d : Dir) (p : Peer) : Bool :=
  (List.range s.nextCall).any fun c =>
    match s.calls c with
    | .unlinked b => b.dir = d && b.peer = p
    | _ => false

/-- `wg_prev_queue_peek` returns none, or the first bundle is still `PACKET_STATE_UNCRYPTED`. -/
def nothingToDo (d : Dir) (p : Peer) : Bool :=
  match (s.queue d p).peeked with
  | none => (s.queue d p).entries.isEmpty || s.linking d p
  | some b => s.state b.id = .uncrypted

end

variable [DecidableEq Peer] [DecidableEq Cpu]

def step (s : PacketPipeline Peer Cpu) : Event Peer Cpu → Option (PacketPipeline Peer Cpu)
  | .xmit p xs =>
    if xs.Nodup ∧ ∀ x ∈ xs, x ∉ s.accepted then
      -- the oldest packets make room
      let excess := (s.staged p).length - maxStagedPackets
      some (((s.release ((s.staged p).take excess) .freed).setStaged p ((s.staged p).drop excess ++ xs)).accept xs)
    else none
  | .keepalive p x =>
    if x ∈ s.accepted then none else some ((s.setStaged p (s.staged p ++ [x])).accept [x])
  | .purge p => some ((s.release (s.staged p) .freed).setStaged p [])
  | .die p => some (s.setDead p)
  | .steal p =>
    if s.staged p = [] then none else some ((s.setStaged p []).newCall (.stolen p (s.staged p)))
  | .getKeypair c current =>
    match s.calls c, current with
    | .stolen p xs, none => some (s.setCall c (.outNokey p xs))
    | .stolen p xs, some k =>
      if k.peer = p then some ((s.get (.keypair k)).setCall c (.keyed p xs k s.nextRef)) else none
    | _, _ => none
  | .reject c =>
    match s.calls c with
    | .keyed p xs k ref => some ((s.put ⟨ref, .keypair k⟩).setCall c (.outNokey p xs))
    | _ => none
  | .assign c =>
    match s.calls c with
    | .keyed _ xs k ref =>
      some (((s.get (.peer k.peer)).setCall c (.create ⟨s.nextBundle, .tx, k, xs, ref, s.nextRef⟩)).newBundle)
    | _ => none
  | .splice c =>
    match s.calls c with
    | .outNokey p xs => some ((s.setStaged p (xs ++ s.staged p)).setCall c .idle)
    | _ => none
  | .receive x found =>
    if x ∈ s.accepted then none
    else
      match found with
      | none => some ((s.accept [x]).newCall (.cleanup ⟨[], [x], .freed, []⟩))
      | some k => some (((s.accept [x]).get (.peer k.peer)).newCall (.looked x k s.nextRef))
  | .keypairGet c ok =>
    match s.calls c with
    | .looked x k ref =>
      if ok then
        some (((s.get (.keypair k)).setCall c (.create ⟨s.nextBundle, .rx, k, [x], s.nextRef, ref⟩)).newBundle)
      else some (s.setCall c (.cleanup ⟨[⟨ref, .peer k.peer⟩], [x], .freed, []⟩))
    | _ => none
  | .checkDead c =>
    match s.calls c with
    | .create b => some (s.setCall c (if s.isDead b.peer then .cleanup (errCleanup b) else .enqueue b))
    | _ => none
  | .reserve c =>
    match s.calls c with
    | .enqueue b =>
      let q := s.queue b.dir b.peer
      -- `-ENOSPC`
      if q.count = maxQueuedPackets then some ((s.setState b.id .uncrypted).setCall c (.cleanup (errCleanup b)))
      else
        some (((s.setState b.id .uncrypted).setQueue b.dir b.peer { q with count := q.count + 1 }).setCall c
          (.reserved b))
    | _ => none
  | .exchange c =>
    match s.calls c with
    | .reserved b =>
      let q := s.queue b.dir b.peer
      some (((s.setQueue b.dir b.peer { q with entries := q.entries ++ [b] }).setCall c (.unlinked b)).noteEntered
        b.dir b.peer b)
    | _ => none
  | .link c =>
    match s.calls c with
    | .unlinked b => some (s.setCall c (.queued b))
    | _ => none
  | .produce c =>
    match s.calls c with
    | .queued b =>
      match (s.ring b.dir).produce b with
      | some ring => some ((s.setRing b.dir ring).setCall c (.produced b.dir b.peer))
      | none => some (s.setCall c (.handoff (.get b false)))
    | _ => none
  | .queueWork c cpu =>
    match s.calls c with
    | .produced d _ => some ((s.setItem (.crypt d cpu) (s.item (.crypt d cpu)).queue).setCall c .idle)
    | _ => none
  | .callHandoff c =>
    match s.calls c with
    | .handoff h => some ((s.handoffStep h).1.setCall c ((s.handoffStep h).2.elim .idle .handoff))
    | _ => none
  | .callCleanup c =>
    match s.calls c with
    | .cleanup l => some ((s.cleanupStep l).1.setCall c ((s.cleanupStep l).2.elim .idle .cleanup))
    | _ => none
  | .startWorker d cpu =>
    match (s.item (.crypt d cpu)).start with
    | some w => some ((s.setItem (.crypt d cpu) w).setWorker d cpu .looping)
    | none => none
  | .consume d cpu clears =>
    match s.worker d cpu with
    | .looping =>
      match (s.ring d).consume clears with
      | some (b, ring) => some ((s.setRing d ring).setWorker d cpu (.crypting b))
      | none => some (s.setWorker d cpu .exiting)
    | _ => none
  | .crypted d cpu ok =>
    match s.worker d cpu with
    | .crypting b => some (s.setWorker d cpu (.handoff (.get b ok)))
    | _ => none
  | .workerHandoff d cpu =>
    match s.worker d cpu with
    | .handoff h => some ((s.handoffStep h).1.setWorker d cpu ((s.handoffStep h).2.elim .looping .handoff))
    | _ => none
  | .finishWorker d cpu =>
    match s.worker d cpu, (s.item (.crypt d cpu)).finish with
    | .exiting, some w => some ((s.setItem (.crypt d cpu) w).setWorker d cpu .idle)
    | _, _ => none
  | .startTx p =>
    match (s.item (.transmit p)).start with
    | some w => some ((s.setItem (.transmit p) w).setConsumer .tx p (.looping 0))
    | none => none
  | .startPoll p =>
    match s.consumer .rx p with
    | .idle => if (s.napi p).sched && !(s.napi p).off then some (s.setConsumer .rx p (.looping 0)) else none
    | _ => none
  | .peek d p =>
    match s.consumer d p, (s.queue d p).peeked, (s.queue d p).entries with
    | .looping n, none, b :: entries =>
      if withinBudget d n then
        some (s.setQueue d p { s.queue d p with
          peeked := some b, entries := entries, count := (s.queue d p).count - 1 })
      else none
    | _, _, _ => none
  | .pop d p fate =>
    match s.consumer d p, (s.queue d p).peeked with
    | .looping n, some b =>
      if withinBudget d n ∧ s.state b.id ≠ .uncrypted then
        some (((s.setQueue d p { s.queue d p with peeked := none }).setConsumer d p
          (.cleanup (doneCleanup d p b (s.state b.id) fate) n)).noteLeft d p b)
      else none
    | _, _ => none
  | .consumerCleanup d p =>
    match s.consumer d p with
    | .cleanup l n =>
      some ((s.cleanupStep l).1.setConsumer d p ((s.cleanupStep l).2.elim (.looping (n + 1)) (.cleanup · n)))
    | _ => none
  | .stop d p =>
    match s.consumer d p with
    | .looping n => if withinBudget d n && s.nothingToDo d p then some (s.setConsumer d p .exiting) else none
    | _ => none
  | .finishTx p =>
    match s.consumer .tx p, (s.item (.transmit p)).finish with
    | .exiting, some w => some ((s.setItem (.transmit p) w).setConsumer .tx p .idle)
    | _, _ => none
  | .complete p =>
    match s.consumer .rx p with
    | .exiting => some ((s.setNapi p (s.napi p).complete).setConsumer .rx p .idle)
    | _ => none
  | .spend p =>
    match s.consumer .rx p with
    | .looping n =>
      if withinBudget .rx n then none
      -- with `napi_disable` waiting the poll is not repeated
      else if (s.napi p).disable then some ((s.setNapi p (s.napi p).complete).setConsumer .rx p .idle)
      else some (s.setConsumer .rx p .idle)
    | _ => none

theorem update_update_apply {ι κ β : Type} [DecidableEq ι] [DecidableEq κ] (f : ι → κ → β)
    (i i' : ι) (k k' : κ) (x : β) :
    update f i (update (f i) k x) i' k' = if i' = i ∧ k' = k then x else f i' k' := by
  by_cases hi : i' = i
  · subst hi
    simp only [update_self, update_apply, true_and]
  · simp only [update_of_ne hi, hi, false_and, if_false]

section
variable {s : PacketPipeline Peer Cpu} {d d' : Dir} {p p' : Peer}

omit [DecidableEq Cpu]

theorem queue_setQueue {q : PeerQueue Peer} :
    (s.setQueue d p q).queue d' p' = if d' = d ∧ p' = p then q else s.queue d' p' := update_update_apply ..

theorem consumer_setConsumer {c : Consumer Peer} :
    (s.setConsumer d p c).consumer d' p' = if d' = d ∧ p' = p then c else s.consumer d' p' := update_update_apply ..

theorem napi_setNapi {n : Napi} : (s.setNapi p n).napi p' = if p' = p then n else s.napi p' := update_apply ..

theorem entered_noteEntered {b : Bundle Peer} :
    (s.noteEntered d p b).entered d' p' = if d' = d ∧ p' = p then s.entered d p ++ [b] else s.entered d' p' :=
  update_update_apply ..

theorem left_noteLeft {b : Bundle Peer} :
    (s.noteLeft d p b).left d' p' = if d' = d ∧ p' = p then s.left d p ++ [b] else s.left d' p' :=
      update_update_apply ..

omit [DecidableEq Peer] in
theorem ring_setRing {ring : PtrRing (Bundle Peer) maxQueuedPackets} :
    (s.setRing d ring).ring d' = if d' = d then ring else s.ring d' := update_apply ..

omit [DecidableEq Peer] in
theorem calls_setCall {c c' : Nat} {call : Call Peer} :
    (s.setCall c call).calls c' = if c' = c then call else s.calls c' := update_apply ..

end

theorem item_setItem {s : PacketPipeline Peer Cpu} {i j : Item Peer Cpu} {w : WorkItem} :
    (s.setItem i w).item j = if j = i then w else s.item j := update_apply ..

omit [DecidableEq Peer] in
theorem worker_setWorker {s : PacketPipeline Peer Cpu} {d d' : Dir} {cpu cpu' : Cpu} {w : Worker Peer} :
    (s.setWorker d cpu w).worker d' cpu' = if d' = d ∧ cpu' = cpu then w else s.worker d' cpu' := update_update_apply ..

/-- A handover touches the state words, the items, the NAPI contexts and the references. -/
theorem handoffStep_eq (s : PacketPipeline Peer Cpu) (h : Handoff Peer) : ∃ state item napi gets puts nextRef,
    (s.handoffStep h).1 =
      { s with state := state, item := item, napi := napi, gets := gets, puts := puts, nextRef := nextRef } := by
  rcases h with _ | _ | ⟨_ | _, p, ref⟩ | _ <;> exact ⟨_, _, _, _, _, _, rfl⟩

omit [DecidableEq Peer] [DecidableEq Cpu] in
/-- A cleanup touches the packets released and the references put. -/
theorem cleanupStep_eq (s : PacketPipeline Peer Cpu) (l : Cleanup Peer) :
    ∃ sent freed puts, (s.cleanupStep l).1 = { s with sent := sent, freed := freed, puts := puts } := by
  obtain ⟨_ | _, _ | _, _ | _, _ | _⟩ := l <;> exact ⟨_, _, _, rfl⟩

/-- What each event does, case by case. -/
inductive Step (s : PacketPipeline Peer Cpu) : Event Peer Cpu → PacketPipeline Peer Cpu → Prop
  | xmit {p xs} (hxs : xs.Nodup) (hnew : ∀ x ∈ xs, x ∉ s.accepted) :
    Step s (.xmit p xs) (((s.release ((s.staged p).take ((s.staged p).length - maxStagedPackets)) .freed).setStaged p
      ((s.staged p).drop ((s.staged p).length - maxStagedPackets) ++ xs)).accept xs)
  | keepalive {p x} (hnew : x ∉ s.accepted) :
    Step s (.keepalive p x) ((s.setStaged p (s.staged p ++ [x])).accept [x])
  | purge {p} : Step s (.purge p) ((s.release (s.staged p) .freed).setStaged p [])
  | die {p} : Step s (.die p) (s.setDead p)
  | steal {p} (hne : s.staged p ≠ []) :
    Step s (.steal p) ((s.setStaged p []).newCall (.stolen p (s.staged p)))
  | noKeypair {c p xs} (hc : s.calls c = .stolen p xs) : Step s (.getKeypair c none) (s.setCall c (.outNokey p xs))
  | getKeypair {c p xs k} (hc : s.calls c = .stolen p xs) (hk : k.peer = p) :
    Step s (.getKeypair c (some k)) ((s.get (.keypair k)).setCall c (.keyed p xs k s.nextRef))
  | reject {c p xs k ref} (hc : s.calls c = .keyed p xs k ref) :
    Step s (.reject c) ((s.put ⟨ref, .keypair k⟩).setCall c (.outNokey p xs))
  | assign {c p xs k ref} (hc : s.calls c = .keyed p xs k ref) :
    Step s (.assign c)
      (((s.get (.peer k.peer)).setCall c (.create ⟨s.nextBundle, .tx, k, xs, ref, s.nextRef⟩)).newBundle)
  | splice {c p xs} (hc : s.calls c = .outNokey p xs) :
    Step s (.splice c) ((s.setStaged p (xs ++ s.staged p)).setCall c .idle)
  | receiveUnknown {x} (hnew : x ∉ s.accepted) :
    Step s (.receive x none) ((s.accept [x]).newCall (.cleanup ⟨[], [x], .freed, []⟩))
  | receive {x k} (hnew : x ∉ s.accepted) :
    Step s (.receive x (some k)) (((s.accept [x]).get (.peer k.peer)).newCall (.looked x k s.nextRef))
  | keypairGone {c x k ref} (hc : s.calls c = .looked x k ref) :
    Step s (.keypairGet c false) (s.setCall c (.cleanup ⟨[⟨ref, .peer k.peer⟩], [x], .freed, []⟩))
  | keypairGet {c x k ref} (hc : s.calls c = .looked x k ref) :
    Step s (.keypairGet c true)
      (((s.get (.keypair k)).setCall c (.create ⟨s.nextBundle, .rx, k, [x], s.nextRef, ref⟩)).newBundle)
  | checkDead {c b} (hc : s.calls c = .create b) :
    Step s (.checkDead c) (s.setCall c (if s.isDead b.peer then .cleanup (errCleanup b) else .enqueue b))
  | noSpace {c b} (hc : s.calls c = .enqueue b) :
    Step s (.reserve c) ((s.setState b.id .uncrypted).setCall c (.cleanup (errCleanup b)))
  | reserve {c b} (hc : s.calls c = .enqueue b) :
    Step s (.reserve c) (((s.setState b.id .uncrypted).setQueue b.dir b.peer
      { s.queue b.dir b.peer with count := (s.queue b.dir b.peer).count + 1 }).setCall c (.reserved b))
  | exchange {c b} (hc : s.calls c = .reserved b) :
    Step s (.exchange c) (((s.setQueue b.dir b.peer { s.queue b.dir b.peer with
      entries := (s.queue b.dir b.peer).entries ++ [b] }).setCall c (.unlinked b)).noteEntered b.dir b.peer b)
  | link {c b} (hc : s.calls c = .unlinked b) :
    Step s (.link c) (s.setCall c (.queued b))
  | produce {c b ring} (hc : s.calls c = .queued b) (hring : (s.ring b.dir).produce b = some ring) :
    Step s (.produce c) ((s.setRing b.dir ring).setCall c (.produced b.dir b.peer))
  | ringFull {c b} (hc : s.calls c = .queued b) : Step s (.produce c) (s.setCall c (.handoff (.get b false)))
  | queueWork {c cpu d p} (hc : s.calls c = .produced d p) :
    Step s (.queueWork c cpu) ((s.setItem (.crypt d cpu) (s.item (.crypt d cpu)).queue).setCall c .idle)
  | callHandoff {c h} (hc : s.calls c = .handoff h) :
    Step s (.callHandoff c) ((s.handoffStep h).1.setCall c ((s.handoffStep h).2.elim .idle .handoff))
  | callCleanup {c l sent freed puts} (hc : s.calls c = .cleanup l)
      (heq : (s.cleanupStep l).1 = { s with sent := sent, freed := freed, puts := puts }) :
    Step s (.callCleanup c) ({ s with sent := sent, freed := freed, puts := puts }.setCall c
      ((s.cleanupStep l).2.elim .idle .cleanup))
  | startWorker {d cpu w} (hw : (s.item (.crypt d cpu)).start = some w) :
    Step s (.startWorker d cpu) ((s.setItem (.crypt d cpu) w).setWorker d cpu .looping)
  | consume {d cpu clears b ring} (hw : s.worker d cpu = .looping)
    (hring : (s.ring d).consume clears = some (b, ring)) :
    Step s (.consume d cpu clears) ((s.setRing d ring).setWorker d cpu (.crypting b))
  | ringEmpty {d cpu clears} (hw : s.worker d cpu = .looping) (hring : (s.ring d).consume clears = none) :
    Step s (.consume d cpu clears) (s.setWorker d cpu .exiting)
  | crypted {d cpu ok b} (hw : s.worker d cpu = .crypting b) :
    Step s (.crypted d cpu ok) (s.setWorker d cpu (.handoff (.get b ok)))
  | workerHandoff {d cpu h} (hw : s.worker d cpu = .handoff h) :
    Step s (.workerHandoff d cpu) ((s.handoffStep h).1.setWorker d cpu ((s.handoffStep h).2.elim .looping .handoff))
  | finishWorker {d cpu w} (hw : s.worker d cpu = .exiting) (hi : (s.item (.crypt d cpu)).finish = some w) :
    Step s (.finishWorker d cpu) ((s.setItem (.crypt d cpu) w).setWorker d cpu .idle)
  | startTx {p w} (hi : (s.item (.transmit p)).start = some w) :
    Step s (.startTx p) ((s.setItem (.transmit p) w).setConsumer .tx p (.looping 0))
  | startPoll {p} (hp : s.consumer .rx p = .idle) (hsched : (s.napi p).sched = true) (hoff : (s.napi p).off = false) :
    Step s (.startPoll p) (s.setConsumer .rx p (.looping 0))
  | peek {d p n b entries} (hp : s.consumer d p = .looping n) (hnone : (s.queue d p).peeked = none)
      (hq : (s.queue d p).entries = b :: entries) :
    Step s (.peek d p) (s.setQueue d p { s.queue d p with
      peeked := some b, entries := entries, count := (s.queue d p).count - 1 })
  | pop {d p fate n b} (hp : s.consumer d p = .looping n) (hb : (s.queue d p).peeked = some b)
      (hst : s.state b.id ≠ .uncrypted) :
    Step s (.pop d p fate) (((s.setQueue d p { s.queue d p with peeked := none }).setConsumer d p
      (.cleanup (doneCleanup d p b (s.state b.id) fate) n)).noteLeft d p b)
  | consumerCleanup {d p l n sent freed puts} (hp : s.consumer d p = .cleanup l n)
      (heq : (s.cleanupStep l).1 = { s with sent := sent, freed := freed, puts := puts }) :
    Step s (.consumerCleanup d p) ({ s with sent := sent, freed := freed, puts := puts }.setConsumer d p
      ((s.cleanupStep l).2.elim (.looping (n + 1)) (.cleanup · n)))
  | stop {d p n} (hp : s.consumer d p = .looping n) (hn : s.nothingToDo d p = true) :
    Step s (.stop d p) (s.setConsumer d p .exiting)
  | finishTx {p w} (hp : s.consumer .tx p = .exiting) (hi : (s.item (.transmit p)).finish = some w) :
    Step s (.finishTx p) ((s.setItem (.transmit p) w).setConsumer .tx p .idle)
  | complete {p} (hp : s.consumer .rx p = .exiting) :
    Step s (.complete p) ((s.setNapi p (s.napi p).complete).setConsumer .rx p .idle)
  | spendDisabled {p n} (hp : s.consumer .rx p = .looping n) (hn : withinBudget .rx n = false)
      (hd : (s.napi p).disable = true) :
    Step s (.spend p) ((s.setNapi p (s.napi p).complete).setConsumer .rx p .idle)
  | spend {p n} (hp : s.consumer .rx p = .looping n) (hd : (s.napi p).disable = false) :
    Step s (.spend p) (s.setConsumer .rx p .idle)

theorem step_cases {s t : PacketPipeline Peer Cpu} {e : Event Peer Cpu} (hs : s.step e = some t) : Step s e t := by
  cases e with
  | xmit p xs =>
    obtain ⟨h, ⟨⟩⟩ := Option.ite_none_right_eq_some.mp hs
    exact .xmit h.1 h.2
  | keepalive p x =>
    dsimp only [step] at hs
    split at hs <;> cases hs
    exact .keepalive ‹_›
  | purge p =>
    cases hs
    exact .purge
  | die p =>
    cases hs
    exact .die
  | steal p =>
    dsimp only [step] at hs
    split at hs <;> cases hs
    exact .steal ‹_›
  | getKeypair c current =>
    dsimp only [step] at hs
    split at hs
    · cases hs
      exact .noKeypair ‹_›
    · split at hs <;> cases hs
      exact .getKeypair ‹_› ‹_›
    · cases hs
  | reject c =>
    dsimp only [step] at hs
    split at hs <;> cases hs
    exact .reject ‹_›
  | assign c =>
    dsimp only [step] at hs
    split at hs <;> cases hs
    exact .assign ‹_›
  | splice c =>
    dsimp only [step] at hs
    split at hs <;> cases hs
    exact .splice ‹_›
  | receive x found =>
    dsimp only [step] at hs
    split at hs
    · cases hs
    · split at hs <;> cases hs
      · exact .receiveUnknown ‹_›
      · exact .receive ‹_›
  | keypairGet c ok =>
    dsimp only [step] at hs
    split at hs
    · rcases ok <;> cases hs
      · exact .keypairGone ‹_›
      · exact .keypairGet ‹_›
    · cases hs
  | checkDead c =>
    dsimp only [step] at hs
    split at hs <;> cases hs
    exact .checkDead ‹_›
  | reserve c =>
    dsimp only [step] at hs
    split at hs
    · split at hs <;> cases hs
      · exact .noSpace ‹_›
      · exact .reserve ‹_›
    · cases hs
  | exchange c =>
    dsimp only [step] at hs
    split at hs <;> cases hs
    exact .exchange ‹_›
  | link c =>
    dsimp only [step] at hs
    split at hs <;> cases hs
    exact .link ‹_›
  | produce c =>
    dsimp only [step] at hs
    split at hs
    · split at hs <;> cases hs
      · exact .produce ‹_› ‹_›
      · exact .ringFull ‹_›
    · cases hs
  | queueWork c cpu =>
    dsimp only [step] at hs
    split at hs <;> cases hs
    exact .queueWork ‹_›
  | callHandoff c =>
    dsimp only [step] at hs
    split at hs <;> cases hs
    exact .callHandoff ‹_›
  | callCleanup c =>
    dsimp only [step] at hs
    split at hs <;> cases hs
    case h_1 l hc =>
      obtain ⟨_, _, _, heq⟩ := s.cleanupStep_eq l
      rw [heq]
      exact .callCleanup hc heq
  | startWorker d cpu =>
    dsimp only [step] at hs
    split at hs <;> cases hs
    exact .startWorker ‹_›
  | consume d cpu clears =>
    dsimp only [step] at hs
    split at hs
    · split at hs <;> cases hs
      · exact .consume ‹_› ‹_›
      · exact .ringEmpty ‹_› ‹_›
    · cases hs
  | crypted d cpu ok =>
    dsimp only [step] at hs
    split at hs <;> cases hs
    exact .crypted ‹_›
  | workerHandoff d cpu =>
    dsimp only [step] at hs
    split at hs <;> cases hs
    exact .workerHandoff ‹_›
  | finishWorker d cpu =>
    dsimp only [step] at hs
    split at hs <;> cases hs
    exact .finishWorker ‹_› ‹_›
  | startTx p =>
    dsimp only [step] at hs
    split at hs <;> cases hs
    exact .startTx ‹_›
  | startPoll p =>
    dsimp only [step] at hs
    split at hs
    · split at hs <;> cases hs
      case h_1 hidle h =>
      rw [Bool.and_eq_true, Bool.not_eq_true'] at h
      exact .startPoll hidle h.1 h.2
    · cases hs
  | peek d p =>
    dsimp only [step] at hs
    split at hs
    · split at hs <;> cases hs
      exact .peek ‹_› ‹_› ‹_›
    · cases hs
  | pop d p fate =>
    dsimp only [step] at hs
    split at hs
    · obtain ⟨h, ⟨⟩⟩ := Option.ite_none_right_eq_some.mp hs
      exact .pop ‹_› ‹_› h.2
    · cases hs
  | consumerCleanup d p =>
    dsimp only [step] at hs
    split at hs <;> cases hs
    case h_1 l n hp =>
      obtain ⟨_, _, _, heq⟩ := s.cleanupStep_eq l
      rw [heq]
      exact .consumerCleanup hp heq
  | stop d p =>
    dsimp only [step] at hs
    split at hs
    · split at hs <;> cases hs
      case h_1 hp h =>
      rw [Bool.and_eq_true] at h
      exact .stop hp h.2
    · cases hs
  | finishTx p =>
    dsimp only [step] at hs
    split at hs <;> cases hs
    exact .finishTx ‹_› ‹_›
  | complete p =>
    dsimp only [step] at hs
    split at hs <;> cases hs
    exact .complete ‹_›
  | spend p =>
    dsimp only [step] at hs
    split at hs
    · split at hs
      · cases hs
      · split at hs <;> cases hs
        · exact .spendDisabled ‹_› (Bool.eq_false_iff.mpr ‹_›) ‹_›
        · exact .spend ‹_› (Bool.eq_false_iff.mpr ‹_›)
    · cases hs

end PacketPipeline
end WireguardAes
