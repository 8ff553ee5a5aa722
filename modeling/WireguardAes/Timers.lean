import WireguardAes.DataPath
import WireguardAes.PeerRemoval
import WireguardAes.PacketPipeline

/-!
# The timers of a peer (`timers.c`, `send.c`)

The five timers and the works of a peer: the handlers of the timers, the hooks that the send path
calls, and the send path itself, from `wg_packet_send_keepalive` to `wg_packet_create_data_done`. A
step is the expiry of a timer with its handler, an execution of a worker, or the encryption of one
bundle by a worker of the device, on whichever processor. It comes with a reading of the clock and
with what is decided elsewhere (`Chance`). Receiving, `wg_xmit` and the configuration are not among
the steps: what they leave behind is the state from which a run starts.
-/

namespace WireguardAes

structure PeerClock where
  jiffies : Nat
  /-- `ktime_get_coarse_boottime_ns()` -/
  boottime : U64
  deriving DecidableEq

/-- An outgoing packet, with the `mtu` of its `PACKET_CB`. -/
structure OutSkb where
  id : Nat
  len : U32
  mtu : U32
  deriving DecidableEq

/-- The packet after `encrypt_packet`: the padding, the header and the tag are added. -/
def OutSkb.encrypted (skb : OutSkb) : OutSkb :=
  { skb with len := skb.len + calculateSkbPadding skb.len skb.mtu + BitVec.ofNat 32 (messageDataLen 0) }

/-- What the send path reads of a keypair. -/
structure SendingKeypair where
  isValid : Bool
  birthdate : U64
  sendingCounter : U64
  iAmTheInitiator : Bool
  deriving DecidableEq

structure TxBundle where
  packets : List OutSkb
  state : PacketPipeline.PacketState
  deriving DecidableEq

structure TimerState where
  now : PeerClock
  netifRunning : Bool
  isDead : Bool
  mtu : U32
  persistentKeepaliveInterval : UInt16
  /-- The `expires` of a timer that is pending. -/
  timer : PeerTimer → Option Nat
  timerHandshakeAttempts : Nat
  timerNeedAnotherKeepalive : Bool
  lastSentHandshake : U64
  currentKeypair : Option SendingKeypair
  stagedPacketQueue : List OutSkb
  txQueue : List TxBundle
  work : PeerWork → Bool
  transmitPacketWork : Bool
  /-- The handshake initiations handed to `wg_socket_send_buffer_to_peer`. -/
  initiations : Nat

/-- How `wg_queue_enqueue_per_device_and_peer` ends. -/
inductive Enqueued where
  | done
  /-- `-ENOSPC`: the queue of the peer is full. -/
  | noSpace
  /-- `-EPIPE`: the ring of the device is full. -/
  | brokenPipe
  deriving DecidableEq

/-- What is not decided by the state of the peer. -/
structure Chance where
  /-- `prandom_u32()` -/
  random : U32
  /-- The packet of `alloc_skb`. -/
  allocSkb : Option Nat
  enqueued : Enqueued
  /-- The value of `wg_noise_handshake_create_initiation`. -/
  created : Bool
  /-- `encrypt_packet` succeeds for all packets of the bundle. -/
  encrypted : Bool
  /-- `wg_socket_send_skb_to_peer` returns 0 for the packet. -/
  sent : Nat → Bool

def prandomU32Max (random : U32) (epRo : Nat) : Nat := random.toNat * epRo / 2 ^ 32

namespace TimerState

def setTimer (s : TimerState) (k : PeerTimer) (expires : Option Nat) : TimerState :=
  { s with timer := Function.update s.timer k expires }

def delTimer (s : TimerState) (k : PeerTimer) : TimerState := s.setTimer k none

def timerPending (s : TimerState) (k : PeerTimer) : Bool := (s.timer k).isSome

def modPeerTimer (s : TimerState) (k : PeerTimer) (expires : Nat) : TimerState :=
  if s.netifRunning && !s.isDead then s.setTimer k (some expires) else s

def setWork (s : TimerState) (w : PeerWork) (queued : Bool) : TimerState :=
  { s with work := Function.update s.work w queued }

def queueWork (s : TimerState) (w : PeerWork) : TimerState := s.setWork w true

/-! ### The hooks of the send path -/

section
variable (hz : Nat) (c : Chance) (s : TimerState)

def wgTimersDataSent : TimerState :=
  if s.timerPending .newHandshake then s
  else s.modPeerTimer .newHandshake (s.now.jiffies + (keepaliveTimeout + rekeyTimeout) * hz +
    prandomU32Max c.random (rekeyTimeoutJitterMaxJiffies hz))

def wgTimersAnyAuthenticatedPacketSent : TimerState := s.delTimer .sendKeepalive

def wgTimersHandshakeInitiated : TimerState :=
  s.modPeerTimer .retransmitHandshake (s.now.jiffies + rekeyTimeout * hz +
    prandomU32Max c.random (rekeyTimeoutJitterMaxJiffies hz))

def wgTimersAnyAuthenticatedPacketTraversal : TimerState :=
  if s.persistentKeepaliveInterval ≠ 0 then
    s.modPeerTimer .persistentKeepalive (s.now.jiffies + s.persistentKeepaliveInterval.toNat * hz)
  else s

/-! ### Handshake initiations -/

def touchLastSentHandshake : TimerState := { s with lastSentHandshake := s.now.boottime }

/-- `wg_socket_send_buffer_to_peer` with the initiation. -/
def wgSocketSendBufferToPeer : TimerState := { s with initiations := s.initiations + 1 }

def wgPacketSendHandshakeInitiation : TimerState :=
  if !birthdateHasExpired s.lastSentHandshake rekeyTimeout s.now.boottime then s
  else if c.created then
    let s := s.touchLastSentHandshake.wgTimersAnyAuthenticatedPacketTraversal hz
    let s := s.wgTimersAnyAuthenticatedPacketSent.touchLastSentHandshake.wgSocketSendBufferToPeer
    s.wgTimersHandshakeInitiated hz c
  else s.touchLastSentHandshake

def restartAttempts : TimerState := { s with timerHandshakeAttempts := 0 }

def wgPacketSendQueuedHandshakeInitiation (isRetry : Bool) : TimerState :=
  let s := if isRetry then s else s.restartAttempts
  if !birthdateHasExpired s.lastSentHandshake rekeyTimeout s.now.boottime || s.isDead then s
  else s.queueWork .transmitHandshake

def keepKeyFresh : TimerState :=
  match s.currentKeypair with
  | some keypair =>
    if keypair.isValid && (decide (rekeyAfterMessages < keypair.sendingCounter.toNat) ||
        (keypair.iAmTheInitiator && birthdateHasExpired keypair.birthdate rekeyAfterTime s.now.boottime)) then
      s.wgPacketSendQueuedHandshakeInitiation false
    else s
  | none => s

/-! ### Data packets -/

def wgPacketCreateDataDone (packets : List OutSkb) : TimerState :=
  let s := (s.wgTimersAnyAuthenticatedPacketTraversal hz).wgTimersAnyAuthenticatedPacketSent
  let dataSent := packets.any fun skb => c.sent skb.id && skb.len.toNat != messageDataLen 0
  let s := if dataSent then s.wgTimersDataSent hz c else s
  s.keepKeyFresh

def setTxQueue (queue : List TxBundle) : TimerState := { s with txQueue := queue }

/-- The loop of `wg_packet_tx_worker`, before it looks at the first of `queue`. -/
def txLoop : List TxBundle → TimerState → TimerState
  | [], s => s
  | first :: rest, s =>
    match first.state with
    | .uncrypted => s
    | .crypted => txLoop rest ((s.setTxQueue rest).wgPacketCreateDataDone hz c first.packets)
    | .dead => txLoop rest (s.setTxQueue rest)

def wgPacketTxWorker : TimerState := txLoop hz c s.txQueue s

def setTransmitPacketWork (queued : Bool) : TimerState := { s with transmitPacketWork := queued }

/-- `wg_packet_encrypt_worker` with the bundle in place `i` of the queue of the peer. -/
def wgPacketEncryptWorker (i : Nat) : Option TimerState :=
  match s.txQueue[i]? with
  | some ⟨packets, .uncrypted⟩ =>
    let bundle := if c.encrypted then ⟨packets.map OutSkb.encrypted, .crypted⟩ else ⟨packets, .dead⟩
    some ((s.setTxQueue (s.txQueue.set i bundle)).setTransmitPacketWork true)
  | _ => none

def wgPacketCreateData (packets : List OutSkb) : TimerState :=
  if s.isDead then s
  else match c.enqueued with
    | .done => s.setTxQueue (s.txQueue ++ [⟨packets, .uncrypted⟩])
    | .noSpace => s
    | .brokenPipe => (s.setTxQueue (s.txQueue ++ [⟨packets, .dead⟩])).setTransmitPacketWork true

def wgPacketPurgeStagedPackets : TimerState := { s with stagedPacketQueue := [] }

def stage (packets : List OutSkb) : TimerState := { s with stagedPacketQueue := packets }

def setKeypair (keypair : Option SendingKeypair) : TimerState := { s with currentKeypair := keypair }

/-- The label `out_nokey` of `wg_packet_send_staged_packets`. -/
def outNokey (packets : List OutSkb) : TimerState :=
  (s.stage (packets ++ s.stagedPacketQueue)).wgPacketSendQueuedHandshakeInitiation false

def outInvalid (keypair : SendingKeypair) (packets : List OutSkb) : TimerState :=
  (s.setKeypair (some { keypair with isValid := false })).outNokey packets

/-- The nonces for the packets: the counter afterwards, and whether all are below the limit. -/
def assignNonces : List OutSkb → U64 → U64 × Bool
  | [], counter => (counter, true)
  | _ :: rest, counter =>
    if rejectAfterMessages ≤ counter.toNat then (counter + 1, false) else assignNonces rest (counter + 1)

/-- `wg_packet_send_staged_packets` with the packets that it has stolen from the queue. -/
def sendPackets (packets : List OutSkb) : TimerState :=
  match s.currentKeypair with
  | none => s.outNokey packets
  | some keypair =>
    if !keypair.isValid then s.outNokey packets
    else if birthdateHasExpired keypair.birthdate rejectAfterTime s.now.boottime then s.outInvalid keypair packets
    else
      let (counter, fits) := assignNonces packets keypair.sendingCounter
      let keypair := { keypair with sendingCounter := counter }
      if fits then (s.setKeypair (some keypair)).wgPacketCreateData c packets
      else s.outInvalid keypair packets

def wgPacketSendStagedPackets : TimerState :=
  if s.stagedPacketQueue.isEmpty then s else (s.stage []).sendPackets c s.stagedPacketQueue

def wgPacketSendKeepalive : TimerState :=
  if s.stagedPacketQueue.isEmpty then
    match c.allocSkb with
    | none => s
    | some id => (s.stage [⟨id, 0, s.mtu⟩]).wgPacketSendStagedPackets c
  else s.wgPacketSendStagedPackets c

/-! ### The handlers -/

def anotherAttempt : TimerState := { s with timerHandshakeAttempts := s.timerHandshakeAttempts + 1 }

def wgExpiredRetransmitHandshake : TimerState :=
  if maxTimerHandshakes < s.timerHandshakeAttempts then
    let s := (s.delTimer .sendKeepalive).wgPacketPurgeStagedPackets
    if s.timerPending .zeroKeyMaterial then s
    else s.modPeerTimer .zeroKeyMaterial (s.now.jiffies + rejectAfterTime * 3 * hz)
  else s.anotherAttempt.wgPacketSendQueuedHandshakeInitiation true

def keepaliveGranted : TimerState := { s with timerNeedAnotherKeepalive := false }

def wgExpiredSendKeepalive : TimerState :=
  let s := s.wgPacketSendKeepalive c
  if s.timerNeedAnotherKeepalive then
    s.keepaliveGranted.modPeerTimer .sendKeepalive (s.now.jiffies + keepaliveTimeout * hz)
  else s

def wgExpiredNewHandshake : TimerState := s.wgPacketSendQueuedHandshakeInitiation false

def wgExpiredZeroKeyMaterial : TimerState := if s.isDead then s else s.queueWork .clearPeer

/-- `wg_noise_keypairs_clear`, after `wg_noise_handshake_clear`. -/
def wgQueuedExpiredZeroKeyMaterial : TimerState := s.setKeypair none

def wgExpiredSendPersistentKeepalive : TimerState :=
  if s.persistentKeepaliveInterval ≠ 0 then s.wgPacketSendKeepalive c else s

def expired : PeerTimer → TimerState
  | .retransmitHandshake => s.wgExpiredRetransmitHandshake hz
  | .sendKeepalive => s.wgExpiredSendKeepalive hz c
  | .newHandshake => s.wgExpiredNewHandshake
  | .zeroKeyMaterial => s.wgExpiredZeroKeyMaterial
  | .persistentKeepalive => s.wgExpiredSendPersistentKeepalive c

def worker : PeerWork → TimerState
  | .transmitHandshake => s.wgPacketSendHandshakeInitiation hz c
  | .clearPeer => s.wgQueuedExpiredZeroKeyMaterial

end

/-! ### Steps -/

def setNow (s : TimerState) (now : PeerClock) : TimerState := { s with now := now }

end TimerState

inductive PeerTask where
  | expire (k : PeerTimer)
  | work (w : PeerWork)
  | transmitPacket
  /-- The bundle in this place of the queue is encrypted. -/
  | encrypt (i : Nat)
  deriving DecidableEq

structure Execution where
  task : PeerTask
  now : PeerClock
  chance : Chance

namespace TimerState

/-- A timer is no longer pending when its handler runs, nor a work queued when its worker does. -/
def run (hz : Nat) (c : Chance) (s : TimerState) : PeerTask → Option TimerState
  | .expire k =>
    match s.timer k with
    | some expires => if expires ≤ s.now.jiffies then some ((s.delTimer k).expired hz c k) else none
    | none => none
  | .work w => if s.work w then some ((s.setWork w false).worker hz c w) else none
  | .transmitPacket => if s.transmitPacketWork then some
    ((s.setTransmitPacketWork false).wgPacketTxWorker hz c) else none
  | .encrypt i => s.wgPacketEncryptWorker c i

/-- The clock does not go backwards. -/
def step (hz : Nat) (s : TimerState) (e : Execution) : Option TimerState :=
  if s.now.jiffies ≤ e.now.jiffies ∧ s.now.boottime ≤ e.now.boottime then (s.setNow e.now).run hz e.chance e.task
  else none

end TimerState
end WireguardAes
