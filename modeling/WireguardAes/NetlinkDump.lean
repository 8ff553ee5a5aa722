import WireguardAes.NetlinkChanges
import WireguardAes.Lib.ListCursor

/-!
# Dumping a device (`netlink.c`)

`wg_get_device_dump` fills one message after the other with what is configured. Between two calls it
remembers the last peer it has finished, the node of the next allowed IP if it has stopped inside a
peer, and the `seq` at that time. Attributes take as much room as `nla_put` takes, on a machine that
puts a `u64` anywhere. `none` is a walk from a peer or a node that is not on the list any more.
-/

namespace WireguardAes

open ListCursor

def emsgsize : Int := -90

/-! ### Messages -/

def nlaTotalSize (len : Nat) : Nat := (4 + len + 3) / 4 * 4

/-- The netlink and the generic netlink header. -/
def genlmsgSize : Nat := 20

/-- The room that is left behind an attribute; `none` is `-EMSGSIZE`. -/
def nlaPut (room len : Nat) : Option Nat := if nlaTotalSize len ≤ room then some (room - nlaTotalSize len) else none

def nlaPutAll (room : Nat) (lens : List Nat) : Option Nat := lens.foldlM nlaPut room

/-- An attribute without data. -/
def nlaNestStart (room : Nat) : Option Nat := nlaPut room 0

/-- What the traffic has made of a peer. -/
structure PeerStats where
  walltimeLastHandshake : U64 × U64
  txBytes : U64
  rxBytes : U64

structure FullAttrs where
  presharedKey : Bytes
  lastHandshakeTime : U64 × U64
  persistentKeepaliveInterval : UInt16
  txBytes : U64
  rxBytes : U64
  protocolVersion : U32
  endpoint : Option Bytes

structure PeerNest where
  publicKey : Bytes
  full : Option FullAttrs
  allowedips : Option (List (Family × Bytes × Nat))

structure DeviceInfo where
  listenPort : UInt16
  fwmark : U32
  ifindex : U32
  ifname : Bytes
  /-- The private and the public key. -/
  keys : Option (Bytes × Bytes)

structure DumpMsg where
  device : Option DeviceInfo
  /-- `none` if the nest was cancelled. -/
  peers : Option (List PeerNest)

/-- A call of `wg_get_device_dump`: the room in the buffer, the name of the device and the counters
of its peers. -/
structure DumpCall where
  capacity : Nat
  ifindex : U32
  ifname : Bytes
  stats : Nat → PeerStats

structure DumpCtx where
  nextPeer : Option Nat
  allowedipsSeq : U64
  nextAllowedip : Option Nat

def DumpCtx.start : DumpCtx := ⟨none, 0, none⟩

def ConfigPeer.fullAttrs (peer : ConfigPeer) (stats : PeerStats) : FullAttrs :=
  ⟨peer.handshake.presharedKey, stats.walltimeLastHandshake, peer.persistentKeepaliveInterval,
    stats.txBytes, stats.rxBytes, 1,
    peer.endpoint⟩

/-- The lengths of these attributes. -/
def ConfigPeer.fullLens (peer : ConfigPeer) : List Nat :=
  [noiseSymmetricKeyLen, 16, 2, 8, 8, 4] ++ (peer.endpoint.map List.length).toList

/-- `get_allowedips` -/
def getAllowedips (room : Nat) (ip : Bytes) : Option Nat := (nlaNestStart room).bind (nlaPutAll · [1, 2, ip.length])

namespace ConfigDevice

variable (dev : ConfigDevice)

def deviceInfo (call : DumpCall) : DeviceInfo :=
  ⟨dev.incomingPort, dev.fwmark, call.ifindex, call.ifname,
    if dev.identity.hasIdentity then some (dev.identity.staticPrivate, dev.identity.staticPublic) else none⟩

def deviceLens (call : DumpCall) : List Nat :=
  [2, 4, 4, call.ifname.length + 1] ++ if dev.identity.hasIdentity then [noisePublicKeyLen, noisePublicKeyLen] else []

/-- What a node is dumped as. -/
def entry (node : Nat) : Family × Bytes × Nat := (dev.allowedips.mem node).wgAllowedipsReadNode

/-- The loop over the nodes: what was put, the node that did not fit, and the room that is left. -/
def putAllowedips : List Nat → Nat → List (Family × Bytes × Nat) × Option Nat × Nat
  | [], room => ([], none, room)
  | node :: nodes, room =>
    match getAllowedips room (dev.entry node).2.1 with
    | none => ([], some node, room)
    | some room =>
      let out := putAllowedips nodes room
      (dev.entry node :: out.1, out.2)

/-- What `get_peer` returns and leaves behind. -/
structure PeerDump where
  ret : Int
  ctx : DumpCtx
  /-- `none` if the nest was cancelled, or not even started. -/
  nest : Option PeerNest
  room : Nat

/-- `get_peer` once it has its first node. -/
def getPeerAllowedips (ctx : DumpCtx) (p : Nat) (full : Option FullAttrs) (start room : Nat) (node : Option Nat) :
    Option PeerDump :=
  let done (ips : Option (List (Family × Bytes × Nat))) (room : Nat) : PeerDump :=
    ⟨0, ⟨ctx.nextPeer, 0, none⟩, some ⟨dev.key p, full, ips⟩, room⟩
  match node with
  | none => some (done none room)
  | some node =>
    if ctx.allowedipsSeq ≠ 0 ∧ ctx.allowedipsSeq ≠ dev.allowedips.seq then some (done none room)
    else
      let ctx := { ctx with allowedipsSeq := dev.allowedips.seq }
      match nlaNestStart room with
      | none => some ⟨emsgsize, ctx, none, start⟩
      | some room =>
        if node ∈ dev.allowedips.list p then
          match dev.putAllowedips (startingAt node (dev.allowedips.list p)) room with
          | (ips, none, room) => some (done (some ips) room)
          | (ips, some node, room) =>
            some ⟨emsgsize, { ctx with nextAllowedip := some node }, some ⟨dev.key p, full, some ips⟩, room⟩
        else none

def getPeer (stats : Nat → PeerStats) (ctx : DumpCtx) (p room : Nat) : Option PeerDump :=
  match (nlaNestStart room).bind (nlaPut · noisePublicKeyLen) with
  | none => some ⟨emsgsize, ctx, none, room⟩
  | some room₁ =>
    match ctx.nextAllowedip with
    | none =>
      match nlaPutAll room₁ (dev.peers p).fullLens with
      | none => some ⟨emsgsize, ctx, none, room⟩
      | some room₂ =>
        dev.getPeerAllowedips ctx p (some ((dev.peers p).fullAttrs (stats p))) room room₂ (dev.allowedips.list p).head?
    | some node => dev.getPeerAllowedips ctx p none room room₁ (some node)

structure PeersDump where
  nests : List PeerNest
  done : Bool
  ctx : DumpCtx
  /-- `next_peer_cursor` -/
  cursor : Option Nat
  room : Nat

/-- The loop over the peers. -/
def dumpPeers (stats : Nat → PeerStats) : DumpCtx → Option Nat → List Nat → Nat → Option PeersDump
  | ctx, cursor, [], room => some ⟨[], true, ctx, cursor, room⟩
  | ctx, cursor, p :: ps, room =>
    match dev.getPeer stats ctx p room with
    | none => none
    | some out =>
      if out.ret ≠ 0 then some ⟨out.nest.toList, false, out.ctx, cursor, out.room⟩
      else (dumpPeers stats out.ctx (some p) ps out.room).map fun rest =>
        { rest with nests := out.nest.toList ++ rest.nests }

structure DumpResult where
  ret : Int
  ctx : DumpCtx
  /-- `none` if the message was cancelled. -/
  msg : Option DumpMsg

def wgGetDeviceDump (call : DumpCall) (ctx : DumpCtx) : Option DumpResult :=
  if call.capacity < genlmsgSize then some ⟨emsgsize, ctx, none⟩
  else
    let lens := if ctx.nextPeer.isNone then dev.deviceLens call else []
    match (nlaPutAll (call.capacity - genlmsgSize) lens).bind nlaNestStart with
    | none => some ⟨emsgsize, ctx, none⟩
    | some room =>
      let info := if ctx.nextPeer.isNone then some (dev.deviceInfo call) else none
      if dev.peerList = [] ∨ ctx.nextPeer.any (fun q => (dev.peers q).isDead) then
        some ⟨0, { ctx with nextPeer := none }, some ⟨info, none⟩⟩
      else if ctx.nextPeer.any (· ∉ dev.peerList) then none
      else
        (dev.dumpPeers call.stats ctx ctx.nextPeer (resume ctx.nextPeer dev.peerList) room).map fun out =>
          if out.done then ⟨0, { out.ctx with nextPeer := none }, some ⟨info, some out.nests⟩⟩
          else ⟨(call.capacity - out.room : Nat), { out.ctx with nextPeer := out.cursor }, some ⟨info, some out.nests⟩⟩

/-! ### Room -/

/-- The attributes that `put` writes need `size` bytes. -/
def Takes (put : Nat → Option Nat) (size : Nat) : Prop :=
  ∀ room, put room = if size ≤ room then some (room - size) else none

theorem takes_nlaPut (len : Nat) : Takes (nlaPut · len) (nlaTotalSize len) := fun _ => rfl

theorem Takes.bind {f g : Nat → Option Nat} {m n : Nat} (hf : Takes f m) (hg : Takes g n) :
    Takes (fun room => (f room).bind g) (m + n) := by
  intro room
  dsimp only
  rw [hf room]
  by_cases hm : m ≤ room
  · rw [if_pos hm, Option.bind_some, hg]
    by_cases hn : m + n ≤ room
    · rw [if_pos (by omega), if_pos hn, Nat.sub_sub]
    · rw [if_neg (by omega), if_neg hn]
  · rw [if_neg hm, if_neg (by omega)]
    rfl

def nlaTotalSizes (lens : List Nat) : Nat := (lens.map nlaTotalSize).sum

theorem takes_nlaPutAll (lens : List Nat) : Takes (nlaPutAll · lens) (nlaTotalSizes lens) := by
  induction lens with
  | nil =>
    intro room
    exact (if_pos (Nat.zero_le room)).symm
  | cons len lens ih => exact (takes_nlaPut len).bind ih

theorem Takes.lt_of_none {put : Nat → Option Nat} {size room : Nat} (h : Takes put size) (hput : put room = none) :
    room < size := by
  rw [h room] at hput
  split at hput
  · cases hput
  · exact Nat.lt_of_not_le ‹_›

theorem Takes.room_of_some {put : Nat → Option Nat} {size room room' : Nat} (h : Takes put size)
    (hput : put room = some room') :
    room' + size = room := by
  rw [h room] at hput
  obtain ⟨hcond, ⟨⟩⟩ := Option.ite_none_right_eq_some.mp hput
  exact Nat.sub_add_cancel ‹_›

/-! ### One peer -/

/-- The room that the full attributes of a peer take, and the beginning of its allowed IPs. -/
def peerSize (p : Nat) : Nat :=
  nlaTotalSize 0 + nlaTotalSize noisePublicKeyLen + nlaTotalSizes (dev.peers p).fullLens + nlaTotalSize 0

def allowedipSize (node : Nat) : Nat := nlaTotalSize 0 + nlaTotalSizes [1, 2, (dev.entry node).2.1.length]

variable {dev}

/-- The loop stops at a node only if there is no room for it. -/
theorem putAllowedips_spec (dev : ConfigDevice) (nodes : List Nat) (room : Nat) : ∃ room' ≤ room,
    dev.putAllowedips nodes room = (nodes.map dev.entry, none, room') ∨
    ∃ done node rest, nodes = done ++ node :: rest ∧ (done = [] → room < dev.allowedipSize node) ∧
      dev.putAllowedips nodes room = (done.map dev.entry, some node, room') := by
  induction nodes generalizing room with
  | nil => exact ⟨room, Nat.le_refl _, .inl rfl⟩
  | cons node nodes ih =>
    have htakes := (takes_nlaPut 0).bind (takes_nlaPutAll [1, 2, (dev.entry node).2.1.length])
    unfold putAllowedips
    split
    case h_1 hput =>
      exact ⟨room, Nat.le_refl _, .inr ⟨[], node, nodes, rfl, fun _ => htakes.lt_of_none hput, rfl⟩⟩
    case h_2 room₁ hput =>
      have hroom₁ := htakes.room_of_some hput
      obtain ⟨room', hle, hout⟩ := ih room₁
      refine ⟨room', by omega, ?_⟩
      rcases hout with hout | ⟨done, last, rest, rfl, -, hout⟩
      · refine .inl ?_
        rw [hout]
        rfl
      · refine .inr ⟨node :: done, last, rest, rfl, nofun, ?_⟩
        rw [hout]
        rfl

/-- The nodes that `get_peer` has in front of it. -/
def nodesLeft (dev : ConfigDevice) (ctx : DumpCtx) (p : Nat) : List Nat :=
  match ctx.nextAllowedip with
  | none => dev.allowedips.list p
  | some node => startingAt node (dev.allowedips.list p)

def fullLeft (dev : ConfigDevice) (stats : Nat → PeerStats) (ctx : DumpCtx) (p : Nat) : Option FullAttrs :=
  if ctx.nextAllowedip.isNone then some ((dev.peers p).fullAttrs (stats p)) else none

/-- What `get_peer` can do. -/
inductive PeerOutcome (dev : ConfigDevice) (stats : Nat → PeerStats) (ctx : DumpCtx) (p room : Nat) : PeerDump → Prop
  | noRoom {seq : U64} (hroom : room < dev.peerSize p)
    (hseq : seq = ctx.allowedipsSeq ∨ (ctx.allowedipsSeq = 0 ∨ ctx.allowedipsSeq =
      dev.allowedips.seq) ∧ seq = dev.allowedips.seq) :
    PeerOutcome dev stats ctx p room ⟨emsgsize, { ctx with allowedipsSeq := seq }, none, room⟩
  | skipped {room' : Nat} (hle : room' ≤ room) (hseq : ctx.allowedipsSeq ≠ 0 ∧ ctx.allowedipsSeq ≠ dev.allowedips.seq) :
    PeerOutcome dev stats ctx p room
      ⟨0, ⟨ctx.nextPeer, 0, none⟩, some ⟨dev.key p, dev.fullLeft stats ctx p, none⟩, room'⟩
  | complete {ips : Option (List (Family × Bytes × Nat))} {room' : Nat} (hle : room' ≤ room)
    (hips : ips.getD [] = (dev.nodesLeft ctx p).map dev.entry) :
    PeerOutcome dev stats ctx p room ⟨0, ⟨ctx.nextPeer, 0, none⟩,
      some ⟨dev.key p, dev.fullLeft stats ctx p, ips⟩, room'⟩
  | stopped {done : List Nat} {node : Nat} {rest : List Nat} {room' : Nat} (hle : room' ≤ room)
    (hnodes : dev.nodesLeft ctx p = done ++ node :: rest)
    (hroom : done = [] → room < dev.peerSize p + dev.allowedipSize node) :
    PeerOutcome dev stats ctx p room ⟨emsgsize, ⟨ctx.nextPeer, dev.allowedips.seq, some node⟩,
      some ⟨dev.key p, dev.fullLeft stats ctx p, some (done.map dev.entry)⟩, room'⟩

variable {stats : Nat → PeerStats} {ctx : DumpCtx} {p room : Nat}

theorem getPeerAllowedips_spec {node room₁ : Nat}
    (hmem : ctx.allowedipsSeq = 0 ∨ ctx.allowedipsSeq = dev.allowedips.seq → node ∈ dev.allowedips.list p)
    (hstart : startingAt node (dev.allowedips.list p) = dev.nodesLeft ctx p)
    (hle : room₁ ≤ room) (hroom : room ≤ room₁ + (dev.peerSize p - nlaTotalSize 0)) :
    ∃ out, dev.getPeerAllowedips ctx p (dev.fullLeft stats ctx p) room room₁ (some node) = some out ∧
      PeerOutcome dev stats ctx p room out := by
  unfold getPeerAllowedips
  dsimp only
  split
  · exact ⟨_, rfl, .skipped hle ‹_›⟩
  case isFalse hseq =>
  have hseq : ctx.allowedipsSeq = 0 ∨ ctx.allowedipsSeq = dev.allowedips.seq := by
    by_cases h0 : ctx.allowedipsSeq = 0
    · exact .inl h0
    · exact .inr (Classical.not_not.mp fun hne => hseq ⟨h0, hne⟩)
  have hsize : nlaTotalSize 0 ≤ dev.peerSize p := Nat.le_add_left ..
  split
  case h_1 hnest =>
    have hlt := (takes_nlaPut 0).lt_of_none hnest
    exact ⟨_, rfl, .noRoom (by omega) (.inr ⟨hseq, rfl⟩)⟩
  case h_2 room₂ hnest =>
  have hroom₂ := (takes_nlaPut 0).room_of_some hnest
  rw [if_pos (hmem hseq), hstart]
  obtain ⟨room', hle', hput⟩ := dev.putAllowedips_spec (dev.nodesLeft ctx p) room₂
  rcases hput with hout | ⟨done, last, rest, hsplit, hlt, hout⟩
  · rw [hout]
    exact ⟨_, rfl, .complete (by omega) rfl⟩
  · rw [hout]
    refine ⟨_, rfl, .stopped (by omega) hsplit fun hdone => ?_⟩
    have := hlt hdone
    omega

/-- `get_peer` does not touch a node that is off the list, if the node that was saved is on it
unless `seq` has changed. -/
theorem getPeer_spec (stats : Nat → PeerStats) (room : Nat)
    (hsaved : ∀ node, ctx.nextAllowedip = some node → ctx.allowedipsSeq = 0 ∨ ctx.allowedipsSeq = dev.allowedips.seq →
      node ∈ dev.allowedips.list p) :
    ∃ out, dev.getPeer stats ctx p room = some out ∧ PeerOutcome dev stats ctx p room out := by
  have hsize : dev.peerSize p =
    nlaTotalSize 0 + nlaTotalSize noisePublicKeyLen + nlaTotalSizes (dev.peers p).fullLens + nlaTotalSize 0 := rfl
  have hkey := (takes_nlaPut 0).bind (takes_nlaPut noisePublicKeyLen)
  unfold getPeer
  split
  case h_1 hput =>
    have hlt := hkey.lt_of_none hput
    exact ⟨_, rfl, .noRoom (by omega) (.inl rfl)⟩
  case h_2 room₁ hput =>
  have hroom₁ := hkey.room_of_some hput
  split
  case h_1 hnext =>
    split
    case h_1 hfull =>
      have hlt := (takes_nlaPutAll _).lt_of_none hfull
      exact ⟨_, rfl, .noRoom (by omega) (.inl rfl)⟩
    case h_2 room₂ hfull =>
    have hroom₂ := (takes_nlaPutAll _).room_of_some hfull
    have hleft : some ((dev.peers p).fullAttrs (stats p)) = dev.fullLeft stats ctx p := by
      rw [fullLeft, hnext]
      rfl
    have hnodes : dev.nodesLeft ctx p = dev.allowedips.list p := by rw [nodesLeft, hnext]
    rw [hleft]
    rcases hlist : dev.allowedips.list p with - | ⟨node, rest⟩
    · refine ⟨_, rfl, .complete (by omega) ?_⟩
      rw [hnodes, hlist]
      rfl
    · refine getPeerAllowedips_spec (fun _ => ?_) ?_ (by omega) (by omega)
      · rw [hlist]
        exact List.mem_cons_self
      · rw [hnodes, hlist]
        exact if_pos rfl
  case h_2 node hnext =>
    have hleft : none = dev.fullLeft stats ctx p := by
      rw [fullLeft, hnext]
      rfl
    rw [hleft]
    refine getPeerAllowedips_spec (hsaved node hnext) ?_ (by omega) (by omega)
    rw [nodesLeft, hnext]

/-! ### Taking a dump up again -/

/-- What is known of the lists of a device, also in the middle of a request. -/
structure ListsOk (dev : ConfigDevice) : Prop where
  nodup : dev.peerList.Nodup
  created : ∀ p ∈ dev.peerList, p < dev.created
  alive : ∀ p ∈ dev.peerList, (dev.peers p).isDead = false
  sized : dev.allowedips.Sized

/-- The dump can be taken up: unless the last finished peer is dead, it is on the list; and unless
`seq` has changed, the saved node is on the list of the peer that comes next. -/
structure Resumes (dev : ConfigDevice) (ctx : DumpCtx) : Prop where
  cursor : ∀ q, ctx.nextPeer = some q → q < dev.created ∧ (q ∈ dev.peerList ∨ (dev.peers q).isDead = true)
  saved : ∀ node, ctx.nextAllowedip = some node → ctx.allowedipsSeq ≠ 0 ∧
    ctx.allowedipsSeq.toNat ≤ dev.allowedips.seq.toNat ∧
    (ctx.allowedipsSeq = dev.allowedips.seq → (∃ q, ctx.nextPeer = some q ∧ (dev.peers q).isDead = true) ∨
      ∃ p, Follows dev.peerList ctx.nextPeer p ∧ node ∈ dev.allowedips.list p)

/-- The saved node, if there is one, is on the list of the peer. -/
def SavedAt (dev : ConfigDevice) (ctx : DumpCtx) (p : Nat) : Prop :=
  ∀ node, ctx.nextAllowedip = some node → node ∈ dev.allowedips.list p ∧ ctx.allowedipsSeq = dev.allowedips.seq

/-- Where the loop over the peers stops, when those in `pre` are finished: at a peer whose node is
saved, or at once. -/
def Stops (dev : ConfigDevice) (ctx : DumpCtx) (pre rest : List Nat) (out : PeersDump) : Prop :=
  ∃ fin p ps, rest = fin ++ p :: ps ∧ out.cursor = (pre ++ fin).getLast? ∧
    (SavedAt dev out.ctx p ∨ fin = [] ∧ out.ctx.nextAllowedip = ctx.nextAllowedip ∧
      (out.ctx.allowedipsSeq = ctx.allowedipsSeq ∨
        (ctx.allowedipsSeq = 0 ∨ ctx.allowedipsSeq = dev.allowedips.seq) ∧ out.ctx.allowedipsSeq = dev.allowedips.seq))

theorem Stops.cons {pre ps : List Nat} {nextPeer : Option Nat} {out : PeersDump} {nests : List PeerNest}
    (h : Stops dev ⟨nextPeer, 0, none⟩ (pre ++ [p]) ps out) : Stops dev ctx pre (p :: ps)
    { out with nests := nests } := by
  obtain ⟨fin, q, qs, rfl, hcur, hsaved⟩ := h
  rw [List.append_assoc, List.singleton_append] at hcur
  refine ⟨p :: fin, q, qs, rfl, hcur, .inl ?_⟩
  rcases hsaved with hsaved | ⟨-, hnone, -⟩
  · exact hsaved
  · intro node hnode
    rw [show out.ctx.nextAllowedip = none from hnone] at hnode
    cases hnode

theorem mem_of_mem_nodesLeft {node : Nat} (h : node ∈ dev.nodesLeft ctx p) : node ∈ dev.allowedips.list p := by
  unfold nodesLeft at h
  split at h
  · exact h
  · exact mem_of_mem_startingAt h

theorem dumpPeers_stops (stats : Nat → PeerStats) (pre rest : List Nat) (room : Nat)
    (hsaved : ∀ node p ps, rest = p :: ps → ctx.nextAllowedip = some node →
      ctx.allowedipsSeq = 0 ∨ ctx.allowedipsSeq = dev.allowedips.seq → node ∈ dev.allowedips.list p) :
    ∃ out, dev.dumpPeers stats ctx pre.getLast? rest room = some out ∧
      (out.done = false → Stops dev ctx pre rest out) := by
  induction rest generalizing ctx pre room with
  | nil => exact ⟨_, rfl, nofun⟩
  | cons p ps ih =>
    obtain ⟨out, hout, hcases⟩ := getPeer_spec stats room fun node => hsaved node p ps rfl
    have hnext : ∀ room', ∃ rest, dev.dumpPeers stats ⟨ctx.nextPeer, 0, none⟩ (some p) ps room' = some rest ∧
        (rest.done = false → Stops dev ⟨ctx.nextPeer, 0, none⟩ (pre ++ [p]) ps rest) := by
      intro room'
      have hlast : (pre ++ [p]).getLast? = some p := List.getLast?_concat
      rw [← hlast]
      refine ih _ _ fun node _ _ _ hnone => ?_
      cases hnone
    have hzero : emsgsize ≠ 0 := by decide
    unfold dumpPeers
    rw [hout]
    rcases hcases with ⟨-, hseq⟩ | @⟨room', -, -⟩ | @⟨ips, room', -, -⟩ | @⟨fin, last, left, room', -, hnodes, -⟩
    · refine ⟨_, if_pos hzero, fun _ => ⟨[], p, ps, rfl, ?_, .inr ⟨rfl, rfl, hseq⟩⟩⟩
      rw [List.append_nil]
    · obtain ⟨rest, hrest, hstop⟩ := hnext room'
      dsimp only
      rw [if_neg fun h => h rfl, hrest]
      exact ⟨_, rfl, fun hdone => (hstop hdone).cons⟩
    · obtain ⟨rest, hrest, hstop⟩ := hnext room'
      dsimp only
      rw [if_neg fun h => h rfl, hrest]
      exact ⟨_, rfl, fun hdone => (hstop hdone).cons⟩
    · refine ⟨_, if_pos hzero, fun _ => ⟨[], p, ps, rfl, ?_, .inl ?_⟩⟩
      · rw [List.append_nil]
      · intro node hnode
        cases hnode
        have hin : last ∈ dev.nodesLeft ctx p := by
          rw [hnodes]
          exact List.mem_append_right _ List.mem_cons_self
        exact ⟨mem_of_mem_nodesLeft hin, rfl⟩

/-- A call comes to an end, and the dump can be taken up again. -/
theorem wgGetDeviceDump_resumes (hl : ListsOk dev) (hseq : dev.allowedips.seq ≠ 0)
    (h : Resumes dev ctx) (call : DumpCall) :
    ∃ res, dev.wgGetDeviceDump call ctx = some res ∧ (0 < res.ret → Resumes dev res.ctx) := by
  have hfail : ¬ 0 < emsgsize := by decide
  unfold wgGetDeviceDump
  split
  · exact ⟨_, rfl, fun hpos => absurd hpos hfail⟩
  dsimp only
  split
  · exact ⟨_, rfl, fun hpos => absurd hpos hfail⟩
  case h_2 room _ =>
  split
  · exact ⟨_, rfl, fun hpos => absurd hpos (Int.lt_irrefl 0)⟩
  case isFalse hgone =>
  rw [not_or] at hgone
  have hdead : ∀ q, ctx.nextPeer = some q → ¬ (dev.peers q).isDead = true := by
    intro q hq hd
    apply hgone.2
    rw [hq]
    exact hd
  have hmem : ∀ q, ctx.nextPeer = some q → q ∈ dev.peerList := by
    intro q hq
    exact (h.cursor q hq).2.resolve_right (hdead q hq)
  have hany : ctx.nextPeer.any (fun q => decide (q ∉ dev.peerList)) = false := by
    rcases hq : ctx.nextPeer with - | q
    · rfl
    · simpa using hmem q hq
  rw [hany, if_neg Bool.false_ne_true]
  obtain ⟨pre, rest, hsplit, hcur, hresume⟩ := exists_split hl.nodup hmem
  rw [hresume, ← hcur]
  have hsaved : ∀ node p ps, rest = p :: ps → ctx.nextAllowedip = some node →
      ctx.allowedipsSeq = 0 ∨ ctx.allowedipsSeq = dev.allowedips.seq → node ∈ dev.allowedips.list p := by
    intro node p ps hrest hnode hseq
    obtain ⟨hne, -, hsame⟩ := h.saved node hnode
    rcases hsame (hseq.resolve_left hne) with ⟨q, hq, hd⟩ | ⟨p', hfollows, hin⟩
    · exact absurd hd (hdead q hq)
    · obtain ⟨post, hpost⟩ := hfollows.resume hl.nodup
      rw [hresume, hrest] at hpost
      cases hpost
      exact hin
  obtain ⟨out, hout, hstops⟩ := dumpPeers_stops call.stats pre rest room hsaved
  rw [hout, Option.map_some]
  refine ⟨_, rfl, fun hpos => ?_⟩
  split at hpos
  · exact absurd hpos (Int.lt_irrefl 0)
  case isFalse hdone =>
  rw [if_neg hdone]
  obtain ⟨fin, p, ps, hrest, hcursor, hnode⟩ := hstops (by simpa using hdone)
  have hlist : dev.peerList = (pre ++ fin) ++ p :: ps := by rw [hsplit, hrest, List.append_assoc]
  refine ⟨fun q hq => ?_, fun node hn => ?_⟩
  · have hin : q ∈ dev.peerList := by
      rw [hlist]
      exact List.mem_append_left _ (List.mem_of_getLast? (hcursor.symm.trans hq))
    exact ⟨hl.created q hin, .inl hin⟩
  · dsimp only at hn ⊢
    rcases hnode with hat | ⟨rfl, hsame, hsameSeq⟩
    · obtain ⟨hin, hs⟩ := hat node hn
      rw [hs]
      exact ⟨hseq, Nat.le_refl _, fun _ => .inr ⟨p, ⟨pre ++ fin, ps, hlist, hcursor.symm⟩, hin⟩⟩
    · have hold := h.saved node (hsame ▸ hn)
      have hs : out.ctx.allowedipsSeq = ctx.allowedipsSeq := by
        rcases hsameSeq with hs | ⟨h0, hs⟩
        · exact hs
        · rw [hs, h0.resolve_left hold.1]
      rw [List.append_nil, hcur] at hcursor
      rw [hs, hcursor]
      exact hold

end ConfigDevice

end WireguardAes
