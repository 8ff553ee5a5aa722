import WireguardAes.NetlinkDumpRuns

/-!
# Complete dumps

What is left of a dump, as the lists of the full attributes and of the allowed IPs that it has still
to put. A call takes something off the front of these lists and puts it into its message, so the
messages of a dump have all of it, in order and once.
-/

namespace WireguardAes

open Runs ListCursor ByteOrder

/-- The full attributes without the counters. -/
def FullAttrs.config (full : FullAttrs) : Bytes × UInt16 × U32 × Option Bytes :=
  (full.presharedKey, full.persistentKeepaliveInterval, full.protocolVersion, full.endpoint)

/-- The full attributes in a message, each with the key of its peer. -/
def fullsOf (nests : List PeerNest) : List (Bytes × Bytes × UInt16 × U32 × Option Bytes) :=
  nests.flatMap fun nest => (nest.full.map fun full => (nest.publicKey, full.config)).toList

/-- The allowed IPs in a message, each with the key of its peer. -/
def ipsOf (nests : List PeerNest) : List (Bytes × Family × Bytes × Nat) :=
  nests.flatMap fun nest => (nest.allowedips.getD []).map fun ip => (nest.publicKey, ip)

/-- The nests of all messages. -/
def nestsOf (msgs : List DumpMsg) : List PeerNest := msgs.flatMap fun msg => msg.peers.getD []

namespace ConfigDevice

variable {C : Crypto} {pubkeyBucket : Bytes → PubkeyBucket} {dev dev' : ConfigDevice}
    {ctx : DumpCtx} {stats : Nat → PeerStats}
  {p room : Nat} {rest : List Nat}
variable {nextPeer : Option Nat} {seq : U64}

def peerConfig (dev : ConfigDevice) (p : Nat) : Bytes × Bytes × UInt16 × U32 × Option Bytes :=
  (dev.key p, (dev.peers p).handshake.presharedKey, (dev.peers p).persistentKeepaliveInterval, 1,
    (dev.peers p).endpoint)

def peerIps (dev : ConfigDevice) (p : Nat) (nodes : List Nat) : List (Bytes × Family × Bytes × Nat) :=
  nodes.map fun node => (dev.key p, dev.entry node)

/-- The full attributes that are left when the peers in `rest` are not finished. -/
def fullsLeft (dev : ConfigDevice) (ctx : DumpCtx) (rest : List Nat) :
    List (Bytes × Bytes × UInt16 × U32 × Option Bytes) :=
  (if ctx.nextAllowedip.isNone then rest else rest.tail).map dev.peerConfig

/-- The allowed IPs that are left. -/
def ipsLeft (dev : ConfigDevice) (ctx : DumpCtx) : List Nat → List (Bytes × Family × Bytes × Nat)
  | [] => []
  | p :: ps => dev.peerIps p (dev.nodesLeft ctx p) ++ ps.flatMap fun q => dev.peerIps q (dev.allowedips.list q)

/-- The cursors of a dump of a device that has not changed. -/
structure Left (dev : ConfigDevice) (ctx : DumpCtx) (rest : List Nat) : Prop where
  seq : ctx.allowedipsSeq = 0 ∨ ctx.allowedipsSeq = dev.allowedips.seq
  saved : ∀ node, ctx.nextAllowedip = some node → ∃ p ps, rest = p :: ps ∧ node ∈ dev.allowedips.list p

theorem fullsLeft_none : dev.fullsLeft ⟨nextPeer, seq, none⟩ rest = rest.map dev.peerConfig := rfl

theorem ipsLeft_none :
    dev.ipsLeft ⟨nextPeer, seq, none⟩ rest = rest.flatMap fun q => dev.peerIps q (dev.allowedips.list q) := by
  rcases rest with - | ⟨p, ps⟩ <;> rfl

/-- What the loop over the peers has put, and what it leaves. -/
structure Put (dev : ConfigDevice) (ctx : DumpCtx) (pre rest : List Nat) (room : Nat)
    (out : PeersDump) (fin rest' : List Nat) :
    Prop where
  split : rest = fin ++ rest'
  cursor : out.cursor = (pre ++ fin).getLast?
  left : Left dev out.ctx rest'
  fulls : dev.fullsLeft ctx rest = fullsOf out.nests ++ dev.fullsLeft out.ctx rest'
  ips : dev.ipsLeft ctx rest = ipsOf out.nests ++ dev.ipsLeft out.ctx rest'
  done : out.done = true → rest' = []
  room_le : out.room ≤ room
  /-- Something is put if there is room for it. -/
  progress : (∀ p ps, rest = p :: ps → dev.peerSize p ≤ room ∧
    ∀ node ∈ dev.allowedips.list p, dev.peerSize p + dev.allowedipSize node ≤ room) →
      out.done = false → fullsOf out.nests ≠ [] ∨ ipsOf out.nests ≠ []

theorem fullsOf_append (l l' : List PeerNest) : fullsOf (l ++ l') = fullsOf l ++ fullsOf l' := List.flatMap_append

theorem ipsOf_append (l l' : List PeerNest) : ipsOf (l ++ l') = ipsOf l ++ ipsOf l' := List.flatMap_append

/-- The full attributes of a peer are put unless they have been put before. -/
theorem fullsLeft_cons (ips : Option (List (Family × Bytes × Nat))) (ps : List Nat) :
    dev.fullsLeft ctx (p :: ps) = fullsOf [⟨dev.key p, dev.fullLeft stats ctx p, ips⟩] ++ ps.map dev.peerConfig := by
  unfold fullsLeft fullLeft
  split <;> rfl

theorem ipsOf_map (full : Option FullAttrs) (nodes : List Nat) :
    ipsOf [⟨dev.key p, full, some (nodes.map dev.entry)⟩] = dev.peerIps p nodes := by
  simp only [ipsOf, peerIps, List.flatMap_cons, List.flatMap_nil, List.append_nil, Option.getD_some, List.map_map]
  rfl

theorem nodesLeft_stopped (hnodup : (dev.allowedips.list p).Nodup) {done nodes : List Nat} {node : Nat}
    (hsaved : ∀ node, ctx.nextAllowedip = some node → node ∈ dev.allowedips.list p)
    (h : dev.nodesLeft ctx p = done ++ node :: nodes) : dev.nodesLeft ⟨nextPeer, seq, some node⟩ p = node :: nodes := by
  have hsuffix : ∃ before, dev.allowedips.list p = before ++ dev.nodesLeft ctx p := by
    unfold nodesLeft
    split
    · exact ⟨[], rfl⟩
    case h_2 first hfirst =>
      obtain ⟨before, post, hlist, hstart⟩ := startingAt_split (hsaved first hfirst)
      exact ⟨before, hlist.trans (by rw [hstart])⟩
  obtain ⟨before, hbefore⟩ := hsuffix
  rw [h, ← List.append_assoc] at hbefore
  rw [hbefore] at hnodup
  unfold nodesLeft
  dsimp only
  rw [hbefore]
  exact startingAt_of_nodup hnodup

theorem Put.finished (hsaved : ∀ node, ctx.nextAllowedip = some node → node ∈ dev.allowedips.list p)
    {ips : Option (List (Family × Bytes × Nat))} (hips : ips.getD [] = (dev.nodesLeft ctx p).map dev.entry)
    {pre ps fin rest' : List Nat} {room room' : Nat} {out : PeersDump} (hle : room' ≤ room)
    (h : Put dev ⟨nextPeer, 0, none⟩ (pre ++ [p]) ps room' out fin rest') :
    Put dev ctx pre (p :: ps) room { out with nests := [⟨dev.key p, dev.fullLeft stats ctx p, ips⟩] ++ out.nests }
      (p :: fin) rest' := by
  have hip : ipsOf [⟨dev.key p, dev.fullLeft stats ctx p, ips⟩] = dev.peerIps p (dev.nodesLeft ctx p) := by
    rw [← ipsOf_map (dev.fullLeft stats ctx p), ← hips]
    rfl
  refine ⟨?_, ?_, h.left, ?_, ?_, h.done, Nat.le_trans h.room_le hle, fun _ _ => ?_⟩
  · rw [h.split, List.cons_append]
  · rw [h.cursor, List.append_assoc, List.singleton_append]
  · dsimp only
    rw [fullsOf_append, List.append_assoc, ← h.fulls, fullsLeft_none]
    exact fullsLeft_cons ips ps
  · dsimp only
    rw [ipsOf_append, hip, List.append_assoc, ← h.ips, ipsLeft_none]
    rfl
  · dsimp only
    rw [fullsOf_append, ipsOf_append, hip]
    rcases hnext : ctx.nextAllowedip with - | node
    · left
      simp [fullsOf, fullLeft, hnext]
    · right
      obtain ⟨before, post, -, hstart⟩ := startingAt_split (hsaved node hnext)
      simp [nodesLeft, hnext, hstart, peerIps]

theorem dumpPeers_put (hnodup : ∀ q, (dev.allowedips.list q).Nodup) (stats : Nat → PeerStats)
    (pre : List Nat) (room : Nat)
    (h : Left dev ctx rest) :
    ∃ out fin rest', dev.dumpPeers stats ctx pre.getLast? rest room = some out ∧
      Put dev ctx pre rest room out fin rest' := by
  induction rest generalizing ctx pre room with
  | nil =>
    refine ⟨_, [], [], rfl, rfl, ?_, h, rfl, rfl, fun _ => rfl, Nat.le_refl _, ?_⟩
    · rw [List.append_nil]
    · intro _ hdone
      exact absurd hdone.symm Bool.false_ne_true
  | cons p ps ih =>
    have hsaved : ∀ node, ctx.nextAllowedip = some node → node ∈ dev.allowedips.list p := by
      intro node hnode
      obtain ⟨q, qs, heq, hin⟩ := h.saved node hnode
      cases heq
      exact hin
    obtain ⟨out, hout, hcases⟩ := getPeer_spec stats room fun node hnode _ => hsaved node hnode
    have hzero : emsgsize ≠ 0 := by decide
    unfold dumpPeers
    rw [hout]
    rcases hcases with @⟨seq, hroom, hseq⟩ | ⟨-, hseq⟩ | @⟨ips, room', hle, hips⟩ | @⟨fin, node,
      nodes, room', hle, hnodes, hroom⟩
    · have hleft : Left dev { ctx with allowedipsSeq := seq } (p :: ps) := by
        refine ⟨?_, h.saved⟩
        rcases hseq with rfl | ⟨-, rfl⟩
        · exact h.seq
        · exact .inr rfl
      refine ⟨_, [], p :: ps, if_pos hzero, rfl, ?_, hleft, rfl, rfl, fun hdone =>
        absurd hdone Bool.false_ne_true, Nat.le_refl _,
        fun hfits => ?_⟩
      · rw [List.append_nil]
      · exact absurd hroom (Nat.not_lt.mpr (hfits p ps rfl).1)
    · rcases h.seq with h0 | heq
      · exact absurd h0 hseq.1
      · exact absurd heq hseq.2
    · have hlast : (pre ++ [p]).getLast? = some p := List.getLast?_concat
      have hfresh : Left dev ⟨ctx.nextPeer, 0, none⟩ ps := by
        refine ⟨.inl rfl, fun node hnode => ?_⟩
        cases hnode
      obtain ⟨out, fin, rest', hrest, hput⟩ := ih (pre ++ [p]) room' hfresh
      rw [hlast] at hrest
      dsimp only
      rw [if_neg fun h => h rfl, hrest]
      exact ⟨_, p :: fin, rest', rfl, hput.finished hsaved hips hle⟩
    · have hleft : node ∈ dev.nodesLeft ctx p := by
        rw [hnodes]
        exact List.mem_append_right _ List.mem_cons_self
      have hin := mem_of_mem_nodesLeft hleft
      refine ⟨_, [], p :: ps, if_pos hzero, rfl, ?_, ⟨.inr rfl, fun last hlast => ?_⟩, ?_, ?_,
        fun hdone => absurd hdone Bool.false_ne_true, hle, fun hfits _ => ?_⟩
      · rw [List.append_nil]
      · cases hlast
        exact ⟨p, ps, rfl, hin⟩
      · exact fullsLeft_cons _ ps
      · simp only [Option.toList_some]
        rw [ipsOf_map, ipsLeft, ipsLeft, nodesLeft_stopped (hnodup p) hsaved hnodes, hnodes, ← List.append_assoc]
        congr 1
        exact List.map_append
      · right
        simp only [Option.toList_some]
        rw [ipsOf_map]
        intro hnil
        have hfits := (hfits p ps rfl).2 node hin
        have hlt := hroom (List.map_eq_nil_iff.mp hnil)
        omega

/-! ### A call, and a dump -/

/-- The room that the headers and the attributes of the device take. -/
def headerSize (dev : ConfigDevice) (call : DumpCall) : Nat :=
  genlmsgSize + (nlaTotalSizes (dev.deviceLens call) + nlaTotalSize 0)

/-- A buffer with room for the header, the full attributes of a peer and one of its allowed IPs. -/
structure Fits (dev : ConfigDevice) (call : DumpCall) : Prop where
  header : dev.headerSize call ≤ call.capacity
  peer : ∀ p ∈ dev.peerList, dev.headerSize call + dev.peerSize p ≤ call.capacity
  allowedip : ∀ p ∈ dev.peerList, ∀ node ∈ dev.allowedips.list p,
    dev.headerSize call + dev.peerSize p + dev.allowedipSize node ≤ call.capacity

instance (dev : ConfigDevice) (call : DumpCall) : Decidable (Fits dev call) :=
  decidable_of_iff (dev.headerSize call ≤ call.capacity ∧
    (∀ p ∈ dev.peerList, dev.headerSize call + dev.peerSize p ≤ call.capacity) ∧
    ∀ p ∈ dev.peerList, ∀ node ∈ dev.allowedips.list p,
      dev.headerSize call + dev.peerSize p + dev.allowedipSize node ≤ call.capacity)
    ⟨fun h => ⟨h.1, h.2.1, h.2.2⟩, fun h => ⟨h.header, h.peer, h.allowedip⟩⟩

/-- The messages of the calls, and what the last of them returned if it has ended the dump. -/
def dumpAll (dev : ConfigDevice) : List DumpCall → DumpCtx → Option (List DumpMsg × Option Int)
  | [], _ => some ([], none)
  | call :: calls, ctx =>
    match dev.wgGetDeviceDump call ctx with
    | none => none
    | some res =>
      if 0 < res.ret then (dumpAll dev calls res.ctx).map fun out => (res.msg.toList ++ out.1, out.2)
      else some (res.msg.toList, some res.ret)

theorem Fits.headerRoom {call : DumpCall} (h : Fits dev call) (first : Bool) :
    ∃ room, (nlaPutAll (call.capacity - genlmsgSize)
      (if first then dev.deviceLens call else [])).bind nlaNestStart = some room ∧
      room < call.capacity ∧ call.capacity ≤ dev.headerSize call + room := by
  have hheader := h.header
  have hpos : 0 < genlmsgSize := by decide
  have hsize : nlaTotalSizes (if first then dev.deviceLens call else []) ≤ nlaTotalSizes (dev.deviceLens call) := by
    split
    · exact Nat.le_refl _
    · exact Nat.zero_le _
  have htakes := (takes_nlaPutAll (if first then dev.deviceLens call else [])).bind (takes_nlaPut 0)
  unfold headerSize at hheader ⊢
  refine ⟨_, (htakes _).trans (if_pos (by omega)), by omega, by omega⟩

/-- What a call does to what is left. -/
inductive CallPut (dev : ConfigDevice) (ctx : DumpCtx) (rest : List Nat) (res : DumpResult)
    (nests : List PeerNest) : Prop
  | last (hret : res.ret = 0) (hfulls : dev.fullsLeft ctx rest = fullsOf nests)
      (hips : dev.ipsLeft ctx rest = ipsOf nests)
  | more {pre' rest' : List Nat} (hret : 0 < res.ret) (hsplit : dev.peerList = pre' ++ rest')
    (hcur : res.ctx.nextPeer = pre'.getLast?) (hleft : Left dev res.ctx rest')
    (hfulls : dev.fullsLeft ctx rest = fullsOf nests ++ dev.fullsLeft res.ctx rest')
    (hips : dev.ipsLeft ctx rest = ipsOf nests ++ dev.ipsLeft res.ctx rest')
    (hprogress : fullsOf nests ≠ [] ∨ ipsOf nests ≠ [])

theorem wgGetDeviceDump_put (hl : ListsOk dev) (hnodup : ∀ q, (dev.allowedips.list q).Nodup) {pre : List Nat}
    (hsplit : dev.peerList = pre ++ rest) (hcur : ctx.nextPeer = pre.getLast?) (h : Left dev ctx rest) {call : DumpCall}
    (hfits : Fits dev call) :
    ∃ res msg, dev.wgGetDeviceDump call ctx = some res ∧ res.msg = some msg ∧
      CallPut dev ctx rest res (msg.peers.getD []) := by
  have hmem : ∀ q, ctx.nextPeer = some q → q ∈ dev.peerList := by
    intro q hq
    rw [hsplit]
    exact List.mem_append_left _ (List.mem_of_getLast? (hcur.symm.trans hq))
  have hdead : ctx.nextPeer.any (fun q => (dev.peers q).isDead) = false := by
    rcases hq : ctx.nextPeer with - | q
    · rfl
    · exact hl.alive q (hmem q hq)
  have hany : ctx.nextPeer.any (fun q => decide (q ∉ dev.peerList)) = false := by
    rcases hq : ctx.nextPeer with - | q
    · rfl
    · simpa using hmem q hq
  obtain ⟨room, hroom, hlt, hle⟩ := hfits.headerRoom ctx.nextPeer.isNone
  have hcap : ¬ call.capacity < genlmsgSize := by
    have := hfits.header
    unfold headerSize at this
    omega
  unfold wgGetDeviceDump
  rw [if_neg hcap]
  dsimp only
  rw [hroom, hdead, hany]
  dsimp only
  by_cases hempty : dev.peerList = []
  · rw [if_pos (.inl hempty)]
    rw [hempty] at hsplit
    obtain ⟨rfl, rfl⟩ := List.append_eq_nil_iff.mp hsplit.symm
    refine ⟨_, _, rfl, rfl, .last rfl ?_ rfl⟩
    unfold fullsLeft
    split <;> rfl
  rw [if_neg (by simp [hempty]), if_neg Bool.false_ne_true]
  have hresume : resume ctx.nextPeer dev.peerList = rest := by
    have hnd := hl.nodup
    rw [hsplit] at hnd ⊢
    rw [hcur]
    exact resume_append hnd
  obtain ⟨out, fin, rest', hout, hput⟩ := dumpPeers_put hnodup call.stats pre room h
  rw [hresume, hcur, hout, Option.map_some]
  rcases hdone : out.done with - | -
  · refine ⟨_, _, rfl, rfl, .more ?_ ?_ hput.cursor ⟨hput.left.seq, hput.left.saved⟩ hput.fulls
      hput.ips (hput.progress ?_ hdone)⟩
    · have := hput.room_le
      exact Int.natCast_pos.mpr (by omega)
    · rw [hsplit, hput.split, List.append_assoc]
    · intro p ps hrest
      have hp : p ∈ dev.peerList := by
        rw [hsplit, hrest]
        exact List.mem_append_right _ List.mem_cons_self
      have hpeer := hfits.peer p hp
      refine ⟨by omega, fun node hnode => ?_⟩
      have hip := hfits.allowedip p hp node hnode
      omega
  · have hnil := hput.done hdone
    have hfulls := hput.fulls
    have hips := hput.ips
    rw [hnil] at hfulls hips
    refine ⟨_, _, rfl, rfl, .last rfl ?_ ?_⟩
    · rw [hfulls]
      unfold fullsLeft
      split <;> exact List.append_nil _
    · rw [hips]
      exact List.append_nil _

theorem nestsOf_cons (msg : DumpMsg) (msgs : List DumpMsg) :
    nestsOf (msg :: msgs) = msg.peers.getD [] ++ nestsOf msgs :=
  List.flatMap_cons

/-- Every call puts something, so the dump ends and has put everything. -/
theorem dumpAll_put (hl : ListsOk dev) (hnodup : ∀ q, (dev.allowedips.list q).Nodup) (calls : List DumpCall)
    (hfits : ∀ call ∈ calls, Fits dev call) (pre : List Nat) (hsplit : dev.peerList = pre ++ rest)
    (hcur : ctx.nextPeer = pre.getLast?) (h : Left dev ctx rest)
    (hlen : (dev.fullsLeft ctx rest).length + (dev.ipsLeft ctx rest).length < calls.length) :
    ∃ msgs, dev.dumpAll calls ctx = some (msgs, some 0) ∧ fullsOf (nestsOf msgs) = dev.fullsLeft ctx rest ∧
      ipsOf (nestsOf msgs) = dev.ipsLeft ctx rest := by
  induction calls generalizing ctx pre rest with
  | nil => cases hlen
  | cons call calls ih =>
    obtain ⟨res, msg, hres, hmsg, hput⟩ := wgGetDeviceDump_put hl hnodup hsplit hcur h (hfits call List.mem_cons_self)
    unfold dumpAll
    rw [hres]
    dsimp only
    rcases hput with ⟨hret, hfulls, hips⟩ | @⟨pre', rest', hret, hsplit', hcur', hleft, hfulls, hips, hprogress⟩
    · rw [hret, if_neg (Int.lt_irrefl 0), hmsg]
      refine ⟨[msg], rfl, ?_, ?_⟩
      · rw [nestsOf_cons, hfulls]
        exact congrArg fullsOf (List.append_nil _)
      · rw [nestsOf_cons, hips]
        exact congrArg ipsOf (List.append_nil _)
    · have hshorter : (dev.fullsLeft res.ctx rest').length + (dev.ipsLeft res.ctx rest').length < calls.length := by
        rw [hfulls, hips, List.length_append, List.length_append, List.length_cons] at hlen
        rcases hprogress with hne | hne
        · have := List.length_pos_of_ne_nil hne
          omega
        · have := List.length_pos_of_ne_nil hne
          omega
      obtain ⟨msgs, hmsgs, hfulls', hips'⟩ :=
        ih (fun call hcall => hfits call (List.mem_cons_of_mem _ hcall)) pre' hsplit' hcur' hleft hshorter
      rw [if_pos hret, hmsgs, hmsg]
      refine ⟨msg :: msgs, rfl, ?_, ?_⟩
      · rw [nestsOf_cons, fullsOf_append, hfulls', hfulls]
      · rw [nestsOf_cons, ipsOf_append, hips', hips]

/-! ### What a whole dump has -/

theorem listsOk_of_exec (hrun : Exec (step C pubkeyBucket) (fun _ _ => True) (new C) dev) :
    Configured pubkeyBucket dev ∧ ListsOk dev := by
  have h : Configured pubkeyBucket dev ∧ dev.Watched none := by
    refine hrun.inv (I := fun dev => Configured pubkeyBucket dev ∧ dev.Watched none) ?_ fun dev ev dev' _ h hs => ?_
    · exact ⟨⟨.new, nofun⟩, DumpState.watched_init⟩
    · exact ⟨h.1.step hs, h.2.changes (DumpState.changes_step hs)⟩
  exact ⟨h.1, h.2.lists⟩

/-- All allowed IPs, each with the key of its peer. -/
def allIps (dev : ConfigDevice) : List (Bytes × Family × Bytes × Nat) :=
  dev.peerList.flatMap fun p => dev.peerIps p (dev.allowedips.list p)

theorem peerIps_eq (dev : ConfigDevice) (p : Nat) :
    dev.peerIps p (dev.allowedips.list p) = (dev.allowedips.peerEntries p).map (Prod.mk (dev.key p)) :=
  (List.map_map ..).symm

variable {L : Set Nat} {T : PrefixTable Family Nat}

theorem nodup_allIps (hc : Configured pubkeyBucket dev) (hl : ListsOk dev)
    (hi : dev.allowedips.Inv L) : dev.allIps.Nodup := by
  refine List.nodup_flatMap.mpr ⟨fun p _ => ?_, ?_⟩
  · rw [peerIps_eq]
    exact (Allowedips.nodup_peerEntries hi hl.sized p).map (Prod.mk_right_injective _)
  · refine hl.nodup.imp_of_mem fun {p q} hp hq hne => ?_
    intro x hx hx'
    obtain ⟨_, -, rfl⟩ := List.mem_map.mp hx
    obtain ⟨_, -, heq⟩ := List.mem_map.mp hx'
    exact hne (hc.peers.distinct p hp q hq (congrArg Prod.fst heq).symm)

theorem mem_allIps (hl : ListsOk dev) (hi : dev.allowedips.Inv L)
    (hT : PrefixForest.Reads Family.bits dev.allowedips.forest L T)
    {k : Bytes} {f : Family} {ip : Bytes} {c : Nat} : (k, f, ip, c) ∈ dev.allIps ↔
      ∃ p ∈ dev.peerList, dev.key p = k ∧ ip.length = f.bits / 8 ∧ T f (beNat ip) c = some p := by
  unfold allIps
  rw [List.mem_flatMap]
  refine exists_congr fun p => and_congr_right fun _ => ?_
  rw [peerIps_eq, List.mem_map]
  constructor
  · rintro ⟨⟨f', ip', c'⟩, hmem, heq⟩
    cases heq
    exact ⟨rfl, (Allowedips.mem_peerEntries hi hl.sized hT).mp hmem⟩
  · rintro ⟨rfl, hmem⟩
    exact ⟨(f, ip, c), (Allowedips.mem_peerEntries hi hl.sized hT).mpr hmem, rfl⟩

/-- A dump of any configuration comes to its end, whatever buffers it gets that have room for the
header, a peer and an allowed IP, and its messages have the full attributes of every peer once and
every allowed IP of every peer once. If the configuration changes between the calls, no node is
looked at that is off its list, as long as `seq` has not been counted up so often that it wraps
around. -/
theorem dump_complete_and_safe (C : Crypto) (pubkeyBucket : Bytes → PubkeyBucket) :
    (∀ dev, Exec (step C pubkeyBucket) (fun _ _ => True) (new C) dev → ∀ calls : Nat → DumpCall,
      (∀ i, Fits dev (calls i)) →
      ∃ n msgs T l, dev.dumpAll ((List.range n).map calls) .start = some (msgs, some 0) ∧
        fullsOf (nestsOf msgs) = dev.peerList.map dev.peerConfig ∧ ((fullsOf (nestsOf msgs)).map Prod.fst).Nodup ∧
        dev.allowedips.Agrees T l ∧ (ipsOf (nestsOf msgs)).Nodup ∧
        ∀ k f ip c, (k, f, ip, c) ∈ ipsOf (nestsOf msgs) ↔
          ∃ p ∈ dev.peerList, dev.key p = k ∧ ip.length = f.bits / 8 ∧ T f (beNat ip) c = some p) ∧
    ∀ s, Exec (DumpState.step C pubkeyBucket) (fun _ _ => True) (DumpState.init C) s →
      s.dev.allowedips.updates + 1 < 2 ^ 64 →
      ∀ ctx, s.ctx = some ctx → ∀ call, (s.dev.wgGetDeviceDump call ctx).isSome = true := by
  constructor
  · intro dev hrun calls hfits
    obtain ⟨hc, hl⟩ := listsOk_of_exec hrun
    obtain ⟨T, l, hagrees⟩ := hc.peers.trie
    obtain ⟨L, hi, hT⟩ := hagrees.trie
    have hleft : Left dev .start dev.peerList := by
      refine ⟨.inl rfl, fun node hnode => ?_⟩
      cases hnode
    have hsplit : dev.peerList = [] ++ dev.peerList := rfl
    have hfulls : dev.fullsLeft .start dev.peerList = dev.peerList.map dev.peerConfig := fullsLeft_none
    have hips : dev.ipsLeft .start dev.peerList = dev.allIps := ipsLeft_none
    let n := (dev.fullsLeft .start dev.peerList).length + (dev.ipsLeft .start dev.peerList).length + 1
    have hfits' : ∀ call ∈ (List.range n).map calls, Fits dev call := by
      intro call hcall
      obtain ⟨i, -, rfl⟩ := List.mem_map.mp hcall
      exact hfits i
    have hlen : n - 1 < ((List.range n).map calls).length := by
      rw [List.length_map, List.length_range]
      exact Nat.lt_succ_self _
    obtain ⟨msgs, hmsgs, hfullsOf, hipsOf⟩ := dumpAll_put hl hi.nodup ((List.range n).map calls)
      hfits' [] hsplit rfl hleft hlen
    have hkeys : (dev.peerList.map dev.peerConfig).map Prod.fst = dev.peerList.map dev.key := List.map_map ..
    refine ⟨n, msgs, T, l, hmsgs, hfullsOf, ?_, hagrees, ?_, ?_⟩
    · rw [hfullsOf, hfulls, hkeys]
      exact (List.nodup_map_iff_inj_on hl.nodup).mpr fun p hp q hq => hc.peers.distinct p hp q hq
    · rw [hipsOf, hips]
      exact nodup_allIps hc hl hi
    · intro k f ip c
      rw [hipsOf, hips]
      exact mem_allIps hl hi hT
  · intro s hrun hseq ctx hctx call
    have h : s.dev.Watched s.ctx :=
      hrun.inv (I := fun s => s.dev.Watched s.ctx) DumpState.watched_init fun _ _ _ _ h hs =>
        DumpState.watched_step h hs
    obtain ⟨res, hres, -⟩ :=
      wgGetDeviceDump_resumes h.lists (Allowedips.seq_ne_zero hseq) (h.resumes hseq ctx hctx) call
    rw [hres]
    rfl

/-- `10.0.0.b/32` -/
def sampleIp (b : UInt8) (fails : Bool) : AllowedipAttrs := ⟨some afInet, some [10, 0, 0, b], some 32, fails, false⟩

def ipsPeer (flags : U32) (ips : List AllowedipAttrs) : PeerAttrs :=
  ⟨some (sampleKey 7), none, some flags, none, none, some (ips.map some), none, false⟩

def ipsRequest (flags : U32) (ips : List AllowedipAttrs) : DeviceAttrs :=
  ⟨none, none, none, none, some [some (ipsPeer flags ips)], true, .ok 0⟩

def sampleCall (capacity : Nat) : DumpCall := ⟨capacity, 1, [], fun _ => ⟨(0, 0), 0, 0⟩⟩

/-- A peer gets two allowed IPs, a dump stops behind the first of them, and both are taken away. -/
def interrupted : List DumpEvent :=
  [.config (.request (ipsRequest 0 [sampleIp 1 false, sampleIp 2 false])), .start, .dump (sampleCall 230),
    .config (.request (ipsRequest wgpeerFReplaceAllowedips []))]

theorem dump_complete_and_safe_interrupted :
    (∃ dev n msgs, Exec (step plainCrypto fun _ => 0) (fun _ _ => True) (new plainCrypto) dev ∧ dev.peerList = [0] ∧
      dev.allowedips.list 0 = [0, 1] ∧ dev.dumpAll ((List.range n).map fun _ => sampleCall 230)
        .start = some (msgs, some 0) ∧
      fullsOf (nestsOf msgs) = dev.peerList.map dev.peerConfig) ∧
    ∃ s ctx, Exec (DumpState.step plainCrypto fun _ => 0) (fun _ _ => True) (DumpState.init plainCrypto) s ∧
      s.ctx = some ctx ∧ ctx.nextAllowedip = some 1 ∧ (s.dev.wgGetDeviceDump (sampleCall 230) ctx).isSome = true := by
  obtain ⟨hcomplete, hsafe⟩ := dump_complete_and_safe plainCrypto fun _ => 0
  constructor
  · have hrun : ∃ dev, Exec (step plainCrypto fun _ => 0) (fun _ _ => True) (new plainCrypto) dev ∧
        (dev.peerList, dev.allowedips.list 0, decide (Fits dev (sampleCall 230))) = ([0], [0, 1], true) :=
      Exec.exists_of_foldlM [.request (ipsRequest 0 [sampleIp 1 false, sampleIp 2 false])]
        (fun dev : ConfigDevice => (dev.peerList, dev.allowedips.list 0,
          decide (Fits dev (sampleCall 230)))) (by decide +kernel)
    obtain ⟨dev, hrun, hdev⟩ := hrun
    simp only [Prod.mk.injEq] at hdev
    obtain ⟨hlist, hips, hfits⟩ := hdev
    obtain ⟨n, msgs, _, _, hmsgs, hfulls, -⟩ := hcomplete dev hrun (fun _ => sampleCall 230)
      fun _ => of_decide_eq_true hfits
    exact ⟨dev, n, msgs, hrun, hlist, hips, hmsgs, hfulls⟩
  · have hrun : ∃ s, Exec (DumpState.step plainCrypto fun _ => 0) (fun _ _ => True) (DumpState.init plainCrypto) s ∧
        (s.ctx.map DumpCtx.nextAllowedip, s.dev.allowedips.updates) = (some (some 1), 3) :=
      Exec.exists_of_foldlM interrupted (fun s : DumpState => (s.ctx.map DumpCtx.nextAllowedip,
        s.dev.allowedips.updates))
        (by decide +kernel)
    obtain ⟨s, hrun, hs⟩ := hrun
    simp only [Prod.mk.injEq] at hs
    obtain ⟨hnext, hupdates⟩ := hs
    obtain ⟨ctx, hctx, hnode⟩ := Option.map_eq_some_iff.mp hnext
    exact ⟨s, ctx, hrun, hctx, hnode, hsafe s hrun (by omega) ctx hctx _⟩

/-! ### When `seq` wraps around -/

section Wraps

/-- `seq` and the generation of the device after `n` requests that change nothing else. -/
def counted (dev : ConfigDevice) (n : Nat) : ConfigDevice :=
  { dev with
    deviceUpdateGen := dev.deviceUpdateGen + BitVec.ofNat 32 n
    allowedips := { dev.allowedips with updates := dev.allowedips.updates + n } }

theorem setAllowedip_enomem (hroot : dev.allowedips.root .v4 = none) :
    dev.setAllowedip p (sampleIp 1 true) =
      some (enomem, { dev with allowedips := { dev.allowedips with updates := dev.allowedips.updates + 1 } }) := by
  simp only [setAllowedip, sampleIp]
  rw [dif_pos (by decide)]
  simp only [insertAllowedip, AllowedipsCall.exec, Allowedips.wgAllowedipsInsertV4, Allowedips.add,
    AllowedipsMemory.add, AllowedipsMemory.state, hroot]
  rfl

theorem configurePeer_enomem (hroot : dev.allowedips.root .v4 = none) {attrs : PeerAttrs} (hend : attrs.endpoint = none)
    (hips : attrs.allowedips = some [some (sampleIp 1 true)]) :
    dev.configurePeer attrs none 0 p =
      some (enomem, { dev with allowedips := { dev.allowedips with updates := dev.allowedips.updates + 1 } }) := by
  have hself : (dev.modifyPeer p fun peer => (peer.setPresharedKey none).setEndpoint none) = dev := by
    simp only [modifyPeer, ConfigPeer.setPresharedKey, ConfigPeer.setEndpoint, Function.update_eq_self]
  unfold configurePeer
  rw [if_neg (by decide), hend, hips]
  dsimp only
  rw [hself, if_neg (by decide), Option.getD_some, forEachNested, setAllowedip_enomem hroot]
  rfl

theorem counted_succ (dev : ConfigDevice) (n : Nat) : (dev.counted n).counted 1 = dev.counted (n + 1) := by
  unfold counted
  dsimp only
  rw [BitVec.add_assoc, ← BitVec.ofNat_add, Nat.add_assoc]

theorem wgSetDevice_enomem (hl : dev.lookup pubkeyBucket (sampleKey 7) = some p)
    (hroot : dev.allowedips.root .v4 = none) :
    dev.wgSetDevice C pubkeyBucket (ipsRequest 0 [sampleIp 1 true]) = some (enomem, dev.counted 1) := by
  have hpeer : ∀ dev : ConfigDevice, dev.lookup pubkeyBucket (sampleKey 7) = some p → dev.allowedips.root .v4 = none →
      dev.setPeer C pubkeyBucket (ipsPeer 0 [sampleIp 1 true]) =
        some (enomem, { dev with allowedips := { dev.allowedips with updates := dev.allowedips.updates + 1 } }) := by
    intro dev hl hroot
    have hkey : (some (sampleKey 7)).filter (fun k => k.length = noisePublicKeyLen) = some (sampleKey 7) := by decide
    unfold setPeer
    simp only [ipsPeer, hkey, hl]
    rw [if_neg (by decide), if_neg (by decide)]
    exact configurePeer_enomem hroot rfl rfl
  unfold wgSetDevice
  rw [if_neg (by decide), if_neg (by decide)]
  dsimp only [ipsRequest, applyListenPort, applyReplacePeers, applyPrivateKey, applyFwmark,
    List.map_cons, List.map_nil, Option.getD_none, Option.getD_some, Option.filter_none]
  rw [if_neg (by decide), if_neg (by decide)]
  dsimp only
  rw [forEachNested, hpeer]
  · rfl
  · exact hl
  · exact hroot

variable {s : DumpState}

theorem exec_enomem (hl : s.dev.lookup pubkeyBucket (sampleKey 7) = some p)
    (hroot : s.dev.allowedips.root .v4 = none) (n : Nat) :
    Exec (DumpState.step C pubkeyBucket) (fun _ _ => True) s { s with dev := s.dev.counted n } := by
  induction n with
  | zero =>
    have hzero : s.dev.counted 0 = s.dev := by
      unfold counted
      dsimp only
      rw [BitVec.add_zero, Nat.add_zero]
    rw [hzero]
    exact .refl s
  | succ n ih =>
    have hstep : (s.dev.counted n).wgSetDevice C pubkeyBucket (ipsRequest 0 [sampleIp 1 true]) =
      some (enomem, (s.dev.counted n).counted 1) := wgSetDevice_enomem hl hroot
    refine ih.tail (e := .config (.request (ipsRequest 0 [sampleIp 1 true]))) trivial ?_
    rw [DumpState.step, ConfigDevice.step, hstep, counted_succ]
    rfl

end Wraps

/-- After 2^64 changes `seq` is what it was: the dump goes on from the node it has saved, though it
was taken off the list of its peer. -/
theorem dump_strays : ∃ s ctx call, Exec (DumpState.step plainCrypto fun _ => 0) (fun _ _ => True)
    (DumpState.init plainCrypto) s ∧
    s.ctx = some ctx ∧ ctx.nextAllowedip = some 1 ∧ s.dev.allowedips.list 0 = [] ∧
      s.dev.wgGetDeviceDump call ctx = none := by
  have hrun : ∃ s, Exec (DumpState.step plainCrypto fun _ => 0) (fun _ _ => True) (DumpState.init plainCrypto) s ∧
      (s.dev.lookup (fun _ => 0) (sampleKey 7), s.dev.allowedips.root .v4, s.dev.allowedips.list 0, s.ctx.map fun ctx =>
        decide (ctx.nextAllowedip = some 1) && ((s.dev.counted (2 ^ 64 - 1)).wgGetDeviceDump
          (sampleCall 230) ctx).isNone) =
      (some 0, none, [], some true) :=
    Exec.exists_of_foldlM interrupted (fun s : DumpState =>
      (s.dev.lookup (fun _ => 0) (sampleKey 7), s.dev.allowedips.root .v4, s.dev.allowedips.list 0, s.ctx.map fun ctx =>
        decide (ctx.nextAllowedip = some 1) && ((s.dev.counted (2 ^ 64 - 1)).wgGetDeviceDump
          (sampleCall 230) ctx).isNone))
      (by decide +kernel)
  obtain ⟨s, hrun, hs⟩ := hrun
  simp only [Prod.mk.injEq] at hs
  obtain ⟨hl, hroot, hlist, hnone⟩ := hs
  obtain ⟨ctx, hctx, hout⟩ := Option.map_eq_some_iff.mp hnone
  obtain ⟨hnode, hnone⟩ := Bool.and_eq_true_iff.mp hout
  exact ⟨_, ctx, sampleCall 230, hrun.trans (exec_enomem hl hroot (2 ^ 64 - 1)), hctx,
    of_decide_eq_true hnode, hlist, Option.isNone_iff_eq_none.mp hnone⟩

end ConfigDevice
end WireguardAes
