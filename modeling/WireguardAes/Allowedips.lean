import WireguardAes.Lib.PrefixForest
import WireguardAes.AllowedipsBits
import Mathlib.Logic.Function.Basic

/-!
# The allowed-IPs trie (`allowedips.c`)

The trie as the code keeps it: nodes in memory with two child pointers, the packed back pointer
`parent_bit_packed` to the slot that points to the node, and one intrusive list of nodes for each
peer. `mem` is the memory of `node_cache`, of which the addresses below `brk` have been handed out;
allocations fail when the caller says so. The loops take fuel and answer `none` when it runs out,
which the theorems exclude.
-/

namespace WireguardAes

open Function PrefixForest

/-- The trie of `root4` and the one of `root6`. -/
inductive Family where
  | v4
  | v6
deriving DecidableEq

def Family.bits : Family → Nat
  | .v4 => 32
  | .v6 => 128

structure AllowedipsNode (P : Type) where
  peer : Option P
  bit : Bool → Option Nat
  cidr : Nat
  bitAtA : Nat
  bitAtB : Nat
  bitlen : Nat
  bits : Bytes
  /-- The address of the slot, with its number (2 for a root) packed into the low bits. -/
  parentBitPacked : Slot Family

namespace AllowedipsNode
variable {P : Type}

/-- A node from `kmem_cache_zalloc`; its back pointer is not read before it is connected. -/
def zero : AllowedipsNode P := ⟨none, fun _ => none, 0, 0, 0, 0, List.replicate 16 0, .root .v4⟩

def copyAndAssignCidr (node : AllowedipsNode P) (src : Bytes) (cidr bits : Nat) : AllowedipsNode P :=
  { node with
    cidr := cidr, bitAtA := WireguardAes.bitAtA cidr bits, bitAtB := WireguardAes.bitAtB cidr,
    bitlen := bits, bits := src.take (bits / 8) ++ node.bits.drop (bits / 8) }

def choose (node : AllowedipsNode P) (key : Bytes) : Bool := bitAt key node.bitAtA node.bitAtB

def prefixMatches (node : AllowedipsNode P) (key : Bytes) (bits : Nat) : Bool :=
  decide (node.cidr ≤ commonBits node.bits key bits)

end AllowedipsNode

/-- What `call_rcu` was asked to free: one node, or a whole trie. -/
inductive RcuHead where
  | nodeFree (p : Nat)
  | rootFree (p : Nat)

inductive Ret where
  | ok
  | einval
  | enomem
deriving DecidableEq

structure Allowedips (P : Type) where
  root : Family → Option Nat
  /-- How often `seq` has been counted up. -/
  updates : Nat
  mem : Nat → AllowedipsNode P
  brk : Nat
  /-- The `allowedips_list` of each peer. -/
  list : P → List Nat
  rcu : List RcuHead

namespace Allowedips
variable {P : Type}

def wgAllowedipsInit : Allowedips P := ⟨fun _ => none, 0, fun _ => .zero, 0, fun _ => [], []⟩

/-- `u64 seq`, which starts at 1. -/
def seq (s : Allowedips P) : U64 := BitVec.ofNat 64 (s.updates + 1)

theorem seq_toNat {s : Allowedips P} (h : s.updates + 1 < 2 ^ 64) : s.seq.toNat = s.updates + 1 := by
  rw [seq, BitVec.toNat_ofNat]
  exact Nat.mod_eq_of_lt h

theorem seq_ne_zero {s : Allowedips P} (h : s.updates + 1 < 2 ^ 64) : s.seq ≠ 0 := by
  intro h0
  have hnat := seq_toNat h
  rw [h0] at hnat
  exact Nat.succ_ne_zero _ hnat.symm

/-! ### Memory -/

def setNode (s : Allowedips P) (p : Nat) (n : AllowedipsNode P) : Allowedips P :=
  { s with mem := update s.mem p n }

def setSlot (s : Allowedips P) (σ : Slot Family) (c : Option Nat) : Allowedips P :=
  match σ with
  | .root f => { s with root := update s.root f c }
  | .bit p b => s.setNode p { s.mem p with bit := update (s.mem p).bit b c }

def setParent (s : Allowedips P) (p : Nat) (σ : Slot Family) : Allowedips P :=
  s.setNode p { s.mem p with parentBitPacked := σ }

def setPeer (s : Allowedips P) (p : Nat) (peer : Option P) : Allowedips P :=
  s.setNode p { s.mem p with peer := peer }

def kmemCacheFree (s : Allowedips P) (p : Nat) : Allowedips P := s.setNode p .zero

def callRcu (s : Allowedips P) (head : RcuHead) : Allowedips P := { s with rcu := s.rcu ++ [head] }

def listAddTail [DecidableEq P] (s : Allowedips P) (p : Nat) (peer : P) : Allowedips P :=
  { s with list := update s.list peer (s.list peer ++ [p]) }

def listDel (s : Allowedips P) (p : Nat) : Allowedips P :=
  { s with list := fun q => (s.list q).erase p }

def listMoveTail [DecidableEq P] (s : Allowedips P) (p : Nat) (peer : P) : Allowedips P :=
  (s.listDel p).listAddTail p peer

end Allowedips

/-! ### Stores -/

inductive AllowedipsStore (P : Type) where
  /-- `++table->seq` -/
  | seq
  | kmemCacheZalloc
  | kmemCacheFree (p : Nat)
  | peer (p : Nat) (peer : Option P)
  /-- The fields of a node that no reader has a pointer to. -/
  | copyAndAssignCidr (p : Nat) (src : Bytes) (cidr bits : Nat)
  | parentBitPacked (p : Nat) (σ : Slot Family)
  /-- A root or a child pointer. -/
  | slot (σ : Slot Family) (c : Option Nat)
  | listAddTail (p : Nat) (peer : P)
  | listDel (p : Nat)
  | listMoveTail (p : Nat) (peer : P)
  | callRcu (head : RcuHead)

def AllowedipsStore.exec {P : Type} [DecidableEq P] (s : Allowedips P) : AllowedipsStore P → Allowedips P
  | seq => { s with updates := s.updates + 1 }
  | kmemCacheZalloc => { s.setNode s.brk .zero with brk := s.brk + 1 }
  | kmemCacheFree p => s.kmemCacheFree p
  | peer p q => s.setPeer p q
  | copyAndAssignCidr p src cidr bits => s.setNode p ((s.mem p).copyAndAssignCidr src cidr bits)
  | parentBitPacked p σ => s.setParent p σ
  | slot σ c => s.setSlot σ c
  | listAddTail p q => s.listAddTail p q
  | listDel p => s.listDel p
  | listMoveTail p q => s.listMoveTail p q
  | callRcu head => s.callRcu head

/-- What the functions below work on: they read the memory as `state` has it, and change it by
stores. -/
class AllowedipsMemory (W : Type) (P : outParam Type) where
  state : W → Allowedips P
  store : W → AllowedipsStore P → W

open AllowedipsMemory in
/-- A store changes the memory as it says. -/
class LawfulMemory (W : Type) {P : Type} [DecidableEq P] [AllowedipsMemory W P] : Prop where
  state_store : ∀ (w : W) (st : AllowedipsStore P), state (store w st) = st.exec (state w)

instance {P : Type} [DecidableEq P] : AllowedipsMemory (Allowedips P) P where
  state s := s
  store := AllowedipsStore.exec

instance {P : Type} [DecidableEq P] : LawfulMemory (Allowedips P) := ⟨fun _ _ => rfl⟩

section
variable {W P : Type} [AllowedipsMemory W P] {m : Type → Type} [Monad m] (choose : AllowedipsNode P → Bytes → m Bool)

/-! ### Lookup -/

/-- The loop of `find_node`, at `node` with the best node so far. -/
def Allowedips.findNodeLoop (s : Allowedips P) (bits : Nat) (key : Bytes) :
    Nat → Option Nat → Option Nat → m (Option (Option Nat))
  | 0, _, _ => pure none
  | _ + 1, none, found => pure (some found)
  | fuel + 1, some p, found =>
    if (s.mem p).prefixMatches key bits then
      let found := if (s.mem p).peer.isSome then some p else found
      if (s.mem p).cidr = bits then pure (some found)
      else choose (s.mem p) key >>= fun b => s.findNodeLoop bits key fuel ((s.mem p).bit b) found
    else pure (some found)

/-! ### Insertion -/

/-- The loop of `node_placement`, at `node` with the last node passed. -/
def Allowedips.nodePlacementLoop (s : Allowedips P) (key : Bytes) (cidr bits : Nat) :
    Nat → Option Nat → Option Nat → m (Option (Option Nat × Bool))
  | 0, _, _ => pure none
  | _ + 1, none, parent => pure (some (parent, false))
  | fuel + 1, some p, parent =>
    if (s.mem p).cidr ≤ cidr ∧ (s.mem p).prefixMatches key bits then
      if (s.mem p).cidr = cidr then pure (some (some p, true))
      else choose (s.mem p) key >>= fun b => s.nodePlacementLoop key cidr bits fuel ((s.mem p).bit b) (some p)
    else pure (some (parent, false))

namespace AllowedipsMemory

def kmemCacheZalloc (w : W) (fail : Bool) : Option (Nat × W) :=
  if fail then none else some ((state w).brk, store w .kmemCacheZalloc)

def connectNode (w : W) (parent : Slot Family) (node : Nat) : W :=
  store (store w (.parentBitPacked node parent)) (.slot parent (some node))

def chooseAndConnectNode (w : W) (parent node : Nat) : m W :=
  (choose ((state w).mem parent) ((state w).mem node).bits) >>= fun b => pure (connectNode w (.bit parent b) node)

/-- `if (!parent) connect_node(trie, 2, node); else choose_and_connect_node(parent, node);` -/
def connectUnder (w : W) (trie : Family) (parent : Option Nat) (node : Nat) : m W :=
  match parent with
  | none => pure (connectNode w (.root trie) node)
  | some parent => chooseAndConnectNode choose w parent node

/-- A fresh node for `key/cidr` of `peer`, not connected yet. -/
def initNode (w : W) (p : Nat) (peer : P) (key : Bytes) (cidr bits : Nat) : W :=
  store (store (store w (.peer p (some peer))) (.listAddTail p peer)) (.copyAndAssignCidr p key cidr bits)

/-- The end of `add`: `newnode` goes above `down`, or beside it under a new internal node. -/
def addAbove (w : W) (trie : Family) (bits : Nat) (key : Bytes) (cidr : Nat) (parent : Option Nat)
    (newnode down : Nat) (fail : Bool) : m (Ret × W) :=
  let cidr := min cidr (commonBits ((state w).mem down).bits key bits)
  if ((state w).mem newnode).cidr = cidr then do
    let w ← chooseAndConnectNode choose w newnode down
    let w ← connectUnder choose w trie parent newnode
    pure (.ok, w)
  else
    match kmemCacheZalloc w fail with
    | none => pure (.enomem, store (store w (.listDel newnode)) (.kmemCacheFree newnode))
    | some (node, w) => do
      let w := store w (.copyAndAssignCidr node ((state w).mem newnode).bits cidr bits)
      let w ← chooseAndConnectNode choose w node down
      let w ← chooseAndConnectNode choose w node newnode
      let w ← connectUnder choose w trie parent node
      pure (.ok, w)

/-- Below `node`, at which the walk has ended, or above `top`. -/
def addUnder (w : W) (trie : Family) (bits : Nat) (key : Bytes) (cidr : Nat) (node : Option Nat) (newnode top : Nat)
    (fail : Bool) : m (Ret × W) :=
  match node with
  | none => addAbove choose w trie bits key cidr none newnode top fail
  | some node =>
    choose ((state w).mem node) key >>= fun bit =>
    match ((state w).mem node).bit bit with
    | none => pure (.ok, connectNode w (.bit node bit) newnode)
    | some down => addAbove choose w trie bits key cidr (some node) newnode down fail

def add (w : W) (trie : Family) (bits : Nat) (key : Bytes) (cidr : Nat) (peer : Option P) (fail₁ fail₂ : Bool) :
    m (Option (Ret × W)) :=
  match peer with
  | none => pure (some (.einval, w))
  | some peer =>
    if bits < cidr then pure (some (.einval, w))
    else
      match (state w).root trie with
      | none =>
        match kmemCacheZalloc w fail₁ with
        | none => pure (some (.enomem, w))
        | some (node, w) => pure (some (.ok, connectNode (initNode w node peer key cidr bits) (.root trie) node))
      | some top =>
        (state w).nodePlacementLoop choose key cidr bits (bits + 2) (some top) none >>= fun placement =>
        match placement with
        | none => pure none
        | some (some node, true) =>
          pure (some (.ok, store (store w (.peer node (some peer))) (.listMoveTail node peer)))
        | some (none, true) => pure none
        | some (node, false) =>
          match kmemCacheZalloc w fail₁ with
          | none => pure (some (.enomem, w))
          | some (newnode, w) =>
            some <$> addUnder choose (initNode w newnode peer key cidr bits) trie bits key cidr node newnode top fail₂

/-! ### Removal -/

/-- `if (child) child->parent_bit_packed = packed; *slot = child;` -/
def replaceSlot (w : W) (σ : Slot Family) (child : Option Nat) : W :=
  match child with
  | none => store w (.slot σ none)
  | some c => store (store w (.parentBitPacked c σ)) (.slot σ (some c))

/-- The body of the loop of `wg_allowedips_remove_by_peer`. -/
def removeNode (w : W) (node : Nat) : W :=
  let w := store (store w (.listDel node)) (.peer node none)
  let n := (state w).mem node
  if (n.bit false).isSome ∧ (n.bit true).isSome then w
  else
    let child := n.bit (n.bit false).isNone
    let w := replaceSlot w n.parentBitPacked child
    match n.parentBitPacked with
    | .root _ => store w (.callRcu (.nodeFree node))
    | .bit parent b =>
      if (n.bit false).isNone ∧ (n.bit true).isNone ∧ ((state w).mem parent).peer.isNone then
        let child := ((state w).mem parent).bit (!b)
        let w := store w (.callRcu (.nodeFree node))
        store (replaceSlot w ((state w).mem parent).parentBitPacked child) (.callRcu (.nodeFree parent))
      else store w (.callRcu (.nodeFree node))

/-- `list_for_each_entry_safe` runs over the list as it was: the body takes only its own node off
it. -/
def removeByPeer (w : W) (peer : P) : W :=
  if (state w).list peer = [] then w
  else ((state w).list peer).foldl removeNode (store w .seq)

end AllowedipsMemory

def maxAllowedipsDepth : Nat := 129

/-- `push_rcu`; `none` is a write past the end of the array. -/
def Allowedips.pushRcu (stack : List Nat) (p : Option Nat) : Option (List Nat) :=
  match p with
  | none => some stack
  | some p => if stack.length < maxAllowedipsDepth then some (p :: stack) else none

namespace AllowedipsMemory

/-- The loop of `root_remove_peer_lists`, with its stack. -/
def rootRemovePeerListsLoop (w : W) : Nat → List Nat → Option W
  | _, [] => some w
  | 0, _ :: _ => none
  | fuel + 1, node :: stack =>
    match (Allowedips.pushRcu stack (((state w).mem node).bit false)).bind
        (Allowedips.pushRcu · (((state w).mem node).bit true)) with
    | none => none
    | some stack =>
      rootRemovePeerListsLoop (if ((state w).mem node).peer.isSome then store w (.listDel node) else w) fuel stack

/-- `root_remove_peer_lists` and `call_rcu` for one of the two old roots. -/
def freeTrie (w : W) (bits : Nat) (old : Option Nat) : Option W :=
  match old with
  | none => some w
  | some node => (rootRemovePeerListsLoop w (2 ^ (bits + 1)) [node]).map (store · (.callRcu (.rootFree node)))

def free (w : W) : Option W :=
  let old4 := (state w).root .v4
  let old6 := (state w).root .v6
  let w := store (store (store w .seq) (.slot (.root .v4) none)) (.slot (.root .v6) none)
  (freeTrie w 32 old4).bind (freeTrie · 128 old6)

/-! ### What an insertion does with the `choose` of the code -/

abbrev connectChosen (w : W) (parent node : Nat) : W :=
  chooseAndConnectNode (m := Id) AllowedipsNode.choose w parent node

abbrev connectChosenUnder (w : W) (trie : Family) (parent : Option Nat) (node : Nat) : W :=
  connectUnder (m := Id) AllowedipsNode.choose w trie parent node

/-- A new node for `key/cidr` of `peer`. -/
def newnode (w : W) (peer : P) (key : Bytes) (cidr bits : Nat) : W :=
  initNode (store w .kmemCacheZalloc) (state w).brk peer key cidr bits

theorem state_newnode [DecidableEq P] [LawfulMemory W] (w : W) (peer : P) (key : Bytes) (cidr bits : Nat) :
    state (newnode w peer key cidr bits) = newnode (state w) peer key cidr bits := by
  simp only [newnode, initNode, LawfulMemory.state_store]
  rfl

/-- A new node without a peer, for the first `cidr` bits of `node`. -/
def internal (w : W) (node cidr bits : Nat) : W :=
  store (store w .kmemCacheZalloc)
    (.copyAndAssignCidr (state w).brk ((state (store w .kmemCacheZalloc)).mem node).bits cidr bits)

/-- How `add` ends above `down`, if the new node has `cidr` bits in common with it. -/
inductive AddedAbove (w : W) (trie : Family) (bits cidr : Nat) (parent : Option Nat) (n down : Nat) :
    Bool → Ret × W → Prop
  | fits {fail : Bool} (h : ((state w).mem n).cidr = cidr) : AddedAbove w trie bits cidr parent n down fail
      (.ok, connectChosenUnder (connectChosen w n down) trie parent n)
  | enomem (h : ((state w).mem n).cidr ≠ cidr) : AddedAbove w trie bits cidr parent n down true
      (.enomem, store (store w (.listDel n)) (.kmemCacheFree n))
  | split (h : ((state w).mem n).cidr ≠ cidr) : AddedAbove w trie bits cidr parent n down false
      (.ok, connectChosenUnder (connectChosen (connectChosen (internal w n cidr bits) (state w).brk
        down) (state w).brk n)
        trie parent (state w).brk)

theorem addedAbove (w : W) (trie : Family) (bits : Nat) (key : Bytes) (cidr : Nat) (parent : Option Nat) (n down : Nat)
    (fail : Bool) : AddedAbove w trie bits (min cidr (commonBits ((state w).mem down).bits key bits)) parent n down fail
      (addAbove (m := Id) AllowedipsNode.choose w trie bits key cidr parent n down fail) := by
  unfold addAbove
  dsimp only
  by_cases h : ((state w).mem n).cidr = min cidr (commonBits ((state w).mem down).bits key bits)
  · rw [if_pos h]
    exact .fits h
  · rw [if_neg h]
    cases fail with
    | true => exact .enomem h
    | false => exact .split h

section
variable [LawfulMonad m] {choose} {w : W} {trie : Family} {bits : Nat} {key : Bytes} {cidr p n top : Nat}
  {fail b : Bool}

theorem addUnder_free (hb : choose ((state w).mem p) key = pure b)
    (hslot : ((state w).mem p).bit b = none) :
    addUnder choose w trie bits key cidr (some p) n top fail =
      pure (.ok, connectNode w (.bit p b) n) := by
  simp only [addUnder, hb, pure_bind, hslot]

theorem addUnder_taken {down : Nat} (hb : choose ((state w).mem p) key = pure b)
    (hslot : ((state w).mem p).bit b = some down) :
    addUnder choose w trie bits key cidr (some p) n top fail =
      addAbove choose w trie bits key cidr (some p) n down fail := by
  simp only [addUnder, hb, pure_bind, hslot]

end

end AllowedipsMemory
end

/-! ### On the memory itself -/

namespace Allowedips
variable {P : Type}

/-- A walk meets nodes of growing `cidr`, at most `bits + 1` of them. -/
def findNode (s : Allowedips P) (trie : Option Nat) (bits : Nat) (key : Bytes) : Option (Option Nat) :=
  s.findNodeLoop (m := Id) AllowedipsNode.choose bits key (bits + 2) trie none

/-- `wg_peer_get_maybe_zero`: no reference to a peer whose count has dropped to zero. -/
def wgPeerGetMaybeZero (refcount : P → Nat) (peer : Option P) : Option P :=
  peer.filter fun q => refcount q ≠ 0

/-- `lookup`, with its `retry` loop on a peer that is being freed. -/
def lookup (s : Allowedips P) (refcount : P → Nat) (f : Family) (beIp : Bytes) : Nat → Option (Option P)
  | 0 => none
  | fuel + 1 =>
    match s.findNode (s.root f) f.bits (swapEndian beIp f.bits) with
    | none => none
    | some none => some none
    | some (some node) =>
      match wgPeerGetMaybeZero refcount (s.mem node).peer with
      | none => s.lookup refcount f beIp fuel
      | some peer => some (some peer)

def nodePlacement (s : Allowedips P) (trie : Option Nat) (key : Bytes) (cidr bits : Nat) : Option (Option Nat × Bool) :=
  s.nodePlacementLoop (m := Id) AllowedipsNode.choose key cidr bits (bits + 2) trie none

variable [DecidableEq P] (s : Allowedips P)

abbrev connectNode (parent : Slot Family) (node : Nat) : Allowedips P := AllowedipsMemory.connectNode s parent node

abbrev chooseAndConnectNode (parent node : Nat) : Allowedips P := AllowedipsMemory.connectChosen s parent node

theorem chooseAndConnectNode_eq (p n : Nat) :
    s.chooseAndConnectNode p n = s.connectNode (.bit p ((s.mem p).choose (s.mem n).bits)) n := rfl

abbrev connectUnder (trie : Family) (parent : Option Nat) (node : Nat) : Allowedips P :=
  AllowedipsMemory.connectChosenUnder s trie parent node

abbrev addAbove (trie : Family) (bits : Nat) (key : Bytes) (cidr : Nat) (parent : Option Nat) (newnode down : Nat)
    (fail : Bool) : Ret × Allowedips P :=
  AllowedipsMemory.addAbove (m := Id) AllowedipsNode.choose s trie bits key cidr parent newnode down fail

theorem addedAbove (trie : Family) (bits : Nat) (key : Bytes) (cidr : Nat) (parent : Option Nat)
    (n down : Nat) (fail : Bool) :
    AllowedipsMemory.AddedAbove s trie bits (min cidr (commonBits (s.mem down).bits key bits)) parent n down fail
      (s.addAbove trie bits key cidr parent n down fail) :=
  AllowedipsMemory.addedAbove ..

def add (trie : Family) (bits : Nat) (key : Bytes) (cidr : Nat) (peer : Option P) (fail₁ fail₂ : Bool) :
    Option (Ret × Allowedips P) :=
  AllowedipsMemory.add (m := Id) AllowedipsNode.choose s trie bits key cidr peer fail₁ fail₂

def wgAllowedipsInsertV4 (ip : Vector UInt8 4) (cidr : UInt8) (peer : Option P) (fail₁ fail₂ : Bool) :
    Option (Ret × Allowedips P) :=
  { s with updates := s.updates + 1 }.add .v4 32 (swapEndian ip.toList 32) cidr.toNat peer fail₁ fail₂

def wgAllowedipsInsertV6 (ip : Vector UInt8 16) (cidr : UInt8) (peer : Option P) (fail₁ fail₂ : Bool) :
    Option (Ret × Allowedips P) :=
  { s with updates := s.updates + 1 }.add .v6 128 (swapEndian ip.toList 128) cidr.toNat peer fail₁ fail₂

abbrev replaceSlot (σ : Slot Family) (child : Option Nat) : Allowedips P := AllowedipsMemory.replaceSlot s σ child

abbrev removeNode (node : Nat) : Allowedips P := AllowedipsMemory.removeNode s node

def wgAllowedipsRemoveByPeer (peer : P) : Allowedips P := AllowedipsMemory.removeByPeer s peer

theorem wgAllowedipsRemoveByPeer_eq (peer : P) : s.wgAllowedipsRemoveByPeer peer =
    if s.list peer = [] then s else (s.list peer).foldl removeNode { s with updates := s.updates + 1 } := rfl

abbrev rootRemovePeerListsLoop (fuel : Nat) (stack : List Nat) : Option (Allowedips P) :=
  AllowedipsMemory.rootRemovePeerListsLoop s fuel stack

def rootRemovePeerLists (bits root : Nat) : Option (Allowedips P) := s.rootRemovePeerListsLoop (2 ^ (bits + 1)) [root]

abbrev freeTrie (bits : Nat) (old : Option Nat) : Option (Allowedips P) := AllowedipsMemory.freeTrie s bits old

def wgAllowedipsFree : Option (Allowedips P) := AllowedipsMemory.free s

end Allowedips
end WireguardAes
