import WireguardAes.AllowedipsShape

/-!
# The stores of a writer (`allowedips.c`)

The insertions and the removal by peer as the sequence of stores they make, for a reader that runs
beside them. A writer holds the update lock, so what it reads is what it has stored itself;
`AllowedipsWriter s` is a writer that started on the memory `s`, and carries that its stores, in
their order, lead to the memory it sees. Each function is the one of `Allowedips` with its updates
of the state written as stores (the lemmas `state_…`).
-/

namespace WireguardAes

open PrefixForest

variable {P : Type} [DecidableEq P]

structure AllowedipsWriter (s : Allowedips P) where
  stores : List (AllowedipsStore P)
  /-- The memory as the writer sees it. -/
  state : Allowedips P
  stored : stores.foldl AllowedipsStore.exec s = state

namespace AllowedipsWriter
variable {s : Allowedips P}

def start (s : Allowedips P) : AllowedipsWriter s := ⟨[], s, rfl⟩

def store (w : AllowedipsWriter s) (st : AllowedipsStore P) : AllowedipsWriter s :=
  ⟨w.stores ++ [st], st.exec w.state, by rw [List.foldl_append, w.stored]; rfl⟩

instance : AllowedipsMemory (AllowedipsWriter s) P := ⟨state, store⟩

instance : LawfulMemory (AllowedipsWriter s) := ⟨fun _ _ => rfl⟩

variable (w : AllowedipsWriter s)

abbrev connectNode (parent : Slot Family) (node : Nat) : AllowedipsWriter s :=
  AllowedipsMemory.connectNode w parent node

abbrev chooseAndConnectNode (parent node : Nat) : AllowedipsWriter s := AllowedipsMemory.connectChosen w parent node

abbrev connectUnder (trie : Family) (parent : Option Nat) (node : Nat) : AllowedipsWriter s :=
  AllowedipsMemory.connectChosenUnder w trie parent node

abbrev addAbove (trie : Family) (bits : Nat) (key : Bytes) (cidr : Nat) (parent : Option Nat) (newnode down : Nat)
    (fail : Bool) : Ret × AllowedipsWriter s :=
  AllowedipsMemory.addAbove (m := Id) AllowedipsNode.choose w trie bits key cidr parent newnode down fail

def add (trie : Family) (bits : Nat) (key : Bytes) (cidr : Nat) (peer : Option P) (fail₁ fail₂ : Bool) :
    Option (Ret × AllowedipsWriter s) :=
  AllowedipsMemory.add (m := Id) AllowedipsNode.choose w trie bits key cidr peer fail₁ fail₂

abbrev replaceSlot (σ : Slot Family) (child : Option Nat) : AllowedipsWriter s := AllowedipsMemory.replaceSlot w σ child

abbrev removeNode (node : Nat) : AllowedipsWriter s := AllowedipsMemory.removeNode w node

abbrev removeByPeer (peer : P) : AllowedipsWriter s := AllowedipsMemory.removeByPeer w peer

/-! ### The memory after the stores -/

@[simp] theorem state_store (st : AllowedipsStore P) : (w.store st).state = st.exec w.state := rfl

@[simp] theorem state_chooseAndConnectNode (p n : Nat) :
    (w.chooseAndConnectNode p n).state = w.state.chooseAndConnectNode p n := rfl

@[simp] theorem state_connectUnder (f : Family) (parent : Option Nat) (n : Nat) :
    (w.connectUnder f parent n).state = w.state.connectUnder f parent n := by
  cases parent <;> rfl

@[simp] theorem state_replaceSlot (σ : Slot Family) (o : Option Nat) :
    (w.replaceSlot σ o).state = w.state.replaceSlot σ o := by
  cases o <;> rfl

theorem state_addAbove (f : Family) (bits : Nat) (key : Bytes) (cidr : Nat) (parent : Option Nat) (n d : Nat)
    (fail : Bool) : Prod.map id state (w.addAbove f bits key cidr parent n d fail) =
      w.state.addAbove f bits key cidr parent n d fail := by
  unfold addAbove Allowedips.addAbove AllowedipsMemory.addAbove
  dsimp only [AllowedipsMemory.state]
  split
  · exact Prod.ext rfl (state_connectUnder ..)
  · cases fail with
    | true => rfl
    | false => exact Prod.ext rfl (state_connectUnder ..)

theorem state_addUnder (f : Family) (bits : Nat) (key : Bytes) (cidr : Nat) (node : Option Nat)
    (n top : Nat) (fail : Bool) :
    Prod.map id state
      (AllowedipsMemory.addUnder (m := Id) AllowedipsNode.choose w f bits key cidr node n top
        fail : Ret × AllowedipsWriter s) =
      AllowedipsMemory.addUnder (m := Id) AllowedipsNode.choose w.state f bits key cidr node n top fail := by
  cases node with
  | none => exact state_addAbove ..
  | some p =>
    cases hslot : (w.state.mem p).bit ((w.state.mem p).choose key) with
    | none =>
      rw [AllowedipsMemory.addUnder_free rfl hslot, AllowedipsMemory.addUnder_free rfl hslot]
      rfl
    | some down =>
      rw [AllowedipsMemory.addUnder_taken rfl hslot, AllowedipsMemory.addUnder_taken rfl hslot]
      exact state_addAbove ..

theorem state_add (f : Family) (bits : Nat) (key : Bytes) (cidr : Nat) (peer : Option P) (fail₁ fail₂ : Bool) :
    (w.add f bits key cidr peer fail₁ fail₂).map (Prod.map id state) =
      w.state.add f bits key cidr peer fail₁ fail₂ := by
  unfold add Allowedips.add AllowedipsMemory.add
  cases peer with
  | none => rfl
  | some q =>
    dsimp only [AllowedipsMemory.state]
    split
    · rfl
    · rcases w.state.root f with _ | top
      · cases fail₁ <;> rfl
      · dsimp only
        rcases w.state.nodePlacementLoop (m := Id) AllowedipsNode.choose key cidr bits (bits + 2) (some top) none
          with _ | ⟨_ | node, _ | _⟩
        · rfl
        · cases fail₁ with
          | true => rfl
          | false => exact congrArg some (state_addUnder ..)
        · rfl
        · cases fail₁ with
          | true => rfl
          | false => exact congrArg some (state_addUnder ..)
        · rfl

theorem state_removeNode (n : Nat) : (w.removeNode n).state = w.state.removeNode n := by
  unfold removeNode Allowedips.removeNode AllowedipsMemory.removeNode
  dsimp only [AllowedipsMemory.state, AllowedipsMemory.store]
  generalize hw : (w.store (.listDel n)).store (.peer n none) = w₁
  obtain hs : AllowedipsStore.exec (AllowedipsStore.exec w.state (.listDel n)) (.peer n none) =
    w₁.state := congrArg state hw
  rw [hs]
  split
  · rfl
  · rcases (w₁.state.mem n).parentBitPacked with f | ⟨parent, b⟩
    · dsimp only
      rw [state_store, state_replaceSlot]
    · simp only [apply_ite state, state_store, state_replaceSlot]

theorem state_foldl_removeNode (l : List Nat) :
    (l.foldl removeNode w).state = l.foldl Allowedips.removeNode w.state := by
  induction l generalizing w with
  | nil => rfl
  | cons n l ih => rw [List.foldl_cons, List.foldl_cons, ih, state_removeNode]

theorem state_removeByPeer (q : P) : (w.removeByPeer q).state = w.state.wgAllowedipsRemoveByPeer q := by
  unfold removeByPeer AllowedipsMemory.removeByPeer
  rw [Allowedips.wgAllowedipsRemoveByPeer_eq]
  dsimp only [AllowedipsMemory.state]
  split
  · rfl
  · exact state_foldl_removeNode ..

end AllowedipsWriter

/-- A call that changes the tries beside readers. -/
inductive AllowedipsUpdate (P : Type) where
  | insertV4 (ip : Vector UInt8 4) (cidr : UInt8) (peer : Option P) (fail₁ fail₂ : Bool)
  | insertV6 (ip : Vector UInt8 16) (cidr : UInt8) (peer : Option P) (fail₁ fail₂ : Bool)
  | removeByPeer (peer : P)

namespace AllowedipsUpdate

def call : AllowedipsUpdate P → AllowedipsCall P
  | insertV4 ip cidr peer fail₁ fail₂ => .insertV4 ip cidr peer fail₁ fail₂
  | insertV6 ip cidr peer fail₁ fail₂ => .insertV6 ip cidr peer fail₁ fail₂
  | removeByPeer peer => .removeByPeer peer

def write (s : Allowedips P) : AllowedipsUpdate P → Option (Ret × AllowedipsWriter s)
  | insertV4 ip cidr peer fail₁ fail₂ =>
    ((AllowedipsWriter.start s).store .seq).add .v4 32 (swapEndian ip.toList 32) cidr.toNat peer fail₁ fail₂
  | insertV6 ip cidr peer fail₁ fail₂ =>
    ((AllowedipsWriter.start s).store .seq).add .v6 128 (swapEndian ip.toList 128) cidr.toNat peer fail₁ fail₂
  | removeByPeer peer => some (.ok, (AllowedipsWriter.start s).removeByPeer peer)

/-- The stores of a call lead to the memory that the call leaves. -/
theorem map_write (s : Allowedips P) (u : AllowedipsUpdate P) :
    (u.write s).map (Prod.map id AllowedipsWriter.state) = u.call.exec s := by
  cases u with
  | insertV4 ip cidr peer fail₁ fail₂ => exact AllowedipsWriter.state_add ..
  | insertV6 ip cidr peer fail₁ fail₂ => exact AllowedipsWriter.state_add ..
  | removeByPeer peer =>
    show some (Ret.ok, _) = some (Ret.ok, _)
    rw [AllowedipsWriter.state_removeByPeer]
    rfl

end AllowedipsUpdate
end WireguardAes
