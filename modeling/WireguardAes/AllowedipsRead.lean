import WireguardAes.AllowedipsRuns

/-!
# Reading the allowed IPs back (`allowedips.c`)

`wg_allowedips_read_node` turns the key of a node back into an address, with the bits behind the
prefix cleared. The nodes on the list of a peer read as the prefixes that the table has for this
peer, each of them once. Every call that changes a list counts `seq` up, so that a reader that comes
back knows whether the node it stopped at is still there.
-/

namespace WireguardAes

open PrefixForest BitPrefix ByteOrder

/-- `struct in6_addr`, the longest key. -/
def maxKeyLen : Nat := 16

/-- `memset(ip + cidr_bytes, 0, len - cidr_bytes)`, and the mask over the last byte of the
prefix. -/
def clearBehind (ip : Bytes) (len cidr : Nat) : Bytes :=
  let cidrBytes := (cidr + 7) / 8
  let ip := ip.take cidrBytes ++ List.replicate (len - cidrBytes) 0
  if cidr ≠ 0 then ip.modify (cidrBytes - 1) (· &&& 0xFF <<< UInt8.ofNat ((8 - cidr % 8) % 8)) else ip

/-- The family, the address and the `cidr` of a node. -/
def AllowedipsNode.wgAllowedipsReadNode {P : Type} (node : AllowedipsNode P) : Family × Bytes × Nat :=
  (if node.bitlen = 32 then .v4 else .v6, clearBehind (swapEndian node.bits node.bitlen)
    (node.bitlen / 8) node.cidr, node.cidr)

namespace Allowedips
variable {P : Type} {s s' s'' : Allowedips P}
variable {ip : Bytes} {cidr : Nat}

/-! ### What the stores leave alone -/

/-- `u8 bits[16]` -/
def Sized (s : Allowedips P) : Prop := ∀ p, (s.mem p).bits.length = maxKeyLen

/-- What a call does after it has counted `seq` up. -/
structure Stored (s s' : Allowedips P) : Prop where
  updates : s'.updates = s.updates
  sized : s.Sized → s'.Sized

namespace Stored

theorem refl (s : Allowedips P) : Stored s s := ⟨rfl, id⟩

theorem trans (h : Stored s s') (h' : Stored s' s'') : Stored s s'' :=
  ⟨h'.updates.trans h.updates, fun hs => h'.sized (h.sized hs)⟩

theorem callRcu (s : Allowedips P) (head : RcuHead) : Stored s (s.callRcu head) := ⟨rfl, id⟩

theorem listDel (s : Allowedips P) (p : Nat) : Stored s (s.listDel p) := ⟨rfl, id⟩

theorem setNode (s : Allowedips P) (p : Nat) {n : AllowedipsNode P} (hn : s.Sized → n.bits.length = maxKeyLen) :
    Stored s (s.setNode p n) := by
  refine ⟨rfl, fun hs q => ?_⟩
  simp only [Allowedips.setNode, Function.update_apply]
  split
  · exact hn hs
  · exact hs q

theorem setSlot (s : Allowedips P) (σ : Slot Family) (c : Option Nat) : Stored s (s.setSlot σ c) := by
  rcases σ with f | ⟨p, b⟩
  · exact ⟨rfl, id⟩
  · exact setNode s p fun hs => hs p

theorem setParent (s : Allowedips P) (p : Nat) (σ : Slot Family) : Stored s (s.setParent p σ) :=
  setNode s p fun hs => hs p

theorem setPeer (s : Allowedips P) (p : Nat) (q : Option P) : Stored s (s.setPeer p q) := setNode s p fun hs => hs p

theorem kmemCacheFree (s : Allowedips P) (p : Nat) : Stored s (s.kmemCacheFree p) := setNode s p fun _ => rfl

variable {f : Family}

theorem length_copyAndAssignCidr {n : AllowedipsNode P} (hn : n.bits.length = maxKeyLen) {src : Bytes} (cidr : Nat)
    (hsrc : f.bits / 8 ≤ src.length) : (n.copyAndAssignCidr src cidr f.bits).bits.length = maxKeyLen := by
  have hf : f.bits / 8 ≤ maxKeyLen := by cases f <;> decide
  simp only [AllowedipsNode.copyAndAssignCidr, List.length_append, List.length_take, List.length_drop, hn]
  omega

variable [DecidableEq P]

theorem kmemCacheZalloc (s : Allowedips P) : Stored s (AllowedipsStore.kmemCacheZalloc.exec s) :=
  (setNode s s.brk fun _ => rfl).trans ⟨rfl, id⟩

theorem connectNode (s : Allowedips P) (σ : Slot Family) (n : Nat) : Stored s (s.connectNode σ n) :=
  (setParent s n σ).trans (setSlot _ _ _)

theorem chooseAndConnectNode (s : Allowedips P) (p n : Nat) : Stored s (s.chooseAndConnectNode p n) :=
  connectNode s (.bit p ((s.mem p).choose (s.mem n).bits)) n

theorem connectUnder (s : Allowedips P) (f : Family) (parent : Option Nat) (n : Nat) :
    Stored s (s.connectUnder f parent n) := by
  rcases parent with - | parent
  · exact connectNode s (.root f) n
  · exact chooseAndConnectNode s parent n

theorem replaceSlot (s : Allowedips P) (σ : Slot Family) (child : Option Nat) : Stored s (s.replaceSlot σ child) := by
  rcases child with - | c
  · exact setSlot s σ none
  · exact (setParent s c σ).trans (setSlot _ _ _)

theorem removeNode (s : Allowedips P) (p : Nat) : Stored s (s.removeNode p) := by
  have hdel : Stored s ((s.listDel p).setPeer p none) := (listDel s p).trans (setPeer _ _ _)
  unfold Allowedips.removeNode AllowedipsMemory.removeNode
  dsimp only [AllowedipsMemory.state, AllowedipsMemory.store, AllowedipsStore.exec]
  generalize (s.listDel p).setPeer p none = t at hdel ⊢
  split
  · exact hdel
  have hrep : Stored t (AllowedipsMemory.replaceSlot t (t.mem p).parentBitPacked _) :=
    replaceSlot t (t.mem p).parentBitPacked ((t.mem p).bit ((t.mem p).bit false).isNone)
  refine hdel.trans (hrep.trans ?_)
  generalize AllowedipsMemory.replaceSlot t (t.mem p).parentBitPacked ((t.mem p).bit ((t.mem p).bit false).isNone) = u
  split
  · exact callRcu u _
  split
  · exact ((callRcu u _).trans (replaceSlot _ _ _)).trans (callRcu _ _)
  · exact callRcu u _

theorem foldl_removeNode (l : List Nat) (s : Allowedips P) : Stored s (l.foldl Allowedips.removeNode s) := by
  induction l generalizing s with
  | nil => exact refl s
  | cons p l ih => exact (removeNode s p).trans (ih _)

theorem rootRemovePeerListsLoop {fuel : Nat} {stack : List Nat} (h : s.rootRemovePeerListsLoop fuel stack = some s') :
    Stored s s' := by
  induction fuel generalizing s stack with
  | zero =>
    rcases stack with - | ⟨p, stack⟩
    · cases h
      exact refl _
    · cases h
  | succ fuel ih =>
    rcases stack with - | ⟨p, stack⟩
    · cases h
      exact refl _
    unfold Allowedips.rootRemovePeerListsLoop AllowedipsMemory.rootRemovePeerListsLoop at h
    split at h
    · cases h
    · refine trans ?_ (ih h)
      split
      · exact listDel s p
      · exact refl s

theorem freeTrie {bits : Nat} {old : Option Nat} (h : s.freeTrie bits old = some s') : Stored s s' := by
  rcases old with - | node
  · cases h
    exact refl s
  · obtain ⟨t, ht, hs⟩ := Option.map_eq_some_iff.mp h
    subst hs
    exact (rootRemovePeerListsLoop ht).trans (callRcu _ _)

theorem internal (s : Allowedips P) (f : Family) (n k : Nat) : Stored s (AllowedipsMemory.internal s n k f.bits) := by
  refine (kmemCacheZalloc s).trans (setNode _ s.brk fun hs => length_copyAndAssignCidr (hs s.brk) _ ?_)
  exact (by cases f <;> decide : f.bits / 8 ≤ maxKeyLen).trans_eq (hs n).symm

theorem addAbove (s : Allowedips P) (f : Family) (key : Bytes) (cidr : Nat) (parent : Option Nat) (n down : Nat)
    (fail : Bool) : Stored s (s.addAbove f f.bits key cidr parent n down fail).2 := by
  have hends := s.addedAbove f f.bits key cidr parent n down fail
  generalize s.addAbove f f.bits key cidr parent n down fail = res at hends ⊢
  generalize min cidr (commonBits (s.mem down).bits key f.bits) = k at hends
  cases hends with
  | fits => exact (chooseAndConnectNode s n down).trans (connectUnder _ _ _ _)
  | enomem => exact (listDel s n).trans (kmemCacheFree _ _)
  | split =>
    refine (internal s f n k).trans ?_
    exact ((chooseAndConnectNode _ s.brk down).trans (chooseAndConnectNode _ s.brk n)).trans (connectUnder _ _ _ _)

theorem newnode (s : Allowedips P) (q : P) {key : Bytes} (cidr : Nat) (hkey : f.bits / 8 ≤ key.length) :
    Stored s (AllowedipsMemory.newnode s q key cidr f.bits) := by
  have hlist : Stored s (((AllowedipsStore.kmemCacheZalloc.exec s).setPeer s.brk (some q)).listAddTail s.brk q) :=
    (kmemCacheZalloc s).trans ((setPeer _ s.brk (some q)).trans ⟨rfl, id⟩)
  exact hlist.trans (setNode _ s.brk fun hs => length_copyAndAssignCidr (hs s.brk) cidr hkey)

theorem addUnder (s : Allowedips P) (f : Family) (key : Bytes) (cidr : Nat) (node : Option Nat)
    (n top : Nat) (fail : Bool) :
    Stored s (AllowedipsMemory.addUnder (m := Id) AllowedipsNode.choose s f f.bits key cidr node n top fail).2 := by
  rcases node with - | p
  · exact addAbove ..
  · cases hslot : (s.mem p).bit ((s.mem p).choose key) with
    | none => rw [AllowedipsMemory.addUnder_free rfl hslot]; exact connectNode ..
    | some down => rw [AllowedipsMemory.addUnder_taken rfl hslot]; exact addAbove ..

theorem add {key : Bytes} (hkey : f.bits / 8 ≤ key.length) {cidr : Nat} {q : Option P} {fail₁ fail₂ : Bool}
    {r : Ret} (h : s.add f f.bits key cidr q fail₁ fail₂ = some (r, s')) : Stored s s' := by
  rcases q with - | q
  · cases h
    exact refl s
  unfold Allowedips.add AllowedipsMemory.add at h
  dsimp only [AllowedipsMemory.state] at h
  by_cases hbad : f.bits < cidr
  · rw [if_pos hbad] at h
    cases h
    exact refl s
  rw [if_neg hbad] at h
  cases hroot : s.root f with
  | none =>
    rw [hroot] at h
    cases fail₁ with
    | true =>
      cases h
      exact refl s
    | false =>
      cases h
      exact (newnode s q cidr hkey).trans (connectNode _ _ _)
  | some top =>
    rw [hroot] at h
    dsimp only at h
    generalize s.nodePlacementLoop (m := Id) AllowedipsNode.choose key cidr f.bits (f.bits + 2)
      (some top) none = placement at h
    have hunder : ∀ node, (if fail₁ then some (Ret.enomem, s) else some (AllowedipsMemory.addUnder (m := Id)
        AllowedipsNode.choose (AllowedipsMemory.newnode s q key cidr f.bits) f f.bits key cidr node s.brk top fail₂)) =
          some (r, s') → Stored s s' := by
      intro node hnode
      cases fail₁ with
      | true =>
        cases hnode
        exact refl s
      | false =>
        rw [show s' = (r, s').2 from rfl, ← Option.some.inj hnode]
        exact (newnode s q cidr hkey).trans (addUnder ..)
    rcases placement with - | ⟨- | p, - | -⟩
    · cases h
    · refine hunder none (Eq.trans ?_ h)
      cases fail₁ <;> rfl
    · cases h
    · refine hunder (some p) (Eq.trans ?_ h)
      cases fail₁ <;> rfl
    · cases h
      exact (setPeer s p (some q)).trans ⟨rfl, id⟩

end Stored

/-- A call counts `seq` up, or leaves the lists alone. -/
structure Counted (s s' : Allowedips P) : Prop where
  sized : s.Sized → s'.Sized
  updates : s'.updates = s.updates + 1 ∨ s'.updates = s.updates ∧ s'.list = s.list

theorem Stored.counted (h : Stored { s with updates := s.updates + 1 } s') : Counted s s' := ⟨h.sized, .inl h.updates⟩

theorem Counted.updates_le (h : Counted s s') : s.updates ≤ s'.updates := by
  rcases h.updates with hup | ⟨hsame, -⟩
  · omega
  · omega

theorem Counted.refl (s : Allowedips P) : Counted s s := ⟨id, .inr ⟨rfl, rfl⟩⟩

theorem stored_removeByPeer [DecidableEq P] {q : P} (h : s.list q ≠ []) :
    Stored { s with updates := s.updates + 1 } (s.wgAllowedipsRemoveByPeer q) := by
  rw [wgAllowedipsRemoveByPeer_eq, if_neg h]
  exact .foldl_removeNode _ _

theorem counted_removeByPeer [DecidableEq P] (s : Allowedips P) (q : P) : Counted s (s.wgAllowedipsRemoveByPeer q) := by
  by_cases h : s.list q = []
  · rw [wgAllowedipsRemoveByPeer_eq, if_pos h]
    exact .refl s
  · exact (stored_removeByPeer h).counted

theorem counted_exec [DecidableEq P] {c : AllowedipsCall P} {r : Ret} (h : c.exec s = some (r, s')) : Counted s s' := by
  rcases c with ⟨ip, cidr, q, fail₁, fail₂⟩ | ⟨ip, cidr, q, fail₁, fail₂⟩ | q | _
  · exact (Stored.add (f := .v4) (by simp [swapEndian, Family.bits]) h).counted
  · exact (Stored.add (f := .v6) (by simp [swapEndian, Family.bits]) h).counted
  · cases h
    exact counted_removeByPeer s q
  · obtain ⟨t, ht, hs⟩ := Option.map_eq_some_iff.mp h
    cases hs
    obtain ⟨u, hu, hfree⟩ := Option.bind_eq_some_iff.mp ht
    have hfirst := Stored.freeTrie hu
    exact Stored.counted ⟨((hfirst.trans (.freeTrie hfree)).updates), fun hs =>
      (hfirst.trans (.freeTrie hfree)).sized hs⟩

/-- After any calls, every key fills its field. -/
theorem sized_run [DecidableEq P] {cs : List (AllowedipsCall P)} {rs : List Ret} (hs : s.Sized)
    (h : AllowedipsCall.run s cs = some (rs, s')) : s'.Sized := by
  induction cs generalizing s rs with
  | nil =>
    cases h
    exact hs
  | cons c cs ih =>
    obtain ⟨⟨r, t⟩, ht, hrun⟩ := Option.bind_eq_some_iff.mp h
    obtain ⟨⟨rs', u⟩, hu, heq⟩ := Option.map_eq_some_iff.mp hrun
    cases heq
    exact ih ((counted_exec ht).sized hs) hu

/-! ### The address of a node -/

theorem beNat_swapEndian {bits : Nat} (hb : Width bits) {k : Bytes} (hk : k.length = maxKeyLen) :
    beNat (swapEndian k bits) = keyNat bits k := by
  rcases hb with rfl | rfl
  · exact beNat_reverse (k.take 4)
  · have h8 : ((k.drop 8).take 8).length = 8 := by
      rw [List.length_take, List.length_drop, hk]
      rfl
    rw [swapEndian, if_neg (by decide), if_pos rfl, ← List.reverse_append, beNat_reverse, leNat_append, h8]
    rfl

theorem length_swapEndian {bits : Nat} (hb : Width bits) {k : Bytes} (hk : k.length = maxKeyLen) :
    (swapEndian k bits).length = bits / 8 := by
  rcases hb with rfl | rfl
  · simp [swapEndian, hk, maxKeyLen]
  · simp [swapEndian, hk, maxKeyLen]

theorem testBit_byteMask :
    ∀ r < 8, ∀ b < 8, ((0xFF : UInt8) <<< UInt8.ofNat r).toNat.testBit b = decide (r ≤ b) := by decide

theorem getElem?_keepFront (ip : Bytes) {k j : Nat} (hk : k ≤ ip.length) (hj : j < ip.length) :
    (ip.take k ++ List.replicate (ip.length - k) 0)[j]? = some (if j < k then ip.getD j 0 else 0) := by
  have htake : (ip.take k).length = k := by
    rw [List.length_take]
    omega
  rw [List.getElem?_append, htake]
  split
  · rw [List.getElem?_take_of_lt ‹_›, List.getD_eq_getElem?_getD, List.getElem?_eq_getElem hj, Option.getD_some]
  · rw [List.getElem?_replicate, if_pos (by omega)]

theorem getD_clearBehind {j : Nat} (hc : cidr ≤ 8 * ip.length) (hj : j < ip.length) :
    (clearBehind ip ip.length cidr).getD j 0 =
      if 8 * (j + 1) ≤ cidr then ip.getD j 0
      else if 8 * j < cidr then ip.getD j 0 &&& 0xFF <<< UInt8.ofNat (8 * (j + 1) - cidr)
      else 0 := by
  have hfront := getElem?_keepFront ip (k := (cidr + 7) / 8) (by omega) hj
  unfold clearBehind
  dsimp only
  rw [List.getD_eq_getElem?_getD]
  split
  · rw [List.getElem?_modify, hfront, Option.map_eq_map, Option.map_some, Option.getD_some]
    by_cases hlast : (cidr + 7) / 8 - 1 = j
    · rw [if_pos hlast, if_pos (by omega : j < (cidr + 7) / 8)]
      by_cases hwhole : 8 * (j + 1) ≤ cidr
      · have hmask : (0xFF : UInt8) <<< (0 : UInt8) = -1 := by decide
        have hshift : (8 - cidr % 8) % 8 = 0 := by omega
        rw [if_pos hwhole, hshift]
        exact (congrArg (ip.getD j 0 &&& ·) hmask).trans UInt8.and_neg_one
      · have hshift : (8 - cidr % 8) % 8 = 8 * (j + 1) - cidr := by omega
        rw [if_neg hwhole, if_pos (by omega), hshift]
    · rw [if_neg hlast]
      by_cases hin : j < (cidr + 7) / 8
      · rw [if_pos hin, if_pos (by omega)]
      · rw [if_neg hin, if_neg (by omega), if_neg (by omega)]
  case isFalse h0 =>
    rw [hfront, Option.getD_some, if_neg (by omega), if_neg (by omega), if_neg (by omega)]

theorem length_clearBehind (hc : cidr ≤ 8 * ip.length) :
    (clearBehind ip ip.length cidr).length = ip.length := by
  unfold clearBehind
  dsimp only
  split <;> simp <;> omega

/-- Clearing the bytes behind the prefix and the low bits of its last byte clears the bits behind
the prefix. -/
theorem beNat_clearBehind (hc : cidr ≤ 8 * ip.length) :
    beNat (clearBehind ip ip.length cidr) = mask (8 * ip.length) cidr (beNat ip) := by
  have hlen := length_clearBehind hc
  refine Nat.eq_of_testBit_eq fun i => ?_
  rw [testBit_mask]
  by_cases hi : i < 8 * ip.length
  · rw [testBit_beNat (by rwa [hlen]), testBit_beNat hi, hlen, getD_clearBehind hc (by omega)]
    generalize hj : ip.length - 1 - i / 8 = j
    split
    · rw [decide_eq_true (by omega), Bool.true_and]
    split
    · rw [UInt8.toNat_and, Nat.testBit_and, testBit_byteMask _ (by omega) _ (by omega), Bool.and_comm]
      congr 1
      exact decide_eq_decide.mpr (by omega)
    · rw [decide_eq_false (by omega), Bool.false_and]
      exact Nat.zero_testBit _
  · have hle : 2 ^ (8 * ip.length) ≤ 2 ^ i := Nat.pow_le_pow_right (by decide) (Nat.le_of_not_lt hi)
    rw [Nat.testBit_lt_two_pow (Nat.lt_of_lt_of_le (beNat_lt ip) hle), Bool.and_false]
    exact Nat.testBit_lt_two_pow (Nat.lt_of_lt_of_le (beNat_lt _) (by rwa [hlen]))

/-! ### The nodes of a peer -/

variable {L : Set Nat} {T : PrefixTable Family P} {p : Nat}

theorem readNode_spec (hi : Inv s L) (hs : s.Sized) (hp : p ∈ L) :
    ∃ ip, (s.mem p).wgAllowedipsReadNode = (s.forest.fam p, ip, s.forest.cidr p) ∧ ip.length =
      (s.forest.fam p).bits / 8 ∧
      beNat ip = mask (s.forest.fam p).bits (s.forest.cidr p) (s.forest.key p) := by
  have hw := (hi.node p hp).width
  have hbitlen : (s.mem p).bitlen = (s.forest.fam p).bits := hi.bitlen hp rfl
  have hlen := length_swapEndian hw (hs p)
  have hbits : 8 * ((s.mem p).bitlen / 8) = (s.mem p).bitlen := by
    rcases hw with h | h <;> rw [h]
  have hcidr : (s.mem p).cidr ≤ 8 * (swapEndian (s.mem p).bits (s.mem p).bitlen).length := by
    rw [hlen, hbits, hbitlen]
    exact hi.cidr_le hp rfl
  have hnum := beNat_clearBehind hcidr
  have hcleared := length_clearBehind hcidr
  rw [hlen] at hnum hcleared
  rw [hbits, beNat_swapEndian hw (hs p)] at hnum
  refine ⟨clearBehind (swapEndian (s.mem p).bits (s.mem p).bitlen) ((s.mem p).bitlen / 8) (s.mem p).cidr, rfl, ?_, ?_⟩
  · rw [hcleared, hbitlen]
  · rw [hnum, ← hbitlen]
    rfl

/-- The prefixes on the list of a peer. -/
def peerEntries (s : Allowedips P) (q : P) : List (Family × Bytes × Nat) :=
  (s.list q).map fun p => (s.mem p).wgAllowedipsReadNode

/-- Two nodes never read as the same prefix. -/
theorem nodup_peerEntries (hi : Inv s L) (hs : s.Sized) (q : P) : (s.peerEntries q).Nodup := by
  refine (List.nodup_map_iff_inj_on (hi.nodup q)).mpr fun a ha b hb heq => ?_
  have haL := ((hi.list q a).mp ha).1
  have hbL := ((hi.list q b).mp hb).1
  obtain ⟨ipa, hra, -, hna⟩ := readNode_spec hi hs haL
  obtain ⟨ipb, hrb, -, hnb⟩ := readNode_spec hi hs hbL
  rw [hra, hrb, Prod.mk.injEq, Prod.mk.injEq] at heq
  obtain ⟨hfam, hip, hcidr⟩ := heq
  refine hi.linked.eq_of_prefix_eq haL hbL hfam hcidr ?_
  rw [hip, hnb] at hna
  unfold Forest.Matches
  rw [← mask_eq_iff, ← hna, hfam, hcidr]

theorem mem_peerEntries (hi : Inv s L) (hs : s.Sized) (hT : Reads Family.bits s.forest L T) {q : P}
    {f : Family} {ip : Bytes}
    {c : Nat} : (f, ip, c) ∈ s.peerEntries q ↔ ip.length = f.bits / 8 ∧ T f (beNat ip) c = some q := by
  rw [hT f (beNat ip) c q]
  constructor
  · intro h
    obtain ⟨p, hp, hread⟩ := List.mem_map.mp h
    obtain ⟨hpL, hpeer⟩ := (hi.list q p).mp hp
    obtain ⟨ip', hspec, hlen, hnum⟩ := readNode_spec hi hs hpL
    rw [hspec, Prod.mk.injEq, Prod.mk.injEq] at hread
    obtain ⟨rfl, rfl, rfl⟩ := hread
    exact ⟨hlen, p, hpL, rfl, hnum.symm, rfl, hpeer⟩
  · rintro ⟨hlen, p, hpL, hfam, hmask, hcidr, hval⟩
    dsimp only at hfam hmask hcidr hval
    obtain ⟨ip', hspec, hlen', hnum⟩ := readNode_spec hi hs hpL
    have hip : ip' = ip := beNat_inj (by rw [hlen', hlen, hfam]) (hnum.trans hmask)
    refine List.mem_map.mpr ⟨p, (hi.list q p).mpr ⟨hpL, hval⟩, ?_⟩
    rw [hspec, hfam, hip, hcidr]

end Allowedips
end WireguardAes
