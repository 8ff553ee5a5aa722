import WireguardAes.AllowedipsRead

/-!
# Where `choose` is applied (`allowedips.c`)

`choose` reads the byte `bit_at_a` of a key, which is one of the key as long as the prefix of the
node is shorter than the address. The functions that call it are run here with a `choose` that fails
otherwise; in every trie that can be reached they return what they return with the one of the code.
-/

namespace WireguardAes

open PrefixForest BitPrefix ByteOrder

/-- Bit number `i` of an address in network byte order, from the most significant bit of its first
byte. -/
def networkBit (ip : Bytes) (i : Nat) : Bool := (ip.getD (i / 8) 0).toNat.testBit (7 - i % 8)

theorem msb_beNat {bits : Nat} (hb : Width bits) {ip : Bytes} (hlen : ip.length = bits / 8) {i : Nat} (hi : i < bits) :
    msb bits (beNat ip) i = networkBit ip i := by
  have hbits : 8 * ip.length = bits := by rcases hb with rfl | rfl <;> omega
  rw [msb, testBit_beNat (by omega), networkBit, show ip.length - 1 - (bits - 1 - i) / 8 = i / 8 by omega,
    show (bits - 1 - i) % 8 = 7 - i % 8 by omega]

theorem bitAtA_lt {bits cidr : Nat} (hb : Width bits) (hc : cidr < bits) : bitAtA cidr bits < bits / 8 := by
  rcases hb with rfl | rfl
  · have hxor : bitAtA cidr 32 = 3 - cidr / 8 := bitAtA_xor3 _ (by omega)
    omega
  · have hxor : bitAtA cidr 128 = if cidr / 8 < 8 then 7 - cidr / 8 else 23 - cidr / 8 := bitAtA_xor7 _ (by omega)
    rw [hxor]
    split <;> omega

namespace AllowedipsNode
variable {P : Type} {node : AllowedipsNode P} {bits : Nat} {key : Bytes}

/-- `choose`, which fails unless the prefix of the node is shorter than the address and the byte is
one of the key. -/
def chooseChecked (bits : Nat) (node : AllowedipsNode P) (key : Bytes) : Option Bool :=
  if node.cidr < bits ∧ node.bitAtA < bits / 8 ∧ node.bitAtA < key.length then some (node.choose key) else none

/-- The node has been filled in with a prefix that is shorter than the address. -/
structure Choosable (node : AllowedipsNode P) (bits : Nat) : Prop extends node.Assigned where
  bitlen : node.bitlen = bits
  lt : node.cidr < bits

theorem Choosable.chooseChecked (h : node.Choosable bits) (hlen : bits / 8 ≤ key.length) :
    node.chooseChecked bits key = some (node.choose key) := by
  have hat : node.bitAtA < bits / 8 := by
    rw [h.bitAtA, h.bitlen]
    exact bitAtA_lt (h.bitlen ▸ h.width) h.lt
  exact if_pos ⟨h.lt, hat, Nat.lt_of_lt_of_le hat hlen⟩

end AllowedipsNode

namespace Allowedips
variable {P : Type}

/-! ### The functions with the check -/

def findNodeChecked (s : Allowedips P) (trie : Option Nat) (bits : Nat) (key : Bytes) : Option (Option Nat) :=
  (s.findNodeLoop (AllowedipsNode.chooseChecked bits) bits key (bits + 2) trie none).join

def addChecked [DecidableEq P] (s : Allowedips P) (trie : Family) (bits : Nat) (key : Bytes) (cidr : Nat)
    (peer : Option P) (fail₁ fail₂ : Bool) : Option (Ret × Allowedips P) :=
  (AllowedipsMemory.add (AllowedipsNode.chooseChecked bits) s trie bits key cidr peer fail₁ fail₂).join

variable {s s' : Allowedips P} {L : Set Nat} {p n d : Nat} {f : Family} {key : Bytes} {cidr : Nat}

/-! ### The check never fails -/

theorem Inv₀.choosable (h : Inv₀ s L) (hp : p ∈ L) (hf : s.forest.fam p = f) (hc : (s.mem p).cidr < f.bits) :
    (s.mem p).Choosable f.bits :=
  ⟨h.node p hp, h.bitlen hp hf, hc⟩

theorem Relinked.choosable (h : Relinked s s') (hp : (s.mem p).Choosable f.bits) : (s'.mem p).Choosable f.bits := by
  refine ⟨h.assigned hp.toAssigned, ?_, ?_⟩
  · rw [h.data p]
    exact hp.bitlen
  · rw [h.data p]
    exact hp.lt

theorem Inv₀.findNodeLoop_checked (h : Inv₀ s L) (hlen : f.bits / 8 ≤ key.length) (fuel : Nat) (node found : Option Nat)
    (hnode : ∀ p, node = some p → p ∈ L ∧ s.forest.fam p = f) :
    s.findNodeLoop (AllowedipsNode.chooseChecked f.bits) f.bits key fuel node found =
      some (s.findNodeLoop (m := Id) AllowedipsNode.choose f.bits key fuel node found) := by
  induction fuel generalizing node found with
  | zero => rfl
  | succ fuel ih =>
    rcases node with - | p
    · rfl
    obtain ⟨hp, hf⟩ := hnode p rfl
    rw [findNodeLoop, findNodeLoop]
    split
    · dsimp only
      split
      · rfl
      case isFalse hne =>
        have hc : (s.mem p).cidr < f.bits := lt_of_le_of_ne (h.cidr_le hp hf) hne
        rw [(h.choosable hp hf hc).chooseChecked hlen]
        refine ih _ _ fun c hc => ?_
        obtain ⟨hcL, hcf, -⟩ := h.choose_next hp hf hc
        exact ⟨hcL, hcf⟩
    · rfl

theorem Inv₀.findNodeChecked_eq (h : Inv₀ s L) (hlen : f.bits / 8 ≤ key.length) :
    s.findNodeChecked (s.root f) f.bits key = s.findNode (s.root f) f.bits key :=
  congrArg Option.join (h.findNodeLoop_checked hlen _ _ _ fun _ hp => h.root_spec hp)

theorem Inv₀.nodePlacementLoop_checked (h : Inv₀ s L) (hlen : f.bits / 8 ≤ key.length) (hc : cidr ≤ f.bits) (fuel : Nat)
    (node parent : Option Nat) (hnode : ∀ p, node = some p → p ∈ L ∧ s.forest.fam p = f) :
    s.nodePlacementLoop (AllowedipsNode.chooseChecked f.bits) key cidr f.bits fuel node parent =
      some (s.nodePlacementLoop (m := Id) AllowedipsNode.choose key cidr f.bits fuel node parent) := by
  induction fuel generalizing node parent with
  | zero => rfl
  | succ fuel ih =>
    rcases node with - | p
    · rfl
    obtain ⟨hp, hf⟩ := hnode p rfl
    rw [nodePlacementLoop, nodePlacementLoop]
    split
    case isTrue hm =>
      split
      · rfl
      case isFalse hne =>
        have hlt : (s.mem p).cidr < f.bits := lt_of_lt_of_le (lt_of_le_of_ne hm.1 hne) hc
        rw [(h.choosable hp hf hlt).chooseChecked hlen]
        refine ih _ _ fun c hc => ?_
        obtain ⟨hcL, hcf, -⟩ := h.choose_next hp hf hc
        exact ⟨hcL, hcf⟩
    · rfl

theorem Sized.le_length (h : s.Sized) (f : Family) (p : Nat) : f.bits / 8 ≤ (s.mem p).bits.length := by
  rw [h p]
  cases f <;> decide

theorem Placed.choosable {parent : Option Nat} (h : Placed s L f key cidr parent) (hi : Inv₀ s L) (hc : cidr ≤ f.bits)
    (hp : parent = some p) : (s.mem p).Choosable f.bits := by
  obtain ⟨hpL, hpf, hlt, -⟩ := h.above p hp
  exact hi.choosable hpL hpf (by omega)

section
variable [DecidableEq P] {q : P} {parent : Option Nat}

theorem chooseAndConnectNode_checked (hs : s.Sized) (hp : (s.mem p).Choosable f.bits) (n : Nat) :
    AllowedipsMemory.chooseAndConnectNode (AllowedipsNode.chooseChecked f.bits) s p n = some
      (s.chooseAndConnectNode p n) :=
  congrArg (Option.bind · _) (hp.chooseChecked (hs.le_length f n))

theorem connectUnder_checked (hs : s.Sized) (hp : ∀ p, parent = some p → (s.mem p).Choosable f.bits) (n : Nat) :
    AllowedipsMemory.connectUnder (AllowedipsNode.chooseChecked f.bits) s f parent n = some
      (s.connectUnder f parent n) := by
  rcases parent with - | p
  · rfl
  · exact chooseAndConnectNode_checked hs (hp p rfl) n

theorem Pending.addAbove_checked (h : Pending s L f key cidr q n) (hp : Placed s L f key cidr parent) (hs : s.Sized)
    (hc : cidr ≤ f.bits) (hd : s.forest.slot (s.place f parent key) = some d) (fail : Bool) :
    AllowedipsMemory.addAbove (AllowedipsNode.chooseChecked f.bits) s f f.bits key cidr parent n d fail =
      some (s.addAbove f f.bits key cidr parent n d fail) := by
  obtain ⟨hdL, hdf, -⟩ := hp.down h.toInv₀ hd
  have hled := h.cidr_le hdL hdf
  have hparent (p : Nat) (hpp : parent = some p) : (s.mem p).Choosable f.bits := hp.choosable h.toInv₀ hc hpp
  have hcommon := h.commonBits_eq hp hd
  by_cases hfits : (s.mem n).cidr = min cidr (commonBits (s.mem d).bits key f.bits)
  · -- the new node goes above `d`, whose prefix is longer
    have hlt : cidr < (s.mem d).cidr := by
      rw [h.cidr, hcommon] at hfits
      exact (hp.lt_down h.toInv₀ hc hd (by omega)).2
    have hn : (s.mem n).Choosable f.bits := ⟨h.assigned, h.bitlen, by rw [h.cidr]; omega⟩
    have hr : Relinked s (s.chooseAndConnectNode n d) := .chooseAndConnectNode
    have hs₁ := (Stored.chooseAndConnectNode s n d).sized hs
    have hchecked : AllowedipsMemory.addAbove (AllowedipsNode.chooseChecked f.bits) s f f.bits key
      cidr parent n d fail =
      (AllowedipsMemory.chooseAndConnectNode (AllowedipsNode.chooseChecked f.bits) s n d).bind fun w =>
        (AllowedipsMemory.connectUnder (AllowedipsNode.chooseChecked f.bits) w f parent n).bind
          fun w => some (.ok, w) :=
      if_pos hfits
    have hplain : s.addAbove f f.bits key cidr parent n d fail =
      (.ok, (s.chooseAndConnectNode n d).connectUnder f parent n) :=
      if_pos hfits
    rw [hchecked, hplain, chooseAndConnectNode_checked hs hn, Option.bind_some,
      connectUnder_checked hs₁ fun p hpp => hr.choosable (hparent p hpp), Option.bind_some]
  cases fail with
  | true => exact (if_neg hfits).trans (congrArg some (if_neg hfits).symm)
  | false =>
    -- the internal node has the common prefix, which is shorter than the new one
    set k := min cidr (commonBits (s.mem d).bits key f.bits) with hk
    have hlt : k < f.bits := by
      rw [h.cidr] at hfits
      omega
    obtain ⟨-, h₂, hp₂, -, -⟩ := h.withInternal hp hd k
    have hm : ((s.withInternal f n k).mem s.brk).Choosable f.bits := by
      rw [withInternal_mem h.lt.ne]
      exact ⟨Assigned.copy, rfl, hlt⟩
    have hs₂ : (s.withInternal f n k).Sized := (Stored.internal s f n k).sized hs
    have hr₁ : Relinked (s.withInternal f n k) ((s.withInternal f n k).chooseAndConnectNode s.brk
      d) := .chooseAndConnectNode
    have hs₃ := (Stored.chooseAndConnectNode (s.withInternal f n k) s.brk d).sized hs₂
    have hr₂ := hr₁.trans (.chooseAndConnectNode (p := s.brk) (n := n))
    have hs₄ := (Stored.chooseAndConnectNode _ s.brk n).sized hs₃
    have hchecked : AllowedipsMemory.addAbove (AllowedipsNode.chooseChecked f.bits) s f f.bits key
      cidr parent n d false =
      (AllowedipsMemory.chooseAndConnectNode (AllowedipsNode.chooseChecked f.bits)
        (s.withInternal f n k) s.brk d).bind fun w =>
      (AllowedipsMemory.chooseAndConnectNode (AllowedipsNode.chooseChecked f.bits) w s.brk n).bind fun w =>
      (AllowedipsMemory.connectUnder (AllowedipsNode.chooseChecked f.bits) w f parent s.brk).bind
        fun w => some (.ok, w) :=
      if_neg hfits
    have hplain : s.addAbove f f.bits key cidr parent n d false =
      (.ok, (((s.withInternal f n k).chooseAndConnectNode s.brk d).chooseAndConnectNode s.brk
        n).connectUnder f parent s.brk) :=
      if_neg hfits
    rw [hchecked, hplain, chooseAndConnectNode_checked hs₂ hm, Option.bind_some,
      chooseAndConnectNode_checked hs₃ (hr₁.choosable hm), Option.bind_some,
      connectUnder_checked hs₄ fun p hpp => hr₂.choosable (hp₂.choosable h₂.toInv₀ hc hpp), Option.bind_some]

theorem Pending.addUnder_checked (h : Pending s L f key cidr q n) (hp : Placed s L f key cidr parent) (hs : s.Sized)
    (hc : cidr ≤ f.bits) (hlen : f.bits / 8 ≤ key.length) {top : Nat} (hroot : s.root f = some top) (fail : Bool) :
    AllowedipsMemory.addUnder (AllowedipsNode.chooseChecked f.bits) s f f.bits key cidr parent n top fail =
      some (AllowedipsMemory.addUnder (m := Id) AllowedipsNode.choose s f f.bits key cidr parent n top fail) := by
  rcases parent with - | p
  · exact h.addAbove_checked hp hs hc hroot fail
  · have hb := (hp.choosable h.toInv₀ hc rfl).chooseChecked hlen
    cases hdown : (s.mem p).bit ((s.mem p).choose key) with
    | none => rw [AllowedipsMemory.addUnder_free hb hdown, AllowedipsMemory.addUnder_free rfl hdown]; rfl
    | some d =>
      rw [AllowedipsMemory.addUnder_taken hb hdown, AllowedipsMemory.addUnder_taken rfl hdown]
      exact h.addAbove_checked hp hs hc hdown fail

theorem Inv.addChecked_eq (h : Inv s L) (hs : s.Sized) (hlen : f.bits / 8 ≤ key.length) (peer : Option P)
    (fail₁ fail₂ : Bool) :
    s.addChecked f f.bits key cidr peer fail₁ fail₂ = s.add f f.bits key cidr peer fail₁ fail₂ := by
  rcases peer with - | q
  · rfl
  by_cases hbad : f.bits < cidr
  · have hchecked : AllowedipsMemory.add (AllowedipsNode.chooseChecked f.bits) s f f.bits key cidr
      (some q) fail₁ fail₂ =
      some (some (.einval, s)) := if_pos hbad
    rw [add_einval (.inr hbad), addChecked, hchecked]
    rfl
  have hc := not_lt.mp hbad
  rw [addChecked, add, AllowedipsMemory.add, AllowedipsMemory.add]
  dsimp only [AllowedipsMemory.state]
  rw [if_neg hbad, if_neg hbad]
  rcases hroot : s.root f with - | top
  · cases fail₁ <;> rfl
  have hplacement := h.nodePlacementLoop_checked hlen hc (f.bits + 2) (some top) none fun p hp =>
    h.root_spec (hroot.trans hp)
  have hspec := h.nodePlacement_spec key hc
  rw [hroot] at hspec
  unfold nodePlacement at hspec
  dsimp only
  rw [hplacement]
  rcases hspec with ⟨p, hrun, -⟩ | ⟨parent, hrun, hp⟩
  · rw [hrun]
    rfl
  rw [hrun]
  obtain ⟨hsame, hpend⟩ := h.pending cidr q hlen
  obtain ⟨-, hp'⟩ := hp.congr h.toInv₀ hsame
  cases fail₁ with
  | true => cases parent <;> rfl
  | false =>
    have hunder := hpend.addUnder_checked hp' ((Stored.newnode s q cidr hlen).sized hs) hc hlen
      (hsame.root ▸ hroot) fail₂
    cases parent <;> exact congrArg (fun out => (some <$> out).join) hunder

end

/-! ### Bits of an address -/

theorem commonBits_swapEndian {bits : Nat} (hb : Width bits) {a b : Bytes}
    (ha : a.length = bits / 8) (hb' : b.length = bits / 8) :
    commonBits (swapEndian a bits) (swapEndian b bits) bits = common bits (beNat a) (beNat b) := by
  rw [WireguardAes.commonBits_eq hb, keyNat_swapEndian hb ha, keyNat_swapEndian hb hb']

/-- Two addresses agree in as many bits as `common_bits` says, and differ in the next one. -/
theorem commonBits_longest {bits : Nat} (hb : Width bits) {a b : Bytes} (ha : a.length = bits / 8)
    (hb' : b.length = bits / 8) :
    commonBits (swapEndian a bits) (swapEndian b bits) bits ≤ bits ∧
    (∀ i < commonBits (swapEndian a bits) (swapEndian b bits) bits, networkBit a i = networkBit b i) ∧
    (commonBits (swapEndian a bits) (swapEndian b bits) bits < bits →
      networkBit a (commonBits (swapEndian a bits) (swapEndian b bits) bits) ≠
        networkBit b (commonBits (swapEndian a bits) (swapEndian b bits) bits)) := by
  have hlt {ip : Bytes} (hip : ip.length = bits / 8) : beNat ip < 2 ^ bits := by
    rw [← keyNat_swapEndian hb hip]
    exact keyNat_lt hb _
  rw [commonBits_swapEndian hb ha hb']
  refine ⟨common_le, fun i hi => ?_, fun hlt' => ?_⟩
  · have hi' : i < bits := lt_of_lt_of_le hi common_le
    rw [← msb_beNat hb ha hi', ← msb_beNat hb hb' hi']
    exact (agree_common (hlt ha) (hlt hb')).msb_eq hi
  · rw [← msb_beNat hb ha hlt', ← msb_beNat hb hb' hlt']
    exact msb_common_ne (hlt ha) (hlt hb') hlt'

theorem choose_copyAndAssignCidr {bits : Nat} (hb : Width bits) (node : AllowedipsNode P) (src : Bytes) {ip : Bytes}
    (hip : ip.length = bits / 8) (hc : cidr < bits) :
    (node.copyAndAssignCidr src cidr bits).choose (swapEndian ip bits) = networkBit ip cidr := by
  rw [AllowedipsNode.choose, AllowedipsNode.copyAndAssignCidr, bitAt_eq hb _ hc,
    keyNat_swapEndian hb hip, msb_beNat hb hip hc]

/-- `common_bits` is the length of the longest common prefix of two addresses, and `choose` is the
bit behind the prefix of a node. After any calls, neither a lookup nor an insertion applies `choose`
to a node whose prefix is as long as the address, or reads behind a key. -/
theorem choose_within_key [DecidableEq P] (cs : List (AllowedipsCall P)) :
    (∀ (bits : Nat) (a b : Bytes), Width bits → a.length = bits / 8 → b.length = bits / 8 →
      commonBits (swapEndian a bits) (swapEndian b bits) bits ≤ bits ∧
      (∀ i < commonBits (swapEndian a bits) (swapEndian b bits) bits, networkBit a i = networkBit b i) ∧
      (commonBits (swapEndian a bits) (swapEndian b bits) bits < bits →
        networkBit a (commonBits (swapEndian a bits) (swapEndian b bits) bits) ≠
          networkBit b (commonBits (swapEndian a bits) (swapEndian b bits) bits))) ∧
    (∀ (bits cidr : Nat) (node : AllowedipsNode P) (src ip : Bytes), Width bits → ip.length = bits / 8 → cidr < bits →
      (node.copyAndAssignCidr src cidr bits).choose (swapEndian ip bits) = networkBit ip cidr) ∧
    ∃ rs s, AllowedipsCall.run wgAllowedipsInit cs = some (rs, s) ∧
      ∀ (f : Family) (ip : Bytes), ip.length = f.bits / 8 →
        (∃ r, s.findNodeChecked (s.root f) f.bits (swapEndian ip f.bits) = some r ∧
          s.findNode (s.root f) f.bits (swapEndian ip f.bits) = some r) ∧
        ∀ (cidr : Nat) (peer : Option P) (fail₁ fail₂ : Bool), ∃ r,
          s.addChecked f f.bits (swapEndian ip f.bits) cidr peer fail₁ fail₂ = some r ∧
          s.add f f.bits (swapEndian ip f.bits) cidr peer fail₁ fail₂ = some r := by
  refine ⟨fun bits a b hb ha hb' => commonBits_longest hb ha hb',
    fun bits cidr node src ip hb hip hc => choose_copyAndAssignCidr hb node src hip hc, ?_⟩
  obtain ⟨rs, s, hrun, -, hagrees⟩ := (Agrees.init (P := P)).run cs
  obtain ⟨L, hi, -⟩ := hagrees.trie
  have hs : s.Sized := sized_run (fun _ => rfl) hrun
  refine ⟨rs, s, hrun, fun f ip hip => ?_⟩
  have hlen := f.le_length_swapEndian hip
  refine ⟨?_, fun cidr peer fail₁ fail₂ => ?_⟩
  · obtain ⟨r, hr, -⟩ := hi.findNode_spec f (swapEndian ip f.bits)
    exact ⟨r, (hi.findNodeChecked_eq hlen).trans hr, hr⟩
  · obtain ⟨r, s', hadd, -⟩ := hagrees.add f ip hip cidr peer fail₁ fail₂
    exact ⟨(r, s'), (hi.addChecked_eq hs hlen peer fail₁ fail₂).trans hadd, hadd⟩

end Allowedips
end WireguardAes
