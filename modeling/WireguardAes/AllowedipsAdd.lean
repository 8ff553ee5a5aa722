import WireguardAes.AllowedipsInv
import Mathlib.Data.List.Nodup

/-!
# Insertion keeps the trie

`add` writes pointers only through `connect_node`, which is a write to a slot and to a back pointer
(`Relinked`: nothing else of a node changes). `nodePlacement_spec` says where the walk of
`node_placement` stops; from there the three ways to hang the new node are `Linked.attach` (a free
slot), `Linked.splice` (above what hangs there), and both (under a new internal node).
-/

namespace WireguardAes

open Function PrefixForest BitPrefix ByteOrder

open AllowedipsMemory (state store newnode)

namespace Allowedips
variable {P : Type} {s s' s'' : Allowedips P} {L : Set Nat} {p n d : Nat} {f : Family}
  {σ : Slot Family}
variable {τ : Slot Family}

/-! ### Writing pointers -/

/-- `s'` is `s` up to the pointers between the nodes. -/
structure Relinked (s s' : Allowedips P) : Prop where
  data : ∀ p, s'.mem p = { s.mem p with bit := (s'.mem p).bit, parentBitPacked := (s'.mem p).parentBitPacked }
  list : s'.list = s.list
  brk : s'.brk = s.brk

namespace Relinked

theorem refl (s : Allowedips P) : Relinked s s := ⟨fun _ => rfl, rfl, rfl⟩

theorem trans (h : Relinked s s') (h' : Relinked s' s'') : Relinked s s'' := by
  refine ⟨fun p => ?_, h'.list.trans h.list, h'.brk.trans h.brk⟩
  rw [h'.data p, h.data p]

theorem peer (h : Relinked s s') (p : Nat) : (s'.mem p).peer = (s.mem p).peer := by rw [h.data p]

theorem bits (h : Relinked s s') (p : Nat) : (s'.mem p).bits = (s.mem p).bits := by rw [h.data p]

theorem choose (h : Relinked s s') (p : Nat) {key : Bytes} : (s'.mem p).choose key = (s.mem p).choose key := by
  rw [h.data p]; rfl

theorem assigned (h : Relinked s s') (hp : (s.mem p).Assigned) : (s'.mem p).Assigned := by
  rw [h.data p]; exact ⟨hp.width, hp.bitAtA, hp.bitAtB⟩

theorem fam (h : Relinked s s') : s'.forest.fam = s.forest.fam := by
  funext p; simp only [forest]; rw [h.data p]

theorem cidr (h : Relinked s s') : s'.forest.cidr = s.forest.cidr := by
  funext p; simp only [forest]; rw [h.data p]

theorem key (h : Relinked s s') : s'.forest.key = s.forest.key := by
  funext p; simp only [forest]; rw [h.data p]

theorem val (h : Relinked s s') : s'.forest.val = s.forest.val := by
  funext p; simp only [forest]; rw [h.data p]

theorem samePrefix (h : Relinked s s') (L : Set Nat) : SamePrefix s.forest s'.forest L :=
  fun c _ => ⟨by rw [h.fam], by rw [h.cidr], by rw [h.key]⟩

theorem fits (h : Relinked s s') :
    s'.forest.Fits Family.bits n τ ↔ s.forest.Fits Family.bits n τ := by
  cases τ <;> simp only [Forest.Fits, h.fam, h.cidr, h.key]

theorem setParent : Relinked s (s.setParent p σ) := by
  refine ⟨fun q => ?_, rfl, rfl⟩
  by_cases hq : q = p
  · subst hq; simp [Allowedips.setParent, setNode]
  · simp [Allowedips.setParent, setNode, hq]

theorem setSlot {c : Option Nat} : Relinked s (s.setSlot σ c) := by
  cases σ with
  | root f => exact ⟨fun _ => rfl, rfl, rfl⟩
  | bit p b =>
    refine ⟨fun q => ?_, rfl, rfl⟩
    by_cases hq : q = p
    · subst hq; simp [Allowedips.setSlot, setNode]
    · simp [Allowedips.setSlot, setNode, hq]

theorem connectNode [DecidableEq P] : Relinked s (s.connectNode σ n) := setParent.trans setSlot

theorem chooseAndConnectNode [DecidableEq P] : Relinked s (s.chooseAndConnectNode p n) :=
  connectNode (σ := .bit p ((s.mem p).choose (s.mem n).bits))

end Relinked

@[simp] theorem forest_setParent : (s.setParent p σ).forest = s.forest.setUp p σ := by
  have h : Relinked s (s.setParent p σ) := .setParent
  have hbit : ∀ q, ((s.setParent p σ).mem q).bit = (s.mem q).bit := by
    intro q
    by_cases hq : q = p
    · subst hq; simp [setParent, setNode]
    · simp [setParent, setNode, hq]
  refine Forest.ext rfl (funext hbit) ?_ h.fam h.cidr h.key h.val
  funext q
  by_cases hq : q = p
  · subst hq; simp [forest, setParent, setNode]
  · simp [forest, setParent, setNode, hq]

@[simp] theorem forest_setSlot {c : Option Nat} : (s.setSlot σ c).forest = s.forest.setSlot σ c := by
  have h : Relinked s (s.setSlot σ c) := .setSlot
  cases σ with
  | root f => rfl
  | bit p b =>
    refine Forest.ext rfl ?_ ?_ h.fam h.cidr h.key h.val
    · funext q
      by_cases hq : q = p
      · subst hq; simp [forest, setSlot, setNode, Forest.setSlot]
      · simp [forest, setSlot, setNode, Forest.setSlot, hq]
    · funext q
      by_cases hq : q = p
      · subst hq; simp [forest, setSlot, setNode, Forest.setSlot]
      · simp [forest, setSlot, setNode, Forest.setSlot, hq]

theorem forest_setPeer {v : Option P} :
    (s.setPeer p v).forest = { s.forest with val := update s.forest.val p v } := by
  have h : ∀ q, (s.setPeer p v).mem q = { s.mem q with peer := update s.forest.val p v q } := by
    intro q
    by_cases hq : q = p
    · subst hq; simp [setPeer, setNode]
    · simp [setPeer, setNode, forest, hq]
  refine Forest.ext rfl ?_ ?_ ?_ ?_ ?_ ?_ <;> (funext q; simp only [forest, h])

theorem slot_connectNode [DecidableEq P] :
    (s.connectNode σ n).forest.slot τ = if τ = σ then some n else s.forest.slot τ := by
  show ((s.setParent n σ).setSlot σ (some n)).forest.slot τ = _
  rw [forest_setSlot, forest_setParent, Forest.slot_setSlot, Forest.slot_setUp]

theorem slot_connectNode_self [DecidableEq P] : (s.connectNode σ n).forest.slot σ = some n := by
  rw [slot_connectNode, if_pos rfl]

theorem bit_chooseAndConnectNode [DecidableEq P] :
    ((s.chooseAndConnectNode p n).mem p).bit ((s.mem p).choose (s.mem n).bits) = some n :=
  slot_connectNode_self (σ := .bit p ((s.mem p).choose (s.mem n).bits))

theorem up_connectNode [DecidableEq P] : (s.connectNode σ n).forest.up = update s.forest.up n σ := by
  show ((s.setParent n σ).setSlot σ (some n)).forest.up = _
  rw [forest_setSlot, forest_setParent, Forest.up_setSlot, Forest.up_setUp]

theorem slot_connectNode_isSome [DecidableEq P] (h : (s.forest.slot τ).isSome) :
    ((s.connectNode σ n).forest.slot τ).isSome := by
  rw [slot_connectNode]
  split
  exacts [rfl, h]

/-! ### Writing elsewhere -/

/-- `s'` has the roots and the nodes of `L` as `s` has them. -/
structure SameOn (L : Set Nat) (s s' : Allowedips P) : Prop where
  root : s'.root = s.root
  mem : ∀ p ∈ L, s'.mem p = s.mem p

namespace SameOn

theorem slot (h : SameOn L s s') (hτ : Live L τ) : s'.forest.slot τ = s.forest.slot τ := by
  cases τ with
  | root f => exact congrFun h.root f
  | bit p b => simp only [Forest.slot, forest, h.mem p hτ]

theorem samePrefix (h : SameOn L s s') : SamePrefix s.forest s'.forest L := by
  intro p hp
  simp only [forest, h.mem p hp, and_self]

theorem val (h : SameOn L s s') : ∀ p ∈ L, s'.forest.val p = s.forest.val p := by
  intro p hp
  simp only [forest, h.mem p hp]

theorem matches_iff (h : SameOn L s s') (hp : p ∈ L) {x : Nat} :
    s'.forest.Matches Family.bits p x ↔ s.forest.Matches Family.bits p x := by
  simp only [Forest.Matches, forest, h.mem p hp]

theorem inv₀ (h : SameOn L s s') (hbrk : s.brk ≤ s'.brk) (hi : Inv₀ s L) : Inv₀ s' L := by
  refine ⟨hi.linked.congr (fun τ hτ => h.slot hτ) ?_ h.samePrefix, ?_, ?_⟩
  · intro p hp
    simp only [forest, h.mem p hp]
  · intro p hp
    rw [h.mem p hp]; exact hi.node p hp
  · exact fun p hp => lt_of_lt_of_le (hi.lt_brk p hp) hbrk

end SameOn

/-! ### Where the new node goes -/

/-- The slot below `parent` on the side of the key. -/
def place (s : Allowedips P) (f : Family) (parent : Option Nat) (key : Bytes) : Slot Family :=
  match parent with
  | none => .root f
  | some p => .bit p ((s.mem p).choose key)

/-- No node has the prefix `key/cidr`, and the walk for it ends at `parent`. -/
structure Placed (s : Allowedips P) (L : Set Nat) (f : Family) (key : Bytes) (cidr : Nat) (parent : Option Nat) :
    Prop where
  above : ∀ p, parent = some p → p ∈ L ∧ s.forest.fam p = f ∧ (s.mem p).cidr < cidr ∧
    s.forest.Matches Family.bits p (keyNat f.bits key)
  next : ∀ d, s.forest.slot (s.place f parent key) = some d → (s.mem d).cidr ≤ cidr →
    ¬ s.forest.Matches Family.bits d (keyNat f.bits key)
  absent : ∀ a ∈ L, s.forest.fam a = f → (s.mem a).cidr = cidr →
    ¬ s.forest.Matches Family.bits a (keyNat f.bits key)

section
variable {key : Bytes} {cidr : Nat}

theorem Inv₀.nodePlacementLoop_spec (h : Inv₀ s L) (hc : cidr ≤ f.bits) (fuel : Nat) (parent : Option Nat)
    (hfuel : 0 < fuel)
    (hnode : ∀ p, s.forest.slot (s.place f parent key) = some p →
      p ∈ L ∧ s.forest.fam p = f ∧ f.bits + 2 ≤ fuel + (s.mem p).cidr)
    (hparent : ∀ p, parent = some p → p ∈ L ∧ s.forest.fam p = f ∧ (s.mem p).cidr < cidr ∧
      s.forest.Matches Family.bits p (keyNat f.bits key))
    (hcover : ∀ a ∈ L, s.forest.fam a = f → (s.mem a).cidr = cidr →
      s.forest.Matches Family.bits a (keyNat f.bits key) →
      ∃ p, s.forest.slot (s.place f parent key) = some p ∧ s.forest.Below p a) :
    (∃ p, s.nodePlacementLoop (m := Id) AllowedipsNode.choose key cidr f.bits fuel
      (s.forest.slot (s.place f parent key)) parent
        = some (some p, true) ∧ p ∈ L ∧ s.forest.fam p = f ∧ (s.mem p).cidr = cidr ∧
          s.forest.Matches Family.bits p (keyNat f.bits key)) ∨
      ∃ parent', s.nodePlacementLoop (m := Id) AllowedipsNode.choose key cidr f.bits fuel
        (s.forest.slot (s.place f parent key)) parent
        = some (parent', false) ∧ Placed s L f key cidr parent' := by
  induction fuel generalizing parent with
  | zero => omega
  | succ fuel ih =>
    cases hslot : s.forest.slot (s.place f parent key) with
    | none =>
      refine .inr ⟨parent, rfl, hparent, fun d hd => ?_, fun a ha hf hca hm => ?_⟩
      · rw [hslot] at hd; cases hd
      obtain ⟨p, hp, -⟩ := hcover a ha hf hca hm
      rw [hslot] at hp; cases hp
    | some p =>
      obtain ⟨hp, hf, hfu⟩ := hnode p hslot
      rw [nodePlacementLoop]
      have hmatch : (s.mem p).prefixMatches key f.bits = true ↔ _ := h.prefixMatches_iff hp hf
      by_cases hm : (s.mem p).cidr ≤ cidr ∧ (s.mem p).prefixMatches key f.bits
      · rw [if_pos hm]
        by_cases heq : (s.mem p).cidr = cidr
        · rw [if_pos heq]
          exact .inl ⟨p, rfl, hp, hf, heq, hmatch.1 hm.2⟩
        · rw [if_neg heq]
          have hlt : (s.mem p).cidr < cidr := lt_of_le_of_ne hm.1 heq
          refine ih (some p) (by omega) ?_ ?_ ?_
          · intro c hnext
            obtain ⟨hcL, hcf, hclt⟩ := h.choose_next hp hf hnext
            exact ⟨hcL, hcf, by omega⟩
          · rintro _ ⟨⟩
            exact ⟨hp, hf, hlt, hmatch.1 hm.2⟩
          · intro a ha hfa hca hma
            obtain ⟨q, hq, hb⟩ := hcover a ha hfa hca hma
            obtain rfl : p = q := Option.some.inj (hslot.symm.trans hq)
            exact h.below_choose hp hf (by omega) hb (fun he => heq (he ▸ hca)) hma
      · rw [if_neg hm]
        refine .inr ⟨parent, rfl, hparent, fun d hd hle hmd => ?_, fun a ha hfa hca hma => ?_⟩
        · obtain rfl : p = d := Option.some.inj (hslot.symm.trans hd)
          exact hm ⟨hle, hmatch.2 hmd⟩
        · obtain ⟨q, hq, hb⟩ := hcover a ha hfa hca hma
          obtain rfl : p = q := Option.some.inj (hslot.symm.trans hq)
          refine hm ⟨?_, hmatch.2 (h.linked.matches_of_below hp hb hma)⟩
          rcases (h.linked.below hp hb).2.2.1 with rfl | hlt
          · exact hca.le
          · exact hca ▸ hlt.le

/-- The walk meets the node with the prefix, or ends where it belongs. -/
theorem Inv₀.nodePlacement_spec (h : Inv₀ s L) (key : Bytes) (hc : cidr ≤ f.bits) :
    (∃ p, s.nodePlacement (s.root f) key cidr f.bits = some (some p, true) ∧ p ∈ L ∧ s.forest.fam p = f ∧
        (s.mem p).cidr = cidr ∧ s.forest.Matches Family.bits p (keyNat f.bits key)) ∨
      ∃ parent, s.nodePlacement (s.root f) key cidr f.bits = some (parent, false) ∧
        Placed s L f key cidr parent := by
  refine h.nodePlacementLoop_spec hc _ none (by omega) ?_ (by simp) ?_
  · intro p hp
    obtain ⟨hpL, hf⟩ := h.root_spec hp
    exact ⟨hpL, hf, by omega⟩
  · intro a ha hfa _ _
    exact h.below_root ha hfa

namespace Placed
variable {parent : Option Nat}

theorem live (h : Placed s L f key cidr parent) : Live L (s.place f parent key) := by
  cases parent with
  | none => trivial
  | some p => exact (h.above p rfl).1

theorem congr (h : Placed s L f key cidr parent) (hi : Inv₀ s L) (hs : SameOn L s s') :
    s'.place f parent key = s.place f parent key ∧ Placed s' L f key cidr parent := by
  have hplace : s'.place f parent key = s.place f parent key := by
    cases parent with
    | none => rfl
    | some p => simp only [place, hs.mem p (h.above p rfl).1]
  refine ⟨hplace, ?_, ?_, ?_⟩
  · rintro p rfl
    obtain ⟨hp, hf, hlt, hm⟩ := h.above p rfl
    refine ⟨hp, (hs.samePrefix p hp).1.trans hf, ?_, (hs.matches_iff hp).2 hm⟩
    rw [hs.mem p hp]; exact hlt
  · intro d hd
    rw [hplace, hs.slot h.live] at hd
    have hdL := (hi.linked.down _ d h.live hd).1
    rw [hs.mem d hdL, hs.matches_iff hdL]
    exact h.next d hd
  · intro a ha hf
    rw [hs.mem a ha, hs.matches_iff ha]
    exact h.absent a ha ((hs.samePrefix a ha).1.symm.trans hf)

theorem down (h : Placed s L f key cidr parent) (hi : Inv₀ s L) (hd : s.forest.slot (s.place f parent key) = some d) :
    d ∈ L ∧ s.forest.fam d = f ∧ s.forest.Fits Family.bits d (s.place f parent key) := by
  obtain ⟨hdL, -, hfit⟩ := hi.linked.down _ d h.live hd
  refine ⟨hdL, ?_, hfit⟩
  cases parent with
  | none => exact hfit
  | some p => exact hfit.1.trans (h.above p rfl).2.1

/-- The parent's prefix is shorter than what the key has in common with the node below it. -/
theorem lt_common (h : Placed s L f key cidr parent) (hi : Inv₀ s L) (hc : cidr ≤ f.bits)
    (hd : s.forest.slot (s.place f parent key) = some d) (hp : parent = some p) :
    (s.mem p).cidr < common f.bits (s.forest.key d) (keyNat f.bits key) := by
  subst hp
  obtain ⟨hdL, hdf, -, hlt, hag, hside⟩ := h.down hi hd
  obtain ⟨hp, hpf, hpc, hm⟩ := h.above p rfl
  have hltd := hi.linked.lt d hdL
  rw [hpf] at hag hside
  rw [Forest.Matches, hpf] at hm
  rw [hdf] at hltd
  rw [hi.choose_eq hp hpf (by omega)] at hside
  have hpb : s.forest.cidr p < f.bits := lt_of_lt_of_le hpc hc
  exact (agree_iff_le_common hpb hltd (keyNat_lt f.width key)).1 ((hag.symm.trans hm).succ hside hpb)

/-- A node below that has the whole new prefix in common with the key has a longer one, or the walk
would have gone on. -/
theorem lt_down (h : Placed s L f key cidr parent) (hi : Inv₀ s L) (hc : cidr ≤ f.bits)
    (hd : s.forest.slot (s.place f parent key) = some d)
    (hle : cidr ≤ common f.bits (s.forest.key d) (keyNat f.bits key)) :
    Agree f.bits cidr (s.forest.key d) (keyNat f.bits key) ∧ cidr < s.forest.cidr d := by
  obtain ⟨hdL, hdf, -⟩ := h.down hi hd
  have hltd := hi.linked.lt d hdL
  rw [hdf] at hltd
  have hag := (agree_iff_le_common hc hltd (keyNat_lt f.width key)).2 hle
  refine ⟨hag, ?_⟩
  by_contra hge
  refine h.next d hd (not_lt.1 hge) ?_
  rw [Forest.Matches, hdf]
  exact hag.mono (not_lt.1 hge)

/-- A node with the key and a longer prefix than the parent's belongs in the slot. -/
theorem fits (h : Placed s L f key cidr parent) (hi : Inv₀ s L) (hc : cidr ≤ f.bits)
    (hf : s.forest.fam n = f) (hkey : s.forest.key n = keyNat f.bits key)
    (hlt : ∀ p, parent = some p → (s.mem p).cidr < (s.mem n).cidr) :
    s.forest.Fits Family.bits n (s.place f parent key) := by
  cases parent with
  | none => exact hf
  | some p =>
    obtain ⟨hp, hpf, hpc, hm⟩ := h.above p rfl
    rw [Forest.Matches, hpf] at hm
    refine ⟨hf.trans hpf.symm, hlt p rfl, ?_, ?_⟩
    · rw [hkey, hpf]; exact hm
    · rw [hkey, hpf, hi.choose_eq hp hpf (by omega)]; rfl

/-- The tests of `add` for the slot of the new node all find the same one. -/
theorem choose_bits (h : Placed s L f key cidr (some p)) (hi : Inv₀ s L) (hc : cidr ≤ f.bits) (hr : Relinked s s')
    (hkey : keyNat f.bits (s.mem n).bits = keyNat f.bits key) :
    (s'.mem p).choose (s'.mem n).bits = (s.mem p).choose key := by
  obtain ⟨hp, hpf, hpc, -⟩ := h.above p rfl
  rw [hr.choose, hr.bits, hi.choose_eq hp hpf (by omega), hkey, ← hi.choose_eq hp hpf (by omega)]

theorem connectUnder_eq [DecidableEq P] (h : Placed s L f key cidr parent) (hi : Inv₀ s L) (hc : cidr ≤ f.bits)
    (hr : Relinked s s') (hkey : keyNat f.bits (s.mem n).bits = keyNat f.bits key) :
    s'.connectUnder f parent n = s'.connectNode (s.place f parent key) n := by
  cases parent with
  | none => rfl
  | some p =>
    show s'.chooseAndConnectNode p n = _
    rw [chooseAndConnectNode_eq, h.choose_bits hi hc hr hkey]
    rfl

end Placed
end

/-! ### Hanging the new node -/

section
variable {m : Nat} {b : Bool}

/-- An unconnected node `m` goes between a slot and what hangs there. -/
theorem Inv₀.splice [DecidableEq P] (h : Inv₀ s L) (hm : m ∉ L) (hleaf : ∀ b, (s.mem m).bit b = none) (hσ : Live L σ)
    (hd : s.forest.slot σ = some d) (hfit : s.forest.Fits Family.bits m σ)
    (hfitd : s.forest.Fits Family.bits d (.bit m b)) (hle : s.forest.cidr m ≤ (s.forest.fam m).bits)
    (hlt : s.forest.key m < 2 ^ (s.forest.fam m).bits) :
    Linked Family.bits ((s.connectNode (.bit m b) d).connectNode σ m).forest (insert m L) := by
  have hr : Relinked s ((s.connectNode (.bit m b) d).connectNode σ m) := Relinked.connectNode.trans .connectNode
  have hdL := (h.linked.down σ d hσ hd).1
  have hne : ∀ b', Slot.bit m b' ≠ σ := fun b' he => by rw [← he] at hσ; exact hm hσ
  have hdm : d ≠ m := fun he => hm (he ▸ hdL)
  have hslot : ∀ τ, ((s.connectNode (.bit m b) d).connectNode σ m).forest.slot τ =
      if τ = σ then some m else if τ = .bit m b then some d else s.forest.slot τ := by
    intro τ
    rw [slot_connectNode, slot_connectNode]
  have hup : ((s.connectNode (.bit m b) d).connectNode σ m).forest.up =
      update (update s.forest.up d (.bit m b)) m σ := by
    rw [up_connectNode, up_connectNode]
  refine h.linked.splice (b := b) hm hσ hd ?_ ?_ ?_ ?_ ?_ ?_ ?_ (hr.samePrefix L) (hr.fits.2 hfit)
    (hr.fits.2 hfitd) (by rw [hr.cidr, hr.fam]; exact hle) (by rw [hr.key, hr.fam]; exact hlt)
  · rw [hslot, if_pos rfl]
  · refine (hslot (.bit m b)).trans ?_
    rw [if_neg (hne b), if_pos rfl]
  · refine (hslot (.bit m !b)).trans ?_
    rw [if_neg (hne _), if_neg (by simp)]
    exact hleaf _
  · intro τ hτ hτσ
    rw [hslot, if_neg hτσ, if_neg]
    rintro rfl
    exact hm hτ
  · rw [hup, update_self]
  · rw [hup, update_of_ne hdm, update_self]
  · intro c hc hcd
    rw [hup, update_of_ne fun he => hm (by rw [← he]; exact hc), update_of_ne hcd]

/-- The same with a second new node `n` as the other child of `m`. -/
theorem Inv₀.split [DecidableEq P] (h : Inv₀ s L) (hm : m ∉ L) (hn : n ∉ L) (hmn : n ≠ m)
    (hleaf : ∀ b, (s.mem m).bit b = none)
    (hleafn : ∀ b, (s.mem n).bit b = none) (hσ : Live L σ)
    (hd : s.forest.slot σ = some d) (hfit : s.forest.Fits Family.bits m σ)
    (hfitd : s.forest.Fits Family.bits d (.bit m b)) (hfitn : s.forest.Fits Family.bits n (.bit m !b))
    (hle : s.forest.cidr m ≤ (s.forest.fam m).bits) (hlt : s.forest.key m < 2 ^ (s.forest.fam m).bits)
    (hlen : s.forest.cidr n ≤ (s.forest.fam n).bits) (hltn : s.forest.key n < 2 ^ (s.forest.fam n).bits) :
    Linked Family.bits
      (((s.connectNode (.bit m b) d).connectNode (.bit m !b) n).connectNode σ m).forest (insert n (insert m L)) := by
  have hr : Relinked s (((s.connectNode (.bit m b) d).connectNode (.bit m !b) n).connectNode σ m) :=
    (Relinked.connectNode.trans .connectNode).trans .connectNode
  have hr₁ : Relinked s ((s.connectNode (.bit m b) d).connectNode σ m) := Relinked.connectNode.trans .connectNode
  have hdL := (h.linked.down σ d hσ hd).1
  have hne : ∀ b', Slot.bit m b' ≠ σ := fun b' he => by rw [← he] at hσ; exact hm hσ
  have hnen : ∀ b', Slot.bit n b' ≠ σ := fun b' he => by rw [← he] at hσ; exact hn hσ
  have hdm : d ≠ m := fun he => hm (he ▸ hdL)
  -- first `m` alone, then `n` in its free slot
  refine (h.splice hm hleaf hσ hd hfit hfitd hle hlt).attach (σ := .bit m !b) ?_ (Set.mem_insert ..)
    ?_ ?_ ?_ ?_ ?_ ?_ ?_
    (hr.fits.2 hfitn) (by rw [hr.cidr, hr.fam]; exact hlen) (by rw [hr.key, hr.fam]; exact hltn)
  · exact fun hnm => (Set.mem_insert_iff.1 hnm).elim hmn hn
  · rw [slot_connectNode, slot_connectNode, if_neg (hne _), if_neg (by simp)]
    exact hleaf _
  · rw [slot_connectNode, slot_connectNode, if_neg (hne _), if_pos rfl]
  · intro b'
    show Forest.slot _ (.bit n b') = none
    rw [slot_connectNode, slot_connectNode, slot_connectNode, if_neg (hnen b'), if_neg (by simp [hmn]),
      if_neg (by simp [hmn])]
    exact hleafn b'
  · intro τ _ hτ
    rw [slot_connectNode, slot_connectNode, slot_connectNode, slot_connectNode, slot_connectNode, if_neg hτ]
  · rw [up_connectNode, up_connectNode, update_of_ne hmn, update_self]
  · intro c hc
    rw [up_connectNode, up_connectNode, up_connectNode, up_connectNode, up_connectNode]
    have hcn : c ≠ n := fun he => (Set.mem_insert_iff.1 (he ▸ hc)).elim hmn hn
    by_cases hcm : c = m
    · subst hcm
      simp
    · simp [hcm, hcn]
  · intro c _
    rw [hr.fam, hr.cidr, hr.key, hr₁.fam, hr₁.cidr, hr₁.key]
    exact ⟨rfl, rfl, rfl⟩

end

/-- `n` is a node for `key/cidr` of `q` that `add` has put on the list of `q` but not connected. -/
structure Pending (s : Allowedips P) (L : Set Nat) (f : Family) (key : Bytes) (cidr : Nat) (q : P) (n : Nat) :
    Prop extends Inv₀ s L where
  fresh : n ∉ L
  lt : n < s.brk
  leaf : ∀ b, (s.mem n).bit b = none
  peer : (s.mem n).peer = some q
  cidr : (s.mem n).cidr = cidr
  bitlen : (s.mem n).bitlen = f.bits
  len : f.bits / 8 ≤ (s.mem n).bits.length
  key : keyNat f.bits (s.mem n).bits = keyNat f.bits key
  assigned : (s.mem n).Assigned
  branches : ∀ p ∈ L, (s.mem p).peer = none → ∀ b, ((s.mem p).bit b).isSome
  list : ∀ r p, p ∈ s.list r ↔ p ∈ insert n L ∧ (s.mem p).peer = some r
  nodup : ∀ r, (s.list r).Nodup

namespace Pending
variable {key : Bytes} {cidr : Nat} {q : P} {parent : Option Nat}

theorem forest_fam (h : Pending s L f key cidr q n) : s.forest.fam n = f := by
  simp only [forest, h.bitlen, Family.ofBitlen_bits]

theorem forest_key (h : Pending s L f key cidr q n) : s.forest.key n = keyNat f.bits key := by
  simp only [forest, h.bitlen, h.key]

theorem congr (h : Pending s L f key cidr q n) (hs : SameOn (insert n L) s s') (hlist : s'.list = s.list)
    (hbrk : s.brk ≤ s'.brk) : Pending s' L f key cidr q n := by
  have hsL : SameOn L s s' := ⟨hs.root, fun p hp => hs.mem p (Set.mem_insert_of_mem _ hp)⟩
  have hn : s'.mem n = s.mem n := hs.mem n (Set.mem_insert ..)
  refine ⟨hsL.inv₀ hbrk h.toInv₀, h.fresh, lt_of_lt_of_le h.lt hbrk, ?_, ?_, ?_, ?_, ?_, ?_, ?_, ?_, ?_, ?_⟩
  · rw [hn]; exact h.leaf
  · rw [hn]; exact h.peer
  · rw [hn]; exact h.cidr
  · rw [hn]; exact h.bitlen
  · rw [hn]; exact h.len
  · rw [hn]; exact h.key
  · rw [hn]; exact h.assigned
  · intro p hp
    rw [hsL.mem p hp]; exact h.branches p hp
  · intro r p
    rw [hlist, h.list]
    refine and_congr_right fun hp => ?_
    rw [hs.mem p hp]
  · rw [hlist]; exact h.nodup

/-- Once the node hangs in the trie, possibly with internal nodes, the prefix is in the table. -/
theorem finish (h : Pending s L f key cidr q n) {T : PrefixTable Family P} (hT : Reads Family.bits s.forest L T)
    (habs : ∀ a ∈ L, s.forest.fam a = f → (s.mem a).cidr = cidr →
      ¬ s.forest.Matches Family.bits a (keyNat f.bits key))
    (hr : Relinked s s') {L' : Set Nat} (hl : Linked Family.bits s'.forest L')
    (hL' : ∀ p, (s.mem p).peer ≠ none → (p ∈ L' ↔ p ∈ insert n L))
    (hnew : ∀ p ∈ L', p ∉ insert n L → (s.mem p).Assigned ∧ p < s.brk)
    (hbr : ∀ p ∈ L', (s.mem p).peer = none → ∀ b, ((s'.mem p).bit b).isSome) :
    Inv s' L' ∧ Reads Family.bits s'.forest L' (T.insert f (mask f.bits cidr (keyNat f.bits key)) cidr q) := by
  have hpn : (s.mem n).peer ≠ none := by rw [h.peer]; exact Option.some_ne_none _
  have hold : ∀ p ∈ L', (s.mem p).Assigned ∧ p < s.brk := by
    intro p hp
    by_cases hpL : p ∈ insert n L
    · rcases Set.mem_insert_iff.1 hpL with rfl | hpL
      exacts [⟨h.assigned, h.lt⟩, ⟨h.node p hpL, h.lt_brk p hpL⟩]
    · exact hnew p hp hpL
  refine ⟨⟨⟨hl, fun p hp => hr.assigned (hold p hp).1, fun p hp => ?_⟩, ?_, ?_, ?_⟩, ?_⟩
  · rw [hr.brk]; exact (hold p hp).2
  · intro p hp
    rw [hr.peer]; exact hbr p hp
  · intro r p
    rw [hr.list, h.list, hr.peer]
    refine and_congr_left fun hpr => (hL' p ?_).symm
    rw [hpr]; exact Option.some_ne_none _
  · intro r
    rw [hr.list]; exact h.nodup r
  · have hT' : Reads Family.bits s.forest ( L' \ {n}) T := by
      refine hT.of_val fun a ha => ?_
      have := hL' a ha
      rw [Set.mem_sdiff, this, Set.mem_insert_iff, Set.mem_singleton_iff]
      constructor
      · rintro ⟨ha | ha, hne⟩
        exacts [absurd ha hne, ha]
      · exact fun ha => ⟨.inr ha, fun he => h.fresh (he ▸ ha)⟩
    have key : Reads Family.bits s'.forest L' (T.insert f _ _ q) := hT'.insert (p := n)
      (fun a ha => by simp [ha]) (hr.samePrefix _) (fun a _ _ => by rw [hr.val]) ((hL' n hpn).2 (Set.mem_insert ..))
      (by rw [hr.val]; exact h.peer) (by rw [hr.fam]; exact h.forest_fam) ?_
    · rw [hr.cidr, hr.key, h.forest_key] at key
      rw [show s.forest.cidr n = cidr from h.cidr] at key
      exact key
    · intro a ha hv hf hc hm
      rw [hr.val] at hv
      rw [hr.fam] at hf
      rw [hr.cidr] at hc
      rw [Forest.Matches, hr.fam, hr.cidr, hr.key, h.forest_key] at hm
      refine (Set.mem_insert_iff.1 ((hL' a hv).1 ha)).resolve_right fun haL => ?_
      exact habs a haL hf (hc.trans h.cidr) hm

theorem attach [DecidableEq P] (h : Pending s L f key cidr q n) (hp : Placed s L f key cidr parent) (hc : cidr ≤ f.bits)
    (hfree : s.forest.slot (s.place f parent key) = none) :
    Linked Family.bits (s.connectNode (s.place f parent key) n).forest (insert n L) := by
  have hr : Relinked s (s.connectNode (s.place f parent key) n) := .connectNode
  have hne : ∀ b, Slot.bit n b ≠ s.place f parent key := fun b he => by
    have := hp.live
    rw [← he] at this
    exact h.fresh this
  refine h.linked.attach h.fresh hp.live hfree ?_ ?_ ?_ ?_ ?_ (hr.samePrefix L) (hr.fits.2 ?_) ?_ ?_
  · rw [slot_connectNode, if_pos rfl]
  · intro b
    show Forest.slot _ (.bit n b) = none
    rw [slot_connectNode, if_neg (hne b)]
    exact h.leaf b
  · intro τ _ hτ
    rw [slot_connectNode, if_neg hτ]
  · rw [up_connectNode, update_self]
  · intro c hcL
    rw [up_connectNode, update_of_ne fun he => h.fresh (by rw [← he]; exact hcL)]
  · exact hp.fits h.toInv₀ hc h.forest_fam h.forest_key fun p hpp => by
      rw [h.cidr]; exact (hp.above p hpp).2.2.1
  · rw [hr.cidr, hr.fam, h.forest_fam]
    exact h.cidr.trans_le hc
  · rw [hr.key, hr.fam, h.forest_fam, h.forest_key]
    exact keyNat_lt f.width key

/-- The branch of `add` that puts the new node above `d`. -/
theorem above [DecidableEq P] (h : Pending s L f key cidr q n) (hp : Placed s L f key cidr parent) (hc : cidr ≤ f.bits)
    (hd : s.forest.slot (s.place f parent key) = some d)
    (hle : cidr ≤ common f.bits (s.forest.key d) (keyNat f.bits key)) :
    Linked Family.bits ((s.connectNode (.bit n ((s.mem n).choose (s.mem d).bits)) d).connectNode
      (s.place f parent key) n).forest (insert n L) := by
  obtain ⟨hdL, hdf, -⟩ := hp.down h.toInv₀ hd
  have hled := h.linked.le d hdL
  rw [hdf] at hled
  obtain ⟨hag, hlt⟩ := hp.lt_down h.toInv₀ hc hd hle
  have hside : (s.mem n).choose (s.mem d).bits = msb f.bits (s.forest.key d) cidr := by
    rw [AllowedipsNode.choose, h.assigned.bitAtA, h.assigned.bitAtB, h.bitlen, h.cidr,
      bitAt_eq f.width _ (by omega)]
    simp only [forest, h.toInv₀.bitlen hdL hdf]
  have hcn : s.forest.cidr n = cidr := h.cidr
  refine h.splice h.fresh h.leaf hp.live hd ?_ ⟨?_, ?_, ?_, ?_⟩ ?_ ?_
  · exact hp.fits h.toInv₀ hc h.forest_fam h.forest_key fun p hpp => by
      rw [h.cidr]; exact (hp.above p hpp).2.2.1
  · rw [hdf, h.forest_fam]
  · rw [hcn]; exact hlt
  · rw [h.forest_fam, hcn, h.forest_key]; exact hag.symm
  · rw [h.forest_fam, hcn, hside]
  · rw [h.forest_fam, hcn]; exact hc
  · rw [h.forest_fam, h.forest_key]; exact keyNat_lt f.width key

/-- The branch of `add` that puts the new node beside `d`, under the new internal node `m`. -/
theorem beside [DecidableEq P] {m : Nat} (h : Pending s L f key cidr q n)
    (hp : Placed s L f key cidr parent) (hc : cidr ≤ f.bits)
    (hd : s.forest.slot (s.place f parent key) = some d)
    (hlt : common f.bits (s.forest.key d) (keyNat f.bits key) < cidr)
    (hm : m ∉ L) (hmn : n ≠ m) (hleaf : ∀ b, (s.mem m).bit b = none) (hma : (s.mem m).Assigned)
    (hmf : (s.mem m).bitlen = f.bits) (hmk : keyNat f.bits (s.mem m).bits = keyNat f.bits key)
    (hmc : (s.mem m).cidr = common f.bits (s.forest.key d) (keyNat f.bits key)) :
    (s.mem m).choose (s.mem n).bits = !(s.mem m).choose (s.mem d).bits ∧
    Linked Family.bits (((s.connectNode (.bit m ((s.mem m).choose (s.mem d).bits)) d).connectNode
      (.bit m !(s.mem m).choose (s.mem d).bits) n).connectNode (s.place f parent key) m).forest
      (insert n (insert m L)) := by
  obtain ⟨hdL, hdf, -⟩ := hp.down h.toInv₀ hd
  have hltd := h.linked.lt d hdL
  have hled := h.linked.le d hdL
  rw [hdf] at hltd hled
  have hx := keyNat_lt f.width key
  have hag := agree_common hltd hx
  set k := common f.bits (s.forest.key d) (keyNat f.bits key) with hk
  have hkd : k < s.forest.cidr d := by
    by_contra hge
    refine hp.next d hd (by have := not_lt.1 hge; simp only [forest] at this; omega) ?_
    rw [Forest.Matches, hdf]
    exact hag.mono (not_lt.1 hge)
  have hmfam : s.forest.fam m = f := by simp only [forest, hmf, Family.ofBitlen_bits]
  have hmkey : s.forest.key m = keyNat f.bits key := by simp only [forest, hmf, hmk]
  have hmcidr : s.forest.cidr m = k := hmc
  have hchoose : ∀ bits, (s.mem m).choose bits = msb f.bits (keyNat f.bits bits) k := by
    intro bits
    rw [AllowedipsNode.choose, hma.bitAtA, hma.bitAtB, hmf, hmc, bitAt_eq f.width _ (by omega)]
  have hsided : (s.mem m).choose (s.mem d).bits = msb f.bits (s.forest.key d) k := by
    rw [hchoose]
    simp only [forest, h.toInv₀.bitlen hdL hdf]
  have hsiden : (s.mem m).choose (s.mem n).bits = msb f.bits (keyNat f.bits key) k := by
    rw [hchoose, h.key]
  have hdiff : msb f.bits (keyNat f.bits key) k = !msb f.bits (s.forest.key d) k := by
    have := msb_common_ne hltd hx (by omega)
    rw [← hk] at this
    cases h1 : msb f.bits (keyNat f.bits key) k <;> cases h2 : msb f.bits (s.forest.key d) k <;> simp_all
  refine ⟨by rw [hsiden, hdiff, hsided], ?_⟩
  refine h.split hm h.fresh hmn hleaf h.leaf hp.live hd ?_ ⟨?_, ?_, ?_, ?_⟩ ⟨?_, ?_, ?_, ?_⟩ ?_ ?_ ?_ ?_
  · exact hp.fits h.toInv₀ hc hmfam hmkey fun p hpp => by
      rw [hmc]; exact hp.lt_common h.toInv₀ hc hd hpp
  · rw [hdf, hmfam]
  · rw [hmcidr]; exact hkd
  · rw [hmfam, hmcidr, hmkey]; exact hag.symm
  · rw [hmfam, hmcidr, hsided]
  · rw [h.forest_fam, hmfam]
  · rw [hmcidr]; exact lt_of_lt_of_eq hlt h.cidr.symm
  · rw [hmkey, h.forest_key]; exact .refl _ _ _
  · rw [hmfam, hmcidr, h.forest_key, hsided, hdiff]
  · rw [hmfam, hmcidr]; omega
  · rw [hmfam, hmkey]; exact hx
  · rw [h.forest_fam]; exact h.cidr.trans_le hc
  · rw [h.forest_fam, h.forest_key]; exact hx

theorem drop (h : Pending s L f key cidr q n) {T : PrefixTable Family P} (hT : Reads Family.bits s.forest L T) :
    Inv ((s.listDel n).kmemCacheFree n) L ∧ Reads Family.bits ((s.listDel n).kmemCacheFree n).forest L T := by
  have hs : SameOn L s ((s.listDel n).kmemCacheFree n) :=
    ⟨rfl, fun p hp => update_of_ne (fun he : p = n => h.fresh (he ▸ hp)) ..⟩
  refine ⟨⟨hs.inv₀ le_rfl h.toInv₀, ?_, ?_, ?_⟩, hT.congr hs.samePrefix hs.val⟩
  · intro p hp
    rw [hs.mem p hp]; exact h.branches p hp
  · intro r p
    show p ∈ (s.list r).erase n ↔ _
    rw [(h.nodup r).mem_erase_iff, h.list, Set.mem_insert_iff]
    constructor
    · rintro ⟨hne, hp | hp, hpeer⟩
      · exact absurd hp hne
      · rw [hs.mem p hp]; exact ⟨hp, hpeer⟩
    · rintro ⟨hp, hpeer⟩
      rw [hs.mem p hp] at hpeer
      exact ⟨fun he => h.fresh (he ▸ hp), .inr hp, hpeer⟩
  · exact fun r => (h.nodup r).erase n

end Pending

theorem Assigned.copy {v : AllowedipsNode P} {src : Bytes} {cidr : Nat} :
    (v.copyAndAssignCidr src cidr f.bits).Assigned := ⟨f.width, rfl, rfl⟩

/-- A node filled in by `copy_and_assign_cidr` from `src` reads the key of `src`. -/
theorem keyNat_copyAndAssignCidr {v : AllowedipsNode P} {src : Bytes} {cidr : Nat} (hlen : f.bits / 8 ≤ src.length) :
    keyNat f.bits (v.copyAndAssignCidr src cidr f.bits).bits = keyNat f.bits src :=
  keyNat_copy f.width hlen

theorem sameOn_alloc {M : Set Nat} (hM : ∀ p ∈ M, p < s.brk) (v : AllowedipsNode P) :
    SameOn M s ({ s.setNode s.brk .zero with brk := s.brk + 1 }.setNode s.brk v) := by
  refine ⟨rfl, fun p hp => ?_⟩
  have hne : p ≠ s.brk := (hM p hp).ne
  simp [setNode, hne]

/-- How a call for `key/cidr` and `q` may leave the trie: reading as the table with the prefix if it
succeeded, and as the old one if not. -/
def Outcome (T : PrefixTable Family P) (f : Family) (key : Bytes) (cidr : Nat) (q : P) (res : Ret × Allowedips P) :
    Prop :=
  ∃ L', Inv res.2 L' ∧ Reads Family.bits res.2.forest L'
    (if res.1 = .ok then T.insert f (mask f.bits cidr (keyNat f.bits key)) cidr q else T)

section
variable {key : Bytes} {cidr : Nat} {q : P} {parent : Option Nat} {T : PrefixTable Family P}

theorem Pending.addAbove_fits [DecidableEq P] (h : Pending s L f key cidr q n) (hp : Placed s L f key cidr parent)
    (hc : cidr ≤ f.bits) (hT : Reads Family.bits s.forest L T) (hd : s.forest.slot (s.place f parent key) = some d)
    (hle : cidr ≤ common f.bits (s.forest.key d) (keyNat f.bits key)) :
    Outcome T f key cidr q (.ok, (s.chooseAndConnectNode n d).connectUnder f parent n) := by
  rw [chooseAndConnectNode_eq, hp.connectUnder_eq h.toInv₀ hc Relinked.connectNode h.key]
  refine ⟨insert n L, h.finish hT hp.absent (Relinked.connectNode.trans .connectNode) (h.above hp hc hd hle)
    (fun _ _ => Iff.rfl) (fun p hpL hnp => absurd hpL hnp) ?_⟩
  intro p hpL hnone b
  rcases Set.mem_insert_iff.1 hpL with rfl | hpL
  · rw [h.peer] at hnone; cases hnone
  · exact slot_connectNode_isSome (τ := .bit p b) (slot_connectNode_isSome (h.branches p hpL hnone b))

/-- The internal node `m` that `add` fills in has the new node and `d` on different sides. -/
theorem Pending.beside_of_mem [DecidableEq P] {m : Nat} (h : Pending s L f key cidr q n)
    (hp : Placed s L f key cidr parent)
    (hc : cidr ≤ f.bits) (hd : s.forest.slot (s.place f parent key) = some d)
    (hlt : common f.bits (s.forest.key d) (keyNat f.bits key) < cidr) (hm : m ∉ L) (hmn : n ≠ m)
    (src : Bytes) (hmem : s.mem m = AllowedipsNode.zero.copyAndAssignCidr src
      (common f.bits (s.forest.key d) (keyNat f.bits key)) f.bits)
    (hmk : keyNat f.bits (s.mem m).bits = keyNat f.bits key) :
    (s.mem m).choose (s.mem n).bits = !(s.mem m).choose (s.mem d).bits ∧
    Linked Family.bits (((s.connectNode (.bit m ((s.mem m).choose (s.mem d).bits)) d).connectNode
      (.bit m !(s.mem m).choose (s.mem d).bits) n).connectNode (s.place f parent key) m).forest
      (insert n (insert m L)) :=
  h.beside hp hc hd hlt hm hmn (by rw [hmem]; exact fun _ => rfl) (by rw [hmem]; exact Assigned.copy)
    (by rw [hmem]; rfl) hmk (by rw [hmem]; rfl)

theorem Pending.addAbove_split [DecidableEq P] {m : Nat} (h : Pending s L f key cidr q n)
    (hp : Placed s L f key cidr parent)
    (hc : cidr ≤ f.bits) (hT : Reads Family.bits s.forest L T) (hd : s.forest.slot (s.place f parent key) = some d)
    (hlt : common f.bits (s.forest.key d) (keyNat f.bits key) < cidr) (hm : m ∉ L) (hmn : n ≠ m) (hmb : m < s.brk)
    (src : Bytes) (hmem : s.mem m = AllowedipsNode.zero.copyAndAssignCidr src
      (common f.bits (s.forest.key d) (keyNat f.bits key)) f.bits)
    (hsrc : f.bits / 8 ≤ src.length) (hkey : keyNat f.bits src = keyNat f.bits key) :
    Outcome T f key cidr q
      (.ok, ((s.chooseAndConnectNode m d).chooseAndConnectNode m n).connectUnder f parent m) := by
  have hmk : keyNat f.bits (s.mem m).bits = keyNat f.bits key := by
    rw [hmem, keyNat_copyAndAssignCidr hsrc, hkey]
  obtain ⟨hside, hl⟩ := h.beside_of_mem hp hc hd hlt hm hmn src hmem hmk
  have hr : Relinked s (s.chooseAndConnectNode m d) := .chooseAndConnectNode
  have hcode : ((s.chooseAndConnectNode m d).chooseAndConnectNode m n).connectUnder f parent m =
      ((s.connectNode (.bit m ((s.mem m).choose (s.mem d).bits)) d).connectNode
        (.bit m !(s.mem m).choose (s.mem d).bits) n).connectNode (s.place f parent key) m := by
    rw [hp.connectUnder_eq h.toInv₀ hc (hr.trans .chooseAndConnectNode) hmk,
      chooseAndConnectNode_eq, hr.choose, hr.bits, hside]
    rfl
  rw [hcode]
  have hmpeer : (s.mem m).peer = none := by rw [hmem]; rfl
  refine ⟨insert n (insert m L), h.finish hT hp.absent ((Relinked.connectNode.trans .connectNode).trans .connectNode)
    hl ?_ ?_ ?_⟩
  · intro p hpp
    have : p ≠ m := fun he => hpp (he ▸ hmpeer)
    simp [this]
  · intro p hpL hnp
    rcases hpL with rfl | rfl | hpL
    · exact absurd (Set.mem_insert ..) hnp
    · rw [hmem]; exact ⟨Assigned.copy, hmb⟩
    · exact absurd (Set.mem_insert_of_mem _ hpL) hnp
  · intro p hpL hnone b
    rcases hpL with rfl | rfl | hpL
    · rw [h.peer] at hnone; cases hnone
    · -- the internal node got both its children
      have hboth : b = (s.mem p).choose (s.mem d).bits ∨ b = !(s.mem p).choose (s.mem d).bits := by
        cases b <;> cases (s.mem p).choose (s.mem d).bits <;> simp
      have hsome : ∀ σ, ((((s.connectNode (.bit p ((s.mem p).choose (s.mem d).bits)) d).connectNode
          (.bit p !(s.mem p).choose (s.mem d).bits) n).connectNode σ p).forest.slot (.bit p b)).isSome := by
        intro σ
        refine slot_connectNode_isSome ?_
        rcases hboth with hb | hb
        · refine slot_connectNode_isSome ?_
          rw [slot_connectNode, ← hb, if_pos rfl]; rfl
        · rw [slot_connectNode, ← hb, if_pos rfl]; rfl
      exact hsome _
    · exact slot_connectNode_isSome (τ := .bit p b)
        (slot_connectNode_isSome (slot_connectNode_isSome (h.branches p hpL hnone b)))

/-- `s` with the internal node of length `k` above `n` allocated and filled in. -/
abbrev withInternal [DecidableEq P] (s : Allowedips P) (f : Family) (n k : Nat) : Allowedips P :=
  AllowedipsMemory.internal s n k f.bits

theorem withInternal_mem [DecidableEq P] {k : Nat} (hn : n ≠ s.brk) :
    (s.withInternal f n k).mem s.brk = AllowedipsNode.zero.copyAndAssignCidr (s.mem n).bits k f.bits := by
  simp [AllowedipsMemory.internal, AllowedipsMemory.state, AllowedipsMemory.store, AllowedipsStore.exec, setNode, hn]

theorem Pending.withInternal [DecidableEq P] (h : Pending s L f key cidr q n) (hp : Placed s L f key cidr parent)
    (hd : s.forest.slot (s.place f parent key) = some d) (k : Nat) :
    SameOn L s (s.withInternal f n k) ∧ Pending (s.withInternal f n k) L f key cidr q n ∧
      Placed (s.withInternal f n k) L f key cidr parent ∧
      (s.withInternal f n k).place f parent key = s.place f parent key ∧
      (s.withInternal f n k).forest.slot (s.place f parent key) = some d := by
  have hM : ∀ p ∈ insert n L, p < s.brk := by
    rintro p (rfl | hpL)
    exacts [h.lt, h.lt_brk p hpL]
  have hs : SameOn (insert n L) s (s.withInternal f n k) := sameOn_alloc hM _
  have hsL : SameOn L s (s.withInternal f n k) := ⟨hs.root, fun p hpL => hs.mem p (Set.mem_insert_of_mem _ hpL)⟩
  obtain ⟨hplace, hp₂⟩ := hp.congr h.toInv₀ hsL
  refine ⟨hsL, h.congr hs rfl (Nat.le_succ _), hp₂, hplace, ?_⟩
  rw [hsL.slot hp.live]
  exact hd

theorem Pending.commonBits_eq (h : Pending s L f key cidr q n) (hp : Placed s L f key cidr parent)
    (hd : s.forest.slot (s.place f parent key) = some d) :
    commonBits (s.mem d).bits key f.bits = common f.bits (s.forest.key d) (keyNat f.bits key) := by
  obtain ⟨hdL, hdf, -⟩ := hp.down h.toInv₀ hd
  rw [WireguardAes.commonBits_eq f.width]
  simp only [forest, h.toInv₀.bitlen hdL hdf]

theorem Pending.addAbove_spec [DecidableEq P] (h : Pending s L f key cidr q n) (hp : Placed s L f key cidr parent)
    (hc : cidr ≤ f.bits) (hT : Reads Family.bits s.forest L T) (hd : s.forest.slot (s.place f parent key) = some d)
    (fail : Bool) : Outcome T f key cidr q (s.addAbove f f.bits key cidr parent n d fail) := by
  have hdL := (hp.down h.toInv₀ hd).1
  have hends := s.addedAbove f f.bits key cidr parent n d fail
  rw [h.commonBits_eq hp hd] at hends
  generalize s.addAbove f f.bits key cidr parent n d fail = res at hends ⊢
  cases hends with
  | fits hfits =>
    have hfits : (s.mem n).cidr = _ := hfits
    rw [h.cidr] at hfits
    exact h.addAbove_fits hp hc hT hd (by omega)
  | enomem => exact ⟨L, h.drop hT⟩
  | split hsplit =>
    have hsplit : (s.mem n).cidr ≠ _ := hsplit
    rw [h.cidr] at hsplit
    have hk : min cidr (common f.bits (s.forest.key d) (keyNat f.bits key)) =
      common f.bits (s.forest.key d) (keyNat f.bits key) := by omega
    rw [hk]
    obtain ⟨hs, h₂, hp₂, hplace, hd₂⟩ := h.withInternal hp hd (common f.bits (s.forest.key d) (keyNat f.bits key))
    have hkeyd := (hs.samePrefix d hdL).2.2
    refine h₂.addAbove_split hp₂ hc (hT.congr hs.samePrefix hs.val) (d := d) ?_ ?_ (m := s.brk) ?_ h.lt.ne ?_
      (s.mem n).bits ?_ h.len h.key
    · rw [hplace]; exact hd₂
    · rw [hkeyd]; omega
    · exact fun hm => (h.lt_brk _ hm).ne rfl
    · exact Nat.lt_succ_self _
    · rw [hkeyd]; exact withInternal_mem h.lt.ne

/-! ### The cases of `add` -/

/-- `s` with a node at `s.brk` allocated and filled in for `key/cidr` of `q`. -/
abbrev withNewnode [DecidableEq P] (s : Allowedips P) (f : Family) (key : Bytes) (cidr : Nat) (q : P) : Allowedips P :=
  AllowedipsMemory.newnode s q key cidr f.bits

theorem Inv.pending [DecidableEq P] (h : Inv s L) (cidr : Nat) (q : P) (hlen : f.bits / 8 ≤ key.length) :
    SameOn L s (s.withNewnode f key cidr q) ∧ Pending (s.withNewnode f key cidr q) L f key cidr q s.brk := by
  have hfresh : s.brk ∉ L := fun hn => (h.lt_brk _ hn).ne rfl
  have hnode : (s.withNewnode f key cidr q).mem s.brk =
      { (AllowedipsNode.zero : AllowedipsNode P) with peer := some q }.copyAndAssignCidr key cidr f.bits := by
    simp [AllowedipsMemory.newnode, AllowedipsMemory.initNode, AllowedipsMemory.state, AllowedipsMemory.store,
      AllowedipsStore.exec, listAddTail, setPeer, setNode]
  have hs : SameOn L s (s.withNewnode f key cidr q) := by
    refine ⟨rfl, fun p hp => ?_⟩
    have hne : p ≠ s.brk := (h.lt_brk p hp).ne
    simp [AllowedipsMemory.newnode, AllowedipsMemory.initNode, AllowedipsMemory.state, AllowedipsMemory.store,
      AllowedipsStore.exec, listAddTail, setPeer, setNode, hne]
  have hlist : (s.withNewnode f key cidr q).list = update s.list q (s.list q ++ [s.brk]) := rfl
  refine ⟨hs, hs.inv₀ (Nat.le_succ _) h.toInv₀, hfresh, Nat.lt_succ_self _, ?_, ?_, ?_, ?_, ?_, ?_, ?_, ?_, ?_, ?_⟩
  · rw [hnode]; exact fun _ => rfl
  · rw [hnode]; rfl
  · rw [hnode]; rfl
  · rw [hnode]; rfl
  · rw [hnode, AllowedipsNode.copyAndAssignCidr, List.length_append, List.length_take]; omega
  · rw [hnode, keyNat_copyAndAssignCidr hlen]
  · rw [hnode]; exact Assigned.copy
  · intro p hp
    rw [hs.mem p hp]; exact h.branches p hp
  · intro r p
    rw [hlist, Set.mem_insert_iff]
    by_cases hp : p = s.brk
    · subst hp
      have hnot : ∀ r, s.brk ∉ s.list r := fun r hm => hfresh ((h.list r _).1 hm).1
      by_cases hr : r = q
      · subst hr; simp [hnode, AllowedipsNode.copyAndAssignCidr]
      · simp [hr, hnot, hnode, AllowedipsNode.copyAndAssignCidr, Ne.symm hr]
    · have hiff := h.list r p
      by_cases hpL : p ∈ L
      · rw [hs.mem p hpL]
        by_cases hr : r = q
        · subst hr; simp [hp, hpL, hiff]
        · simp [hr, hp, hpL, hiff]
      · by_cases hr : r = q
        · subst hr; simp [hp, hpL, hiff]
        · simp [hr, hp, hpL, hiff]
  · intro r
    rw [hlist]
    by_cases hr : r = q
    · subst hr
      rw [update_self, ← List.concat_eq_append]
      exact (h.nodup r).concat fun hm => hfresh ((h.list r _).1 hm).1
    · rw [update_of_ne hr]; exact h.nodup r

/-- The exact hit: the node changes hands. -/
theorem Inv.move [DecidableEq P] (h : Inv s L) (hT : Reads Family.bits s.forest L T) (hp : p ∈ L)
    (hf : s.forest.fam p = f) (hm : s.forest.Matches Family.bits p (keyNat f.bits key)) :
    Outcome T f key (s.mem p).cidr q (.ok, (s.setPeer p (some q)).listMoveTail p q) := by
  set s' := (s.setPeer p (some q)).listMoveTail p q with hs'
  have hforest : s'.forest = { s.forest with val := update s.forest.val p (some q) } :=
    forest_setPeer (s := s) (p := p) (v := some q)
  have hmem : ∀ a, s'.mem a = { s.mem a with peer := if a = p then some q else (s.mem a).peer } := by
    intro a
    by_cases ha : a = p
    · subst ha; simp [hs', listMoveTail, listDel, listAddTail, setPeer, setNode]
    · simp [hs', listMoveTail, listDel, listAddTail, setPeer, setNode, ha]
  have hlist : s'.list = update (fun r => (s.list r).erase p) q ((s.list q).erase p ++ [p]) := rfl
  have hsame : SamePrefix s.forest s'.forest L := fun c _ => by rw [hforest]; exact ⟨rfl, rfl, rfl⟩
  refine ⟨L, ⟨⟨h.linked.congr (fun τ _ => ?_) (fun c _ => by rw [hforest]) hsame, ?_, h.lt_brk⟩, ?_, ?_, ?_⟩, ?_⟩
  · rw [hforest]; cases τ <;> rfl
  · intro a ha
    rw [hmem]
    exact ⟨(h.node a ha).width, (h.node a ha).bitAtA, (h.node a ha).bitAtB⟩
  · intro a ha
    rw [hmem]
    simp only
    split
    · exact fun hnone => by cases hnone
    · exact h.branches a ha
  · intro r a
    have hiff := h.list r a
    have herase := (h.nodup r).mem_erase_iff (a := a) (b := p)
    rw [hlist, hmem]
    by_cases hap : a = p
    · subst hap
      by_cases hr : r = q
      · subst hr; simp [hp]
      · simp [hr, herase, Ne.symm hr]
    · by_cases hr : r = q
      · subst hr; simp [hap, herase, hiff]
      · simp [hr, hap, herase, hiff]
  · intro r
    rw [hlist]
    by_cases hr : r = q
    · subst hr
      rw [update_self, ← List.concat_eq_append]
      exact ((h.nodup r).erase p).concat (h.nodup r).not_mem_erase
    · rw [update_of_ne hr]; exact (h.nodup r).erase p
  · rw [if_pos rfl]
    have hmask : mask f.bits (s.mem p).cidr (keyNat f.bits key) = mask f.bits (s'.forest.cidr p) (s'.forest.key p) := by
      rw [Forest.Matches, hf] at hm
      rw [hforest]
      exact (mask_eq_iff.2 hm).symm
    rw [hmask, show (s.mem p).cidr = s'.forest.cidr p by rw [hforest]; rfl]
    refine hT.insert (fun _ _ => Iff.rfl) hsame (fun a _ hap => ?_) hp ?_ (by rw [hforest]; exact hf) ?_
    · rw [hforest]; exact update_of_ne hap ..
    · rw [hforest]; exact update_self ..
    · intro a ha _ hfa hca hma
      rw [hforest] at hfa hca hma
      exact h.linked.eq_of_prefix_eq ha hp (hfa.trans hf.symm) hca hma

theorem addAbove_ret [DecidableEq P] {fail : Bool} :
    (s.addAbove f f.bits key cidr parent n d fail).1 ≠ .einval ∧
      (fail = false → (s.addAbove f f.bits key cidr parent n d fail).1 = .ok) := by
  have hends := s.addedAbove f f.bits key cidr parent n d fail
  generalize s.addAbove f f.bits key cidr parent n d fail = res at hends ⊢
  cases hends with
  | fits => exact ⟨by simp, fun _ => rfl⟩
  | enomem => exact ⟨by simp, by simp⟩
  | split => exact ⟨by simp, fun _ => rfl⟩

/-- What `add` does in a trie with arguments that are in order: it finds no memory, gives the node
it has found to the peer, hangs a new one in a free slot, or puts it above what hangs there. -/
inductive Adds {W : Type} [AllowedipsMemory W P] (w : W) (L : Set Nat) (f : Family) (key : Bytes) (cidr : Nat) (q : P)
    (fail : Bool) : Bool → Ret × W → Prop
  | enomem : Adds w L f key cidr q fail true (.enomem, w)
  | moved {fail₁ : Bool} {p : Nat} (hp : p ∈ L) (hf : (state w).forest.fam p = f)
      (hcidr : ((state w).mem p).cidr = cidr)
      (hm : (state w).forest.Matches Family.bits p (keyNat f.bits key)) :
      Adds w L f key cidr q fail fail₁ (.ok, store (store w (.peer p (some q))) (.listMoveTail p q))
  | attached {parent : Option Nat} (hp : Placed (state w) L f key cidr parent)
      (hfree : (state w).forest.slot ((state w).place f parent key) = none) :
      Adds w L f key cidr q fail false
        (.ok, AllowedipsMemory.connectNode (newnode w q key cidr f.bits) ((state w).place f parent key) (state w).brk)
  | above {parent : Option Nat} {d : Nat} (hp : Placed (state w) L f key cidr parent)
      (hd : (state w).forest.slot ((state w).place f parent key) = some d) :
      Adds w L f key cidr q fail false (AllowedipsMemory.addAbove (m := Id) AllowedipsNode.choose
        (newnode w q key cidr f.bits) f f.bits key cidr parent (state w).brk d fail)

theorem Inv.adds [DecidableEq P] {W : Type} [AllowedipsMemory W P] [LawfulMemory W] {w : W} (h : Inv (state w) L)
    (hc : cidr ≤ f.bits) (hlen : f.bits / 8 ≤ key.length) (q : P) (fail₁ fail₂ : Bool) :
    ∃ res, AllowedipsMemory.add (m := Id) AllowedipsNode.choose w f f.bits key cidr (some q) fail₁ fail₂ = some res ∧
      Adds w L f key cidr q fail₂ fail₁ res := by
  unfold AllowedipsMemory.add
  dsimp only
  rw [if_neg (by omega)]
  cases hroot : (state w).root f with
  | none =>
    cases fail₁ with
    | true => exact ⟨_, rfl, .enomem⟩
    | false =>
      have hp : Placed (state w) L f key cidr none := by
        refine ⟨by simp, fun d hd => ?_, fun a ha hf => ?_⟩
        · cases hroot.symm.trans hd
        · obtain ⟨r, hr, -⟩ := h.linked.below_root ha
          cases (hf ▸ hroot).symm.trans hr
      exact ⟨_, rfl, .attached hp hroot⟩
  | some top =>
    have hspec := h.nodePlacement_spec key hc
    rw [hroot] at hspec
    unfold nodePlacement at hspec
    dsimp only
    rcases hspec with ⟨p, hrun, hp, hf, hcidr, hm⟩ | ⟨parent, hrun, hp⟩
    · rw [hrun]
      exact ⟨_, rfl, .moved hp hf hcidr hm⟩
    rw [hrun]
    cases fail₁ with
    | true => cases parent <;> exact ⟨_, rfl, .enomem⟩
    | false =>
      cases parent with
      | none => exact ⟨_, rfl, .above hp hroot⟩
      | some p =>
        -- the new node is not the one it hangs below
        have hnode : (state (newnode w q key cidr f.bits)).mem p = (state w).mem p := by
          rw [AllowedipsMemory.state_newnode]
          exact (h.pending cidr q hlen).1.mem p (hp.above p rfl).1
        have hb : ((state (newnode w q key cidr f.bits)).mem p).choose key =
          pure (f := Id) (((state w).mem p).choose key) := by rw [hnode]; rfl
        cases hdown : ((state w).mem p).bit (((state w).mem p).choose key) with
        | none =>
          exact ⟨_, congrArg some (AllowedipsMemory.addUnder_free hb (hnode ▸ hdown)), .attached hp hdown⟩
        | some d =>
          exact ⟨_, congrArg some (AllowedipsMemory.addUnder_taken hb (hnode ▸ hdown)), .above hp hdown⟩

theorem add_einval [DecidableEq P] {peer : Option P} {fail₁ fail₂ : Bool} (h : peer = none ∨ f.bits < cidr) :
    s.add f f.bits key cidr peer fail₁ fail₂ = some (.einval, s) := by
  cases peer with
  | none => rfl
  | some q => exact if_pos (h.resolve_left (Option.some_ne_none q))

theorem Inv.add_spec [DecidableEq P] (h : Inv s L) (hT : Reads Family.bits s.forest L T) (hc : cidr ≤ f.bits)
    (hlen : f.bits / 8 ≤ key.length) (q : P) (fail₁ fail₂ : Bool) :
    ∃ res, s.add f f.bits key cidr (some q) fail₁ fail₂ = some res ∧ res.1 ≠ .einval ∧
      (fail₁ = false → fail₂ = false → res.1 = .ok) ∧ Outcome T f key cidr q res := by
  obtain ⟨res, hres, hadds⟩ := Inv.adds (w := s) h hc hlen q fail₁ fail₂
  refine ⟨res, hres, ?_⟩
  obtain ⟨hs, hpend⟩ := h.pending cidr q hlen
  have hT' := hT.congr hs.samePrefix hs.val
  cases hadds with
  | enomem => exact ⟨by simp, by simp, L, h, hT⟩
  | moved hp hf hcidr hm =>
    subst hcidr
    exact ⟨by simp, fun _ _ => rfl, h.move hT hp hf hm⟩
  | @attached parent hp hfree =>
    refine ⟨by simp, fun _ _ => rfl, ?_⟩
    obtain ⟨hplace, hp'⟩ := hp.congr h.toInv₀ hs
    rw [← hplace]
    refine ⟨insert s.brk L, hpend.finish hT' hp'.absent .connectNode (hpend.attach hp' hc ?_)
      (fun _ _ => Iff.rfl) (fun p hpL hnp => absurd hpL hnp) ?_⟩
    · rw [hplace, hs.slot hp.live]; exact hfree
    · intro p hpL hnone b
      rcases Set.mem_insert_iff.1 hpL with rfl | hpL
      · rw [hpend.peer] at hnone; cases hnone
      · exact slot_connectNode_isSome (τ := .bit p b) (hpend.branches p hpL hnone b)
  | above hp hd =>
    obtain ⟨hplace, hp'⟩ := hp.congr h.toInv₀ hs
    refine ⟨addAbove_ret.1, fun _ => addAbove_ret.2, hpend.addAbove_spec hp' hc hT' ?_ fail₂⟩
    rw [hplace, hs.slot hp.live]
    exact hd

end
end Allowedips
end WireguardAes
