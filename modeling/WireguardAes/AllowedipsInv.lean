import WireguardAes.Allowedips

/-!
# The trie invariant and what a lookup finds

`Inv s L`: the nodes of `L` are linked into the two tries as a `PrefixForest`, every one of them
was filled in by `copy_and_assign_cidr`, and a node is on the list of a peer, once, exactly when it
is linked and belongs to that peer. Under it a walk of `find_node` meets all the nodes whose prefix
contains the address, so `lookup` is the longest-prefix match in the table the trie reads as.
-/

namespace WireguardAes

open PrefixForest BitPrefix ByteOrder

/-- The family of a node, by its `bitlen`. -/
def Family.ofBitlen (bitlen : Nat) : Family := if bitlen = 32 then .v4 else .v6

theorem Family.width (f : Family) : Width f.bits := by cases f <;> simp [Family.bits, Width]

theorem Family.bits_le (f : Family) : f.bits ≤ 128 := by cases f <;> decide

theorem Family.bits_ofBitlen {n : Nat} (h : Width n) : (ofBitlen n).bits = n := by
  rcases h with rfl | rfl <;> rfl

theorem Family.ofBitlen_bits (f : Family) : ofBitlen f.bits = f := by cases f <;> rfl

/-- A converted address fills the front of a key. -/
theorem Family.le_length_swapEndian (f : Family) {ip : Bytes} (hip : ip.length = f.bits / 8) :
    f.bits / 8 ≤ (swapEndian ip f.bits).length := by
  cases f <;> simp [swapEndian, Family.bits] at hip ⊢ <;> omega

/-- The node was filled in by `copy_and_assign_cidr`. -/
structure AllowedipsNode.Assigned {P : Type} (n : AllowedipsNode P) : Prop where
  width : Width n.bitlen
  bitAtA : n.bitAtA = WireguardAes.bitAtA n.cidr n.bitlen
  bitAtB : n.bitAtB = WireguardAes.bitAtB n.cidr

namespace Allowedips
variable {P : Type} {s s' : Allowedips P} {L : Set Nat} {p x : Nat} {f : Family} {key : Bytes}

def forest (s : Allowedips P) : Forest Family P where
  root := s.root
  bit p := (s.mem p).bit
  up p := (s.mem p).parentBitPacked
  fam p := Family.ofBitlen (s.mem p).bitlen
  cidr p := (s.mem p).cidr
  key p := keyNat (s.mem p).bitlen (s.mem p).bits
  val p := (s.mem p).peer

/-- A node with a peer whose prefix contains the address. -/
structure Candidate (s : Allowedips P) (L : Set Nat) (f : Family) (x a : Nat) : Prop where
  mem : a ∈ L
  fam : s.forest.fam a = f
  contains : s.forest.Matches Family.bits a x
  peer : (s.mem a).peer ≠ none

section Assigned
variable (hn : (s.mem p).Assigned) (hf : s.forest.fam p = f)
include hn hf

theorem bitlen_of_fam : (s.mem p).bitlen = f.bits := by
  rw [← hf]; exact (Family.bits_ofBitlen hn.width).symm

theorem prefixMatches_of_fam (hc : (s.mem p).cidr ≤ f.bits) :
    (s.mem p).prefixMatches key f.bits = true ↔ s.forest.Matches Family.bits p (keyNat f.bits key) := by
  rw [AllowedipsNode.prefixMatches, decide_eq_true_iff, commonBits_eq f.width,
    ← agree_iff_le_common hc (keyNat_lt f.width _) (keyNat_lt f.width _), Forest.Matches, hf]
  simp only [forest, bitlen_of_fam hn hf]

theorem choose_of_fam (hc : (s.mem p).cidr < f.bits) :
    (s.mem p).choose key = msb f.bits (keyNat f.bits key) (s.mem p).cidr := by
  rw [AllowedipsNode.choose, hn.bitAtA, hn.bitAtB, bitlen_of_fam hn hf, bitAt_eq f.width key hc]

end Assigned

/-- Everything but `branches`, which fails for a moment inside the operations. -/
structure Inv₀ (s : Allowedips P) (L : Set Nat) : Prop where
  linked : Linked Family.bits s.forest L
  node : ∀ p ∈ L, (s.mem p).Assigned
  lt_brk : ∀ p ∈ L, p < s.brk

structure Inv (s : Allowedips P) (L : Set Nat) : Prop extends Inv₀ s L where
  branches : ∀ p ∈ L, (s.mem p).peer = none → ∀ b, ((s.mem p).bit b).isSome
  list : ∀ q p, p ∈ s.list q ↔ p ∈ L ∧ (s.mem p).peer = some q
  nodup : ∀ q, (s.list q).Nodup

theorem Inv.bumpSeq (h : Inv s L) : Inv { s with updates := s.updates + 1 } L :=
  ⟨⟨h.linked, h.node, h.lt_brk⟩, h.branches, h.list, h.nodup⟩

namespace Inv₀

theorem bitlen (h : Inv₀ s L) (hp : p ∈ L) (hf : s.forest.fam p = f) : (s.mem p).bitlen = f.bits :=
  bitlen_of_fam (h.node p hp) hf

theorem cidr_le (h : Inv₀ s L) (hp : p ∈ L) (hf : s.forest.fam p = f) : (s.mem p).cidr ≤ f.bits := by
  rw [← hf]; exact h.linked.le p hp

theorem prefixMatches_iff (h : Inv₀ s L) (hp : p ∈ L) (hf : s.forest.fam p = f) :
    (s.mem p).prefixMatches key f.bits = true ↔ s.forest.Matches Family.bits p (keyNat f.bits key) :=
  prefixMatches_of_fam (h.node p hp) hf (h.cidr_le hp hf)

theorem choose_eq (h : Inv₀ s L) (hp : p ∈ L) (hf : s.forest.fam p = f) (hc : (s.mem p).cidr < f.bits) :
    (s.mem p).choose key = msb f.bits (keyNat f.bits key) (s.mem p).cidr :=
  choose_of_fam (h.node p hp) hf hc

/-- The child on the side of the key, as the walk takes it. -/
theorem choose_next (h : Inv₀ s L) (hp : p ∈ L) (hf : s.forest.fam p = f) {c : Nat}
    (hnext : (s.mem p).bit ((s.mem p).choose key) = some c) :
    c ∈ L ∧ s.forest.fam c = f ∧ (s.mem p).cidr < (s.mem c).cidr := by
  obtain ⟨hcL, -, hcf, hlt, -⟩ := h.linked.child hp hnext
  exact ⟨hcL, hcf.trans hf, hlt⟩

/-- A node below `p` whose prefix contains the key is found on the side of the key. -/
theorem below_choose (h : Inv₀ s L) (hp : p ∈ L) (hf : s.forest.fam p = f) (hc : (s.mem p).cidr < f.bits)
    {a : Nat} (hb : s.forest.Below p a) (hne : a ≠ p) (hm : s.forest.Matches Family.bits a (keyNat f.bits key)) :
    ∃ c, (s.mem p).bit ((s.mem p).choose key) = some c ∧ s.forest.Below c a := by
  obtain ⟨c, hcp, hca⟩ := h.linked.below_next hp hb hne hm
  refine ⟨c, ?_, hca⟩
  rw [h.choose_eq hp hf hc]
  rw [hf] at hcp
  exact hcp

/-- The walk of `find_node` from `node`, with `found` the best node so far: the result is the
deepest node with a peer that contains the key. -/
theorem findNodeLoop_spec (h : Inv₀ s L) (fuel : Nat) (node found : Option Nat) (hfuel : 0 < fuel)
    (hnode : ∀ p, node = some p → p ∈ L ∧ s.forest.fam p = f ∧ f.bits + 2 ≤ fuel + (s.mem p).cidr)
    (hfound : ∀ r, found = some r → s.Candidate L f (keyNat f.bits key) r)
    (hlow : ∀ r p, found = some r → node = some p → (s.mem r).cidr < (s.mem p).cidr)
    (hcover : ∀ a, s.Candidate L f (keyNat f.bits key) a →
      (∃ r, found = some r ∧ (s.mem a).cidr ≤ (s.mem r).cidr) ∨ ∃ p, node = some p ∧ s.forest.Below p a) :
    ∃ res, s.findNodeLoop (m := Id) AllowedipsNode.choose f.bits key fuel node found = some res ∧
      (∀ r, res = some r → s.Candidate L f (keyNat f.bits key) r) ∧
      ∀ a, s.Candidate L f (keyNat f.bits key) a → ∃ r, res = some r ∧ (s.mem a).cidr ≤ (s.mem r).cidr := by
  induction fuel generalizing node found with
  | zero => omega
  | succ fuel ih =>
    cases node with
    | none =>
      refine ⟨found, rfl, hfound, fun a ha => ?_⟩
      exact (hcover a ha).resolve_right fun ⟨p, hp, _⟩ => by cases hp
    | some p =>
      obtain ⟨hp, hf, hfu⟩ := hnode p rfl
      rw [findNodeLoop]
      by_cases hm : (s.mem p).prefixMatches key f.bits
      · have hmp := (h.prefixMatches_iff hp hf).1 hm
        simp only [hm, if_true]
        -- the best node after looking at `p`
        set found' := if (s.mem p).peer.isSome then some p else found with hdef
        have hfound' : ∀ r, found' = some r → s.Candidate L f (keyNat f.bits key) r := by
          intro r hr
          rw [hdef] at hr
          split_ifs at hr with hv
          · obtain rfl := Option.some.inj hr
            exact ⟨hp, hf, hmp, Option.isSome_iff_ne_none.1 hv⟩
          · exact hfound r hr
        have hlow' : ∀ r, found' = some r → (s.mem r).cidr ≤ (s.mem p).cidr := by
          intro r hr
          rw [hdef] at hr
          split at hr
          · rw [Option.some.inj hr]
          · exact (hlow r p hr rfl).le
        have hcover' : ∀ a, s.Candidate L f (keyNat f.bits key) a →
            (∃ r, found' = some r ∧ (s.mem a).cidr ≤ (s.mem r).cidr) ∨ (a ≠ p ∧ s.forest.Below p a) := by
          intro a ha
          by_cases hap : a = p
          · subst hap
            exact .inl ⟨a, by rw [hdef, if_pos (Option.isSome_iff_ne_none.2 ha.peer)], le_rfl⟩
          rcases hcover a ha with ⟨r, hr, hle⟩ | ⟨q, hq, hb⟩
          · by_cases hv' : (s.mem p).peer.isSome
            · exact .inl ⟨p, by rw [hdef, if_pos hv'], by have := hlow r p hr rfl; omega⟩
            · exact .inl ⟨r, by rw [hdef, if_neg hv']; exact hr, hle⟩
          · obtain rfl := Option.some.inj hq
            exact .inr ⟨hap, hb⟩
        by_cases hbits : (s.mem p).cidr = f.bits
        · rw [if_pos hbits]
          refine ⟨found', rfl, hfound', fun a ha => ?_⟩
          refine (hcover' a ha).resolve_right fun ⟨hap, hb⟩ => ?_
          have hlt := (h.linked.below hp hb).2.2.1.resolve_left hap
          have hle := h.cidr_le ha.mem ha.fam
          have hlt' : (s.mem p).cidr < (s.mem a).cidr := hlt
          omega
        · rw [if_neg hbits]
          have hc : (s.mem p).cidr < f.bits := lt_of_le_of_ne (h.cidr_le hp hf) hbits
          refine ih _ found' (by omega) ?_ hfound' ?_ ?_
          · intro c hnext
            obtain ⟨hcL, hcf, hlt⟩ := h.choose_next hp hf hnext
            exact ⟨hcL, hcf, by omega⟩
          · intro r c hr hnext
            have hlt := (h.choose_next hp hf hnext).2.2
            have := hlow' r hr
            omega
          · intro a ha
            refine (hcover' a ha).imp_right fun ⟨hap, hb⟩ => ?_
            exact h.below_choose hp hf hc hb hap ha.contains
      · simp only [hm]
        refine ⟨found, rfl, hfound, fun a ha => ?_⟩
        refine (hcover a ha).resolve_right fun ⟨q, hq, hb⟩ => ?_
        obtain rfl := Option.some.inj hq
        exact hm ((h.prefixMatches_iff hp hf).2 (h.linked.matches_of_below hp hb ha.contains))

theorem root_spec (h : Inv₀ s L) {p : Nat} (hp : s.root f = some p) : p ∈ L ∧ s.forest.fam p = f := by
  obtain ⟨hpL, -, hf⟩ := h.linked.down (.root f) p trivial hp
  exact ⟨hpL, hf⟩

/-- Every node of a family hangs below its root. -/
theorem below_root (h : Inv₀ s L) {a : Nat} (ha : a ∈ L) (hf : s.forest.fam a = f) :
    ∃ r, s.root f = some r ∧ s.forest.Below r a := by
  obtain ⟨r, hr, hb⟩ := h.linked.below_root ha
  rw [hf] at hr
  exact ⟨r, hr, hb⟩

theorem findNode_spec (h : Inv₀ s L) (f : Family) (key : Bytes) :
    ∃ res, s.findNode (s.root f) f.bits key = some res ∧
      (∀ r, res = some r → s.Candidate L f (keyNat f.bits key) r) ∧
      ∀ a, s.Candidate L f (keyNat f.bits key) a → ∃ r, res = some r ∧ (s.mem a).cidr ≤ (s.mem r).cidr := by
  refine h.findNodeLoop_spec _ _ _ (by omega) ?_ (by simp) (by simp) ?_
  · intro p hp
    obtain ⟨hpL, hf⟩ := h.root_spec hp
    exact ⟨hpL, hf, by omega⟩
  · intro a ha
    exact .inr (h.below_root ha.mem ha.fam)

/-- `find_node` finds the node whose peer is that of the longest-prefix match. -/
theorem findNode_longest (h : Inv₀ s L) {T : PrefixTable Family P} (hT : Reads Family.bits s.forest L T) {ip : Bytes}
    (hip : ip.length = f.bits / 8) : ∃ res, s.findNode (s.root f) f.bits (swapEndian ip f.bits) = some res ∧
      (∀ r, res = some r → (s.mem r).peer ≠ none) ∧
      (res.bind fun r => (s.mem r).peer) = T.longest Family.bits f (beNat ip) := by
  obtain ⟨res, hres, hgood, hbest⟩ := h.findNode_spec f (swapEndian ip f.bits)
  rw [keyNat_swapEndian f.width hip] at hgood hbest
  refine ⟨res, hres, fun r hr => (hgood r hr).peer, ?_⟩
  cases res with
  | none =>
    rw [hT.longest_eq_none]
    · rfl
    · intro a ha hf hm
      by_contra hv
      obtain ⟨r, hr, -⟩ := hbest a ⟨ha, hf, hm, hv⟩
      cases hr
  | some r =>
    obtain ⟨hr, hf, hm, hv⟩ := hgood r rfl
    obtain ⟨q, hq⟩ := Option.ne_none_iff_exists'.mp hv
    rw [hT.longest_eq_some h.linked hr hf hm hq]
    · exact hq
    · intro a ha hfa hma hva
      obtain ⟨r', hr', hle⟩ := hbest a ⟨ha, hfa, hma, hva⟩
      cases hr'
      exact hle

/-- `lookup` takes a reference to the peer of the longest-prefix match in the table the trie reads
as; it does not return as long as that peer is being freed. -/
theorem lookup_eq (h : Inv₀ s L) {T : PrefixTable Family P} (hT : Reads Family.bits s.forest L T)
    (refcount : P → Nat) {ip : Bytes} (hip : ip.length = f.bits / 8) (fuel : Nat) :
    s.lookup refcount f ip (fuel + 1) =
      match T.longest Family.bits f (beNat ip) with
      | none => some none
      | some q => if refcount q = 0 then none else some (some q) := by
  obtain ⟨res, hres, hpeer, hlong⟩ := h.findNode_longest hT hip
  rw [← hlong]
  cases res with
  | none =>
    rw [lookup, hres]
    rfl
  | some r =>
    obtain ⟨q, hq⟩ := Option.ne_none_iff_exists'.1 (hpeer r rfl)
    simp only [Option.bind_some, hq]
    have hget : wgPeerGetMaybeZero refcount (s.mem r).peer = if refcount q = 0 then none else some q := by
      rw [hq, wgPeerGetMaybeZero, Option.filter_some]
      split <;> simp_all
    -- the retry loop sees the same trie every time
    induction fuel with
    | zero =>
      rw [lookup, hres]
      simp only [hget]
      by_cases hz : refcount q = 0
      · simp only [if_pos hz, lookup]
      · simp only [if_neg hz]
    | succ fuel ih =>
      rw [lookup, hres]
      simp only [hget]
      by_cases hz : refcount q = 0
      · simp only [if_pos hz] at ih ⊢
        exact ih
      · simp only [if_neg hz]

end Inv₀
end Allowedips
end WireguardAes
