import WireguardAes.AllowedipsRuns

/-!
# The shape of the allowed-IPs tries

The representation invariant in terms of what the code keeps in memory: the nodes that are reached
from the two roots, their child pointers, the packed back pointers and the lists of the peers.
-/

namespace WireguardAes

open PrefixForest BitPrefix ByteOrder

namespace Allowedips
variable {P : Type} {s s' : Allowedips P} {L : Set Nat} {p : Nat}

/-- The node hangs in one of the two tries. -/
def InTrie (s : Allowedips P) (p : Nat) : Prop := ∃ f r, s.root f = some r ∧ s.forest.Below r p

/-- The bits of a node as a number. -/
def keyOf (s : Allowedips P) (p : Nat) : Nat := keyNat (s.mem p).bitlen (s.mem p).bits

structure WellShaped (s : Allowedips P) : Prop where
  /-- Along an edge the prefix gets longer, agrees with the one above and takes the side its next
  bit says. -/
  edge : ∀ p b c, s.InTrie p → (s.mem p).bit b = some c →
    (s.mem p).cidr < (s.mem c).cidr ∧ (s.mem c).bitlen = (s.mem p).bitlen ∧
      Agree (s.mem p).bitlen (s.mem p).cidr (s.keyOf p) (s.keyOf c) ∧
      msb (s.mem p).bitlen (s.keyOf c) (s.mem p).cidr = b
  branches : ∀ p, s.InTrie p → (s.mem p).peer = none → ∀ b, ((s.mem p).bit b).isSome
  /-- Among the roots and the slots of the nodes, the back pointer designates the one that points to
  the node. -/
  parent : ∀ p, s.InTrie p → Live {p | s.InTrie p} (s.mem p).parentBitPacked ∧
    ∀ σ, Live {p | s.InTrie p} σ → (s.forest.slot σ = some p ↔ (s.mem p).parentBitPacked = σ)
  list : ∀ q p, p ∈ s.list q ↔ s.InTrie p ∧ (s.mem p).peer = some q
  nodup : ∀ q, (s.list q).Nodup

theorem Inv.inTrie_iff (h : Inv s L) : s.InTrie p ↔ p ∈ L := by
  constructor
  · rintro ⟨f, r, hr, hb⟩
    exact (h.linked.below (h.linked.down (.root f) r trivial hr).1 hb).1
  · intro hp
    obtain ⟨r, hr, hb⟩ := h.linked.below_root hp
    exact ⟨_, r, hr, hb⟩

theorem Inv.wellShaped (h : Inv s L) : WellShaped s := by
  have hL : {p | s.InTrie p} = L := Set.ext fun _ => h.inTrie_iff
  have hwidth : ∀ p ∈ L, (s.forest.fam p).bits = (s.mem p).bitlen := fun p hp => (h.bitlen hp rfl).symm
  refine ⟨?_, ?_, ?_, ?_, h.nodup⟩
  · intro p b c hp hc
    rw [h.inTrie_iff] at hp
    obtain ⟨hcL, -, hfam, hlt, hag, hside⟩ := h.linked.child hp hc
    have hlen : (s.mem c).bitlen = (s.mem p).bitlen := by rw [← hwidth c hcL, ← hwidth p hp, hfam]
    rw [hwidth p hp] at hag hside
    exact ⟨hlt, hlen, hag, hside⟩
  · intro p hp
    exact h.branches p (h.inTrie_iff.mp hp)
  · intro p hp
    rw [h.inTrie_iff] at hp
    rw [hL]
    obtain ⟨hlive, hslot⟩ := h.linked.up p hp
    refine ⟨hlive, fun σ hσ => ⟨fun hσp => (h.linked.down σ p hσ hσp).2.1, ?_⟩⟩
    rintro rfl
    exact hslot
  · intro q p
    rw [h.list, h.inTrie_iff]

/-- A trie without peers is empty: each of its nodes would have children, with longer and longer
prefixes. -/
theorem Inv.root_eq_none (h : Inv s L) (hpeer : ∀ p ∈ L, (s.mem p).peer = none) (f : Family) : s.root f = none := by
  have hempty : ∀ n, ∀ p ∈ L, (s.forest.fam p).bits - (s.mem p).cidr ≠ n := by
    intro n
    induction n using Nat.strong_induction_on with
    | _ n ih =>
      intro p hp hn
      obtain ⟨c, hc⟩ := Option.isSome_iff_exists.mp (h.branches p hp (hpeer p hp) false)
      obtain ⟨hcL, -, hfam, hlt, -⟩ := h.linked.child hp hc
      have hle : (s.mem c).cidr ≤ (s.forest.fam c).bits := h.linked.le c hcL
      rw [hfam] at hle
      have hlt' : (s.mem p).cidr < (s.mem c).cidr := hlt
      refine ih ((s.forest.fam c).bits - (s.mem c).cidr) ?_ c hcL rfl
      rw [hfam]
      omega
  cases hr : s.root f with
  | none => rfl
  | some r => exact absurd rfl (hempty _ r (h.linked.down (.root f) r trivial hr).1)

variable [DecidableEq P]

/-- After the peers of `qs` are removed, no prefix belongs to them. -/
theorem tables_removeByPeer {T : PrefixTable Family P} (qs : List P) (rs : List Ret) (hlen : rs.length = qs.length)
    {i : Family} {x c : Nat} {r : P} (h : AllowedipsCall.tables T (qs.map .removeByPeer) rs i x c = some r) :
    T i x c = some r ∧ r ∉ qs := by
  induction qs generalizing T rs with
  | nil => exact ⟨h, List.not_mem_nil⟩
  | cons q qs ih =>
    obtain ⟨r', rs, rfl⟩ := List.exists_cons_of_length_eq_add_one hlen
    obtain ⟨hT, hr⟩ := ih rs (Nat.succ.inj hlen) h
    obtain ⟨hT, hne⟩ := PrefixTable.forget_eq_some.mp hT
    exact ⟨hT, List.not_mem_cons_of_ne_of_not_mem hne hr⟩

/-- After any sequence of calls the tries are in order, and both roots are `NULL` once all the peers
that have a prefix are removed. -/
theorem wellShaped_after_run (cs : List (AllowedipsCall P)) :
    ∃ rs s, AllowedipsCall.run wgAllowedipsInit cs = some (rs, s) ∧ WellShaped s ∧
      ∀ qs : List P, (∀ q, s.list q ≠ [] → q ∈ qs) →
        ∃ rs' s', AllowedipsCall.run s (qs.map .removeByPeer) = some (rs', s') ∧ ∀ f, s'.root f = none := by
  obtain ⟨rs, s, hrun, -, h⟩ := (Agrees.init (P := P)).run cs
  obtain ⟨L, hi, hT⟩ := h.trie
  refine ⟨rs, s, hrun, hi.wellShaped, fun qs hqs => ?_⟩
  obtain ⟨rs', s', hrun', hlen, h'⟩ := h.run (qs.map .removeByPeer)
  obtain ⟨L', hi', hT'⟩ := h'.trie
  refine ⟨rs', s', hrun', hi'.root_eq_none fun p hp => ?_⟩
  by_contra hpeer
  obtain ⟨q, hq⟩ := Option.ne_none_iff_exists'.mp hpeer
  -- The prefix of `p` was already there before the removals, on the list of `q`.
  obtain ⟨hold, hnot⟩ := tables_removeByPeer qs rs' (by rw [hlen, List.length_map])
    ((hT' _ _ _ q).mpr ⟨p, hp, rfl, rfl, rfl, hq⟩)
  obtain ⟨a, ha, -, -, -, hv⟩ := (hT _ _ _ _).mp hold
  have hmem : a ∈ s.list q := (hi.list q a).mpr ⟨ha, hv⟩
  exact hnot (hqs q (List.ne_nil_of_mem hmem))

end Allowedips
end WireguardAes
