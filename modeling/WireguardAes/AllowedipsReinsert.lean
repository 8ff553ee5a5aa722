import WireguardAes.AllowedipsRead

/-!
# Inserting what was read back (`allowedips.c`)

`wg_allowedips_read_node` returns the prefix of a node as it was inserted, with the bits behind it
cleared. Inserting it again for the same peer finds the node itself, so nothing but the order of the
peer's list changes; and the prefixes on the lists of all peers determine the table, so that
inserting them into an empty one, in whatever order, builds one with the same answers.
-/

namespace WireguardAes

open Function PrefixForest BitPrefix ByteOrder

/-- A prefix as it is read back, and the peer whose list it is from. -/
abbrev PeerEntry (P : Type) : Type := (Family × Bytes × Nat) × P

namespace PeerEntry
variable {P : Type}

/-- An address of the family with no bits behind the prefix. -/
structure Masked (e : PeerEntry P) : Prop where
  length : e.1.2.1.length = e.1.1.bits / 8
  cidr : e.1.2.2 ≤ e.1.1.bits
  mask : mask e.1.1.bits e.1.2.2 (beNat e.1.2.1) = beNat e.1.2.1

/-- The entry of the table. -/
def entry (e : PeerEntry P) : Family × Nat × Nat × P := (e.1.1, beNat e.1.2.1, e.1.2.2, e.2)

end PeerEntry

namespace AllowedipsCall
variable {P : Type}

/-- The prefix and the peer of an insertion. -/
def inserted : AllowedipsCall P → Option (PeerEntry P)
  | insertV4 ip cidr (some peer) _ _ => some ((.v4, ip.toList, cidr.toNat), peer)
  | insertV6 ip cidr (some peer) _ _ => some ((.v6, ip.toList, cidr.toNat), peer)
  | _ => none

/-- The insertion of a prefix that was read back; the allocations succeed. -/
def reinsert : PeerEntry P → AllowedipsCall P
  | ((.v4, ip, cidr), peer) => insertV4 (.ofFn fun i => ip.getD i 0) (UInt8.ofNat cidr) (some peer) false false
  | ((.v6, ip, cidr), peer) => insertV6 (.ofFn fun i => ip.getD i 0) (UInt8.ofNat cidr) (some peer) false false

theorem toList_ofFn_getD {n : Nat} {ip : Bytes} (h : ip.length = n) :
    (Vector.ofFn fun i : Fin n => ip.getD i 0).toList = ip := by
  subst h
  refine List.ext_getElem (by simp) fun i h₁ h₂ => ?_
  simp

theorem toNat_cidr {f : Family} {cidr : Nat} (h : cidr ≤ f.bits) : (UInt8.ofNat cidr).toNat = cidr := by
  have hf : f.bits ≤ 128 := by cases f <;> decide
  exact UInt8.toNat_ofNat_of_lt (show cidr < 256 by omega)

variable {e : PeerEntry P}

theorem not_allocFails_reinsert (e : PeerEntry P) : ¬ (reinsert e).AllocFails := by
  rcases e with ⟨⟨- | -, ip, cidr⟩, peer⟩
  · rintro (h | h) <;> cases h
  · rintro (h | h) <;> cases h

theorem inserted_reinsert (h : e.Masked) : (reinsert e).inserted = some e := by
  rcases e with ⟨⟨- | -, ip, cidr⟩, peer⟩
  · have hlen : ip.length = 4 := by simpa [Family.bits] using h.length
    simp only [reinsert, inserted, toList_ofFn_getD hlen, toNat_cidr h.cidr]
  · have hlen : ip.length = 16 := by simpa [Family.bits] using h.length
    simp only [reinsert, inserted, toList_ofFn_getD hlen, toNat_cidr h.cidr]

theorem not_invalid_reinsert (h : e.Masked) : ¬ (reinsert e).Invalid := by
  rcases e with ⟨⟨- | -, ip, cidr⟩, peer⟩
  · rintro (hpeer | hcidr)
    · cases hpeer
    · exact absurd hcidr (Nat.not_lt.mpr ((toNat_cidr h.cidr).trans_le h.cidr))
  · rintro (hpeer | hcidr)
    · cases hpeer
    · exact absurd hcidr (Nat.not_lt.mpr ((toNat_cidr h.cidr).trans_le h.cidr))

variable [DecidableEq P] {s : Allowedips P} {T : PrefixTable Family P} {f : Family} {x n : Nat}
    {q : P} {c : AllowedipsCall P}

theorem exec_inserted (s : Allowedips P) (h : c.inserted = some e) :
    ∃ fail₁ fail₂, c.exec s =
      { s with updates := s.updates + 1 }.add e.1.1 e.1.1.bits (swapEndian e.1.2.1 e.1.1.bits)
        e.1.2.2 (some e.2) fail₁ fail₂ := by
  rcases c with ⟨ip, cidr, - | peer, fail₁, fail₂⟩ | ⟨ip, cidr, - | peer, fail₁, fail₂⟩ | q | _ <;> cases h
  · exact ⟨fail₁, fail₂, rfl⟩
  · exact ⟨fail₁, fail₂, rfl⟩

theorem table_inserted (T : PrefixTable Family P) (h : c.inserted = some e) :
    c.table T .ok = T.insert e.1.1 (mask e.1.1.bits e.1.2.2 (beNat e.1.2.1)) e.1.2.2 e.2 := by
  rcases c with ⟨ip, cidr, - | peer, fail₁, fail₂⟩ | ⟨ip, cidr, - | peer, fail₁, fail₂⟩ | q | _ <;> cases h
  · rfl
  · rfl

theorem table_not_inserted {r : Ret} (h : r = .ok → c.inserted = none) (hq : c.table T r f x n = some q) :
    T f x n = some q := by
  rcases c with ⟨ip, cidr, - | peer, fail₁, fail₂⟩ | ⟨ip, cidr, - | peer, fail₁, fail₂⟩ | peer | _
  · exact hq
  · cases r with
    | ok => cases h rfl
    | einval => exact hq
    | enomem => exact hq
  · exact hq
  · cases r with
    | ok => cases h rfl
    | einval => exact hq
    | enomem => exact hq
  · exact (PrefixTable.forget_eq_some.mp hq).1
  · cases hq

/-- What is in the table was inserted by a call that has succeeded. -/
theorem tables_eq_some {cs : List (AllowedipsCall P)} {rs : List Ret} (h : tables T cs rs f x n = some q) :
    T f x n = some q ∨
      ∃ c ip, (c, Ret.ok) ∈ cs.zip rs ∧ c.inserted = some ((f, ip, n), q) ∧ x = mask f.bits n (beNat ip) := by
  induction cs generalizing T rs with
  | nil => exact .inl h
  | cons c cs ih =>
    rcases rs with - | ⟨r, rs⟩
    · exact .inl h
    rcases ih h with hT | ⟨c', ip, hmem, hrest⟩
    · by_cases hnone : r = .ok → c.inserted = none
      · exact .inl (table_not_inserted hnone hT)
      · obtain ⟨rfl, hsome⟩ := Classical.not_imp.mp hnone
        obtain ⟨⟨⟨f', ip, n'⟩, q'⟩, he⟩ := Option.ne_none_iff_exists'.mp hsome
        rw [table_inserted T he, PrefixTable.insert_eq_some] at hT
        rcases hT with ⟨rfl, rfl, rfl, rfl⟩ | ⟨-, hT⟩
        · exact .inr ⟨c, ip, List.mem_cons_self, he, rfl⟩
        · exact .inl hT
    · exact .inr ⟨c', ip, List.mem_cons_of_mem _ hmem, hrest⟩

end AllowedipsCall

namespace Allowedips
variable {P : Type} {s : Allowedips P} {L : Set Nat} {T : PrefixTable Family P} {p : Nat} {q : P}

/-- The prefixes on the lists of the peers, each with its peer. -/
def readAll (s : Allowedips P) (peers : List P) : List (PeerEntry P) :=
  peers.flatMap fun q => (s.peerEntries q).map fun e => (e, q)

/-- What a node on a list reads as is an address of its family with nothing behind the prefix. -/
theorem masked_readNode (hi : Inv s L) (hs : s.Sized) (hp : p ∈ L) (q : P) :
    PeerEntry.Masked ((s.mem p).wgAllowedipsReadNode, q) := by
  obtain ⟨ip, hread, hlen, hnum⟩ := readNode_spec hi hs hp
  rw [hread]
  refine ⟨hlen, hi.cidr_le hp rfl, ?_⟩
  show mask _ _ (beNat ip) = beNat ip
  rw [hnum, mask_mask]

theorem masked_readAll (hi : Inv s L) (hs : s.Sized) {peers : List P} : ∀ e ∈ s.readAll peers, e.Masked := by
  intro e he
  obtain ⟨q, -, he⟩ := List.mem_flatMap.mp he
  obtain ⟨e', he', rfl⟩ := List.mem_map.mp he
  obtain ⟨p, hp, rfl⟩ := List.mem_map.mp he'
  exact masked_readNode hi hs ((hi.list q p).mp hp).1 q

theorem mem_readAll (hi : Inv s L) (hs : s.Sized) (hT : Reads Family.bits s.forest L T) {peers : List P}
    (hpeers : ∀ q, s.list q ≠ [] → q ∈ peers) {f : Family} {x c : Nat} :
    (f, x, c, q) ∈ (s.readAll peers).map PeerEntry.entry ↔ T f x c = some q := by
  constructor
  · intro h
    obtain ⟨e, he, heq⟩ := List.mem_map.mp h
    obtain ⟨q', -, he⟩ := List.mem_flatMap.mp he
    obtain ⟨⟨f', ip, c'⟩, hread, rfl⟩ := List.mem_map.mp he
    cases heq
    exact ((mem_peerEntries hi hs hT).mp hread).2
  · intro h
    obtain ⟨p, hpL, hfam, hmask, hcidr, hval⟩ := (hT f x c q).mp h
    dsimp only at hfam hmask hcidr hval
    have hp : p ∈ s.list q := (hi.list q p).mpr ⟨hpL, hval⟩
    obtain ⟨ip, hread, -, hnum⟩ := readNode_spec hi hs hpL
    refine List.mem_map.mpr ⟨((s.mem p).wgAllowedipsReadNode, q), ?_, ?_⟩
    · refine List.mem_flatMap.mpr ⟨q, hpeers q (List.ne_nil_of_mem hp), ?_⟩
      exact List.mem_map_of_mem (List.mem_map_of_mem hp)
    · rw [hread, PeerEntry.entry, hfam, hcidr]
      rw [hnum, hmask]

/-- `node_placement` for the prefix of a node ends at the node. -/
theorem nodePlacement_readNode (hi : Inv s L) (hs : s.Sized) (hp : p ∈ L) {f : Family} {ip : Bytes} {cidr : Nat}
    (hread : (s.mem p).wgAllowedipsReadNode = (f, ip, cidr)) :
    s.nodePlacement (s.root f) (swapEndian ip f.bits) cidr f.bits = some (some p, true) := by
  obtain ⟨ip', hspec, hlen, hnum⟩ := readNode_spec hi hs hp
  rw [hspec, Prod.mk.injEq, Prod.mk.injEq] at hread
  obtain ⟨rfl, rfl, rfl⟩ := hread
  have hkey := keyNat_swapEndian (s.forest.fam p).width hlen
  have hmatch : s.forest.Matches Family.bits p (beNat ip') := by
    unfold Forest.Matches
    rw [← mask_eq_iff, hnum, mask_mask]
  rcases hi.nodePlacement_spec (f := s.forest.fam p) (swapEndian ip' _) (hi.cidr_le hp rfl) with
    ⟨a, hrun, ha, hfam, hcidr, hm⟩ | ⟨parent, -, hplaced⟩
  · have hap : a = p := by
      refine hi.linked.eq_of_prefix_eq ha hp hfam hcidr ?_
      rw [hkey] at hm
      exact hm.trans (by rw [hfam, show s.forest.cidr a = s.forest.cidr p from hcidr]; exact hmatch.symm)
    rw [← hap] at hrun ⊢
    exact hrun
  · exact absurd (hkey.symm ▸ hmatch) (hplaced.absent p hp rfl rfl)

variable [DecidableEq P] {l : List (Horrible.Node P)}

/-- `add` for a prefix that is there only moves its node to the peer. -/
theorem add_exact {f : Family} {key : Bytes} {cidr : Nat} (hc : cidr ≤ f.bits)
    (h : s.nodePlacement (s.root f) key cidr f.bits = some (some p, true)) (q : P) (fail₁ fail₂ : Bool) :
    s.add f f.bits key cidr (some q) fail₁ fail₂ = some (.ok, (s.setPeer p (some q)).listMoveTail p q) := by
  cases hroot : s.root f with
  | none =>
    rw [hroot] at h
    cases h
  | some top =>
    rw [hroot] at h
    rw [add, AllowedipsMemory.add]
    dsimp only [AllowedipsMemory.state]
    rw [if_neg (Nat.not_lt.mpr hc), hroot]
    exact congrArg (fun placement : Option (Option Nat × Bool) => bind (m := Id) placement _) h

/-- A node is on the list of its peer only: moving it there again leaves everything else as it
is. -/
theorem setPeer_listMoveTail (hi : Inv s L) (hp : p ∈ s.list q) :
    (s.setPeer p (some q)).listMoveTail p q =
      { s with list := update s.list q ((s.list q).erase p ++ [p]) } := by
  have hpeer := ((hi.list q p).mp hp).2
  have hset : s.setPeer p (some q) = s := by
    rw [setPeer, ← hpeer]
    show s.setNode p (s.mem p) = s
    rw [setNode, update_eq_self]
  rw [hset]
  show { s with list := update (fun r => (s.list r).erase p) q ((s.list q).erase p ++ [p]) } = _
  congr 1
  funext r
  by_cases hr : r = q
  · subst hr
    rw [update_self, update_self]
  · rw [update_of_ne hr, update_of_ne hr]
    refine List.erase_of_not_mem fun hmem => hr ?_
    exact Option.some.inj (((hi.list r p).mp hmem).2.symm.trans hpeer)

theorem exec_readNode (hi : Inv s L) (hs : s.Sized) (hp : p ∈ s.list q) {c : AllowedipsCall P} {f : Family} {ip : Bytes}
    {cidr : Nat} (hread : (s.mem p).wgAllowedipsReadNode = (f, ip, cidr)) (hc : c.inserted = some ((f, ip, cidr), q)) :
    c.exec s = some (.ok,
      { s with updates := s.updates + 1, list := update s.list q ((s.list q).erase p ++ [p]) }) := by
  have hpL := ((hi.list q p).mp hp).1
  have hmasked := masked_readNode hi hs hpL q
  rw [hread] at hmasked
  obtain ⟨fail₁, fail₂, hexec⟩ := AllowedipsCall.exec_inserted s hc
  rw [hexec, add_exact hmasked.cidr (nodePlacement_readNode hi.bumpSeq hs hpL hread),
    setPeer_listMoveTail hi.bumpSeq hp]

/-! ### A table from what was read -/

/-- The insertions succeed one after the other, and each adds its entry to the table. -/
theorem Agrees.reinsert (h : Agrees s T l) (es : List (PeerEntry P)) (hes : ∀ e ∈ es, e.Masked) :
    ∃ s' l', AllowedipsCall.run s (es.map AllowedipsCall.reinsert) = some (List.replicate es.length .ok, s') ∧
      Agrees s' (T.insertAll (es.map PeerEntry.entry)) l' := by
  induction es generalizing s T l with
  | nil => exact ⟨s, l, rfl, h⟩
  | cons e es ih =>
    have he := hes e List.mem_cons_self
    obtain ⟨r, s₁, hexec, hinval, hnomem, -, h₁⟩ := h.exec (AllowedipsCall.reinsert e)
    have hr : r = .ok := by
      cases r with
      | ok => rfl
      | einval => exact absurd (hinval.mp rfl) (AllowedipsCall.not_invalid_reinsert he)
      | enomem => exact absurd rfl (hnomem (AllowedipsCall.not_allocFails_reinsert e))
    subst hr
    rw [AllowedipsCall.table_inserted T (AllowedipsCall.inserted_reinsert he), he.mask] at h₁
    obtain ⟨s', l', hrun, h'⟩ := ih h₁ fun e' he' => hes e' (List.mem_cons_of_mem _ he')
    refine ⟨s', l', ?_, h'⟩
    rw [List.map_cons, AllowedipsCall.run, hexec, Option.bind_some]
    dsimp only
    rw [hrun]
    rfl

/-- After any calls, a node on the list of a peer reads as a prefix that was inserted for the peer,
with the bits behind it cleared, its family and its `cidr`; inserting it again for the peer finds
the node and only moves it to the end of the list. The prefixes of all peers, inserted into an empty
table in any order, give one with the same answers. -/
theorem reinsert_same_answers (cs : List (AllowedipsCall P)) :
    ∃ rs s, AllowedipsCall.run wgAllowedipsInit cs = some (rs, s) ∧ rs.length = cs.length ∧
      (∀ q, ∀ p ∈ s.list q, ∃ f ip cidr, (s.mem p).wgAllowedipsReadNode = (f, ip, cidr) ∧ ip.length = f.bits / 8 ∧
        cidr ≤ f.bits ∧
        (∃ c ip₀, (c, Ret.ok) ∈ cs.zip rs ∧ c.inserted = some ((f, ip₀, cidr), q) ∧ beNat ip =
          mask f.bits cidr (beNat ip₀)) ∧
        s.nodePlacement (s.root f) (swapEndian ip f.bits) cidr f.bits = some (some p, true) ∧
        (AllowedipsCall.reinsert ((f, ip, cidr), q)).inserted = some ((f, ip, cidr), q) ∧
        ∀ c : AllowedipsCall P, c.inserted = some ((f, ip, cidr), q) → c.exec s =
          some (.ok, { s with updates := s.updates + 1, list := update s.list q ((s.list q).erase p ++ [p]) })) ∧
      ∀ peers : List P, (∀ q, s.list q ≠ [] → q ∈ peers) → ∀ es : List (PeerEntry P), es.Perm (s.readAll peers) →
        ∃ s', AllowedipsCall.run
          wgAllowedipsInit (es.map AllowedipsCall.reinsert) = some (List.replicate es.length .ok, s') ∧
          ∀ (refcount : P → Nat) (f : Family) (ip : Bytes) (fuel : Nat), ip.length = f.bits / 8 →
            s'.lookup refcount f ip fuel = s.lookup refcount f ip fuel := by
  obtain ⟨rs, s, hrun, hlen, h⟩ := (Agrees.init (P := P)).run cs
  obtain ⟨L, hi, hT⟩ := h.trie
  have hs : s.Sized := sized_run (fun _ => rfl) hrun
  refine ⟨rs, s, hrun, hlen, fun q p hp => ?_, fun peers hpeers es hperm => ?_⟩
  · obtain ⟨hpL, hpeer⟩ := (hi.list q p).mp hp
    obtain ⟨ip, hread, hip, hnum⟩ := readNode_spec hi hs hpL
    have hmasked := masked_readNode hi hs hpL q
    rw [hread] at hmasked
    refine ⟨_, ip, _, hread, hip, hmasked.cidr, ?_, nodePlacement_readNode hi hs hpL hread,
      AllowedipsCall.inserted_reinsert hmasked, fun c hc => exec_readNode hi hs hp hread hc⟩
    have hentry := (hT _ _ _ q).mpr ⟨p, hpL, rfl, rfl, rfl, hpeer⟩
    rcases AllowedipsCall.tables_eq_some hentry with hempty | ⟨c, ip₀, hc, hins, hmask⟩
    · cases hempty
    · exact ⟨c, ip₀, hc, hins, hnum.trans hmask⟩
  · have hes : ∀ e ∈ es, e.Masked := fun e he => masked_readAll hi hs e (hperm.mem_iff.mp he)
    obtain ⟨s', l', hrun', h'⟩ := (Agrees.init (P := P)).reinsert es hes
    have htable : PrefixTable.insertAll .empty (es.map PeerEntry.entry) = AllowedipsCall.tables .empty cs rs := by
      refine PrefixTable.insertAll_empty fun f x c q => ?_
      rw [(hperm.map _).mem_iff]
      exact mem_readAll hi hs hT hpeers
    rw [htable] at h'
    obtain ⟨L', hi', hT'⟩ := h'.trie
    refine ⟨s', hrun', fun refcount f ip fuel hip => ?_⟩
    cases fuel with
    | zero => rfl
    | succ fuel => rw [hi.lookup_eq hT refcount hip, hi'.lookup_eq hT' refcount hip]

end Allowedips
end WireguardAes
