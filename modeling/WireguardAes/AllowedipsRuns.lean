import WireguardAes.AllowedipsRemove
import WireguardAes.AllowedipsHorrible

/-!
# Runs of the allowed-IPs operations

Any sequence of insertions, removals by peer and frees, with node allocations that may fail. Each
call keeps `Agrees`: the trie is in order, it reads as the table of the prefixes last inserted with
success, and the list of the self-test, which makes the same successful calls, represents that
table.
-/

namespace WireguardAes

open PrefixForest BitPrefix ByteOrder

/-- A call, with the outcome of the node allocations it makes. -/
inductive AllowedipsCall (P : Type) where
  | insertV4 (ip : Vector UInt8 4) (cidr : UInt8) (peer : Option P) (fail₁ fail₂ : Bool)
  | insertV6 (ip : Vector UInt8 16) (cidr : UInt8) (peer : Option P) (fail₁ fail₂ : Bool)
  | removeByPeer (peer : P)
  | free

namespace AllowedipsCall
variable {P : Type} [DecidableEq P]

def exec (s : Allowedips P) : AllowedipsCall P → Option (Ret × Allowedips P)
  | insertV4 ip cidr peer fail₁ fail₂ => s.wgAllowedipsInsertV4 ip cidr peer fail₁ fail₂
  | insertV6 ip cidr peer fail₁ fail₂ => s.wgAllowedipsInsertV6 ip cidr peer fail₁ fail₂
  | removeByPeer peer => some (.ok, s.wgAllowedipsRemoveByPeer peer)
  | free => s.wgAllowedipsFree.map (Prod.mk .ok)

/-- The table after a call that returned `r`: a prefix belongs to the last peer it was inserted
for. -/
def table (T : PrefixTable Family P) : AllowedipsCall P → Ret → PrefixTable Family P
  | insertV4 ip cidr (some peer) _ _, .ok => T.insert .v4 (mask 32 cidr.toNat (beNat ip.toList)) cidr.toNat peer
  | insertV6 ip cidr (some peer) _ _, .ok => T.insert .v6 (mask 128 cidr.toNat (beNat ip.toList)) cidr.toNat peer
  | removeByPeer peer, _ => T.forget peer
  | free, _ => .empty
  | _, _ => T

/-- What the self-test does beside a call that returned `r`. -/
def reference (l : List (Horrible.Node P)) : AllowedipsCall P → Ret → List (Horrible.Node P)
  | insertV4 ip cidr (some peer) _ _, .ok => Horrible.insertV4 l ip.toList cidr.toNat peer
  | insertV6 ip cidr (some peer) _ _, .ok => Horrible.insertV6 l ip.toList cidr.toNat peer
  | removeByPeer peer, _ => Horrible.removeByValue l peer
  | free, _ => []
  | _, _ => l

/-- The arguments `add` refuses. -/
def Invalid : AllowedipsCall P → Prop
  | insertV4 _ cidr peer _ _ => peer = none ∨ 32 < cidr.toNat
  | insertV6 _ cidr peer _ _ => peer = none ∨ 128 < cidr.toNat
  | _ => False

def AllocFails : AllowedipsCall P → Prop
  | insertV4 _ _ _ fail₁ fail₂ => fail₁ ∨ fail₂
  | insertV6 _ _ _ fail₁ fail₂ => fail₁ ∨ fail₂
  | _ => False

def run (s : Allowedips P) : List (AllowedipsCall P) → Option (List Ret × Allowedips P)
  | [] => some ([], s)
  | c :: cs => (c.exec s).bind fun (r, s) => (run s cs).map fun (rs, s) => (r :: rs, s)

def tables (T : PrefixTable Family P) : List (AllowedipsCall P) → List Ret → PrefixTable Family P
  | c :: cs, r :: rs => tables (c.table T r) cs rs
  | _, _ => T

def references (l : List (Horrible.Node P)) : List (AllowedipsCall P) → List Ret → List (Horrible.Node P)
  | c :: cs, r :: rs => references (c.reference l r) cs rs
  | _, _ => l

end AllowedipsCall

namespace Allowedips
variable {P : Type} {s : Allowedips P} {T : PrefixTable Family P} {l : List (Horrible.Node P)}

/-- The trie, the table and the list of the self-test say the same. -/
structure Agrees (s : Allowedips P) (T : PrefixTable Family P) (l : List (Horrible.Node P)) : Prop where
  trie : ∃ L, Inv s L ∧ Reads Family.bits s.forest L T
  list : Horrible.Represents l T

theorem Agrees.init : Agrees (P := P) wgAllowedipsInit .empty [] := by
  refine ⟨⟨∅, ⟨⟨⟨?_, by simp, by simp, by simp⟩, by simp, by simp⟩, by simp, by simp [wgAllowedipsInit],
    fun _ => List.nodup_nil⟩, ?_⟩, .empty⟩
  · rintro (i | ⟨p, b⟩) c hlive hc
    · cases hc
    · exact absurd hlive (Set.notMem_empty p)
  · intro i x c q
    simp [PrefixTable.empty, Forest.entries]

theorem Agrees.bumpSeq (h : Agrees s T l) : Agrees { s with updates := s.updates + 1 } T l := by
  obtain ⟨L, hi, hT⟩ := h.trie
  exact ⟨⟨L, hi.bumpSeq, hT⟩, h.list⟩

variable [DecidableEq P]

theorem Agrees.add (h : Agrees s T l) (f : Family) (ip : Bytes) (hip : ip.length = f.bits / 8) (cidr : Nat)
    (peer : Option P) (fail₁ fail₂ : Bool) :
    ∃ r s', s.add f f.bits (swapEndian ip f.bits) cidr peer fail₁ fail₂ = some (r, s') ∧
      (r = .einval ↔ peer = none ∨ f.bits < cidr) ∧ (¬ (fail₁ ∨ fail₂) → r ≠ .enomem) ∧
      (r ≠ .ok → Agrees s' T l) ∧
      ∀ q, peer = some q → r = .ok → Agrees s' (T.insert f (mask f.bits cidr (beNat ip)) cidr q)
        (Horrible.insertOrdered l (Horrible.mkNode f (beNat ip) cidr q)) := by
  have hkey : keyNat f.bits (swapEndian ip f.bits) = beNat ip := keyNat_swapEndian f.width hip
  have hlt : beNat ip < 2 ^ f.bits := hkey ▸ keyNat_lt f.width _
  by_cases hbad : peer = none ∨ f.bits < cidr
  · refine ⟨.einval, s, add_einval hbad, by simp [hbad], by simp, fun _ => h, ?_⟩
    rintro q rfl hr
    cases hr
  · obtain ⟨L, hi, hT⟩ := h.trie
    rw [not_or] at hbad
    obtain ⟨q, rfl⟩ := Option.ne_none_iff_exists'.1 hbad.1
    obtain ⟨⟨r, s'⟩, hrun, hne, hok, L', hi', hT'⟩ :=
      hi.add_spec hT (not_lt.1 hbad.2) (f.le_length_swapEndian hip) q fail₁ fail₂
    rw [hkey] at hT'
    refine ⟨r, s', hrun, by simpa [hbad.2] using hne, ?_, ?_, ?_⟩
    · intro hf
      rw [not_or, Bool.not_eq_true, Bool.not_eq_true] at hf
      have hr : r = .ok := hok hf.1 hf.2
      rw [hr]; simp
    · intro hr
      rw [if_neg hr] at hT'
      exact ⟨⟨L', hi', hT'⟩, h.list⟩
    · rintro _ ⟨⟩ rfl
      exact ⟨⟨L', hi', hT'⟩, h.list.insert (not_lt.1 hbad.2) hlt q⟩

theorem Agrees.exec (h : Agrees s T l) (c : AllowedipsCall P) :
    ∃ r s', c.exec s = some (r, s') ∧ (r = .einval ↔ c.Invalid) ∧ (¬ c.AllocFails → r ≠ .enomem) ∧
      (r ≠ .ok → Agrees s' T l) ∧ Agrees s' (c.table T r) (c.reference l r) := by
  cases c with
  | insertV4 ip cidr peer fail₁ fail₂ =>
    obtain ⟨r, s', hrun, h1, h2, h3, h4⟩ := h.bumpSeq.add .v4 ip.toList (by simp [Family.bits]) cidr.toNat peer
      fail₁ fail₂
    refine ⟨r, s', hrun, h1, h2, h3, ?_⟩
    cases r with
    | ok =>
      cases peer with
      | none => exact absurd (h1.2 (.inl rfl)) (by simp)
      | some q => exact h4 q rfl rfl
    | einval | enomem => cases peer <;> exact h3 (by simp)
  | insertV6 ip cidr peer fail₁ fail₂ =>
    obtain ⟨r, s', hrun, h1, h2, h3, h4⟩ := h.bumpSeq.add .v6 ip.toList (by simp [Family.bits]) cidr.toNat peer
      fail₁ fail₂
    refine ⟨r, s', hrun, h1, h2, h3, ?_⟩
    cases r with
    | ok =>
      cases peer with
      | none => exact absurd (h1.2 (.inl rfl)) (by simp)
      | some q => exact h4 q rfl rfl
    | einval | enomem => cases peer <;> exact h3 (by simp)
  | removeByPeer q =>
    obtain ⟨L, hi, hT⟩ := h.trie
    exact ⟨.ok, _, rfl, by simp [AllowedipsCall.Invalid], by simp, by simp, hi.removeByPeer_spec hT q, h.list.remove q⟩
  | free =>
    obtain ⟨L, hi, -⟩ := h.trie
    obtain ⟨t, ht, -, hi', hT'⟩ := hi.free_spec
    refine ⟨.ok, t, ?_, by simp [AllowedipsCall.Invalid], by simp, by simp, ⟨∅, hi', hT'⟩, .empty⟩
    rw [AllowedipsCall.exec, ht]; rfl

theorem Agrees.run (h : Agrees s T l) (cs : List (AllowedipsCall P)) :
    ∃ rs s', AllowedipsCall.run s cs = some (rs, s') ∧ rs.length = cs.length ∧
      Agrees s' (AllowedipsCall.tables T cs rs) (AllowedipsCall.references l cs rs) := by
  induction cs generalizing s T l with
  | nil => exact ⟨[], s, rfl, rfl, h⟩
  | cons c cs ih =>
    obtain ⟨r, s₁, hrun, -, -, -, h₁⟩ := h.exec c
    obtain ⟨rs, s', hrun', hlen, h'⟩ := ih h₁
    refine ⟨r :: rs, s', ?_, by simp [hlen], h'⟩
    rw [AllowedipsCall.run, hrun]
    simp [hrun']

/-- After any sequence of calls, a lookup answers with the peer of the longest prefix that contains
the address among those last inserted with success, as the list of the self-test does; a call that
fails changes no lookup. -/
theorem lookup_after_run (cs : List (AllowedipsCall P)) :
    ∃ rs s, AllowedipsCall.run wgAllowedipsInit cs = some (rs, s) ∧ rs.length = cs.length ∧
      (∀ (f : Family) (ip : Bytes), ip.length = f.bits / 8 →
        (∀ (refcount : P → Nat) (fuel : Nat),
          (∀ q, (AllowedipsCall.tables .empty cs rs).longest Family.bits f (beNat ip) = some q → 0 < refcount q) →
          s.lookup refcount f ip (fuel + 1) =
            some ((AllowedipsCall.tables .empty cs rs).longest Family.bits f (beNat ip))) ∧
        Horrible.lookup (AllowedipsCall.references [] cs rs) f ip =
          (AllowedipsCall.tables .empty cs rs).longest Family.bits f (beNat ip)) ∧
      ∀ c : AllowedipsCall P, ∃ r s', c.exec s = some (r, s') ∧ (r = .einval ↔ c.Invalid) ∧
        (¬ c.AllocFails → r ≠ .enomem) ∧
        (r ≠ .ok → ∀ (refcount : P → Nat) (f : Family) (ip : Bytes) (fuel : Nat), ip.length = f.bits / 8 →
          s'.lookup refcount f ip fuel = s.lookup refcount f ip fuel) := by
  obtain ⟨rs, s, hrun, hlen, h⟩ := (Agrees.init (P := P)).run cs
  obtain ⟨L, hi, hT⟩ := h.trie
  refine ⟨rs, s, hrun, hlen, fun f ip hip => ⟨fun refcount fuel href => ?_, ?_⟩, fun c => ?_⟩
  · rw [hi.lookup_eq hT refcount hip]
    cases hlong : (AllowedipsCall.tables .empty cs rs).longest Family.bits f (beNat ip) with
    | none => rfl
    | some q => simp only [if_neg (href q hlong).ne']
  · refine h.list.lookup_eq ?_
    rw [← keyNat_swapEndian f.width hip]
    exact keyNat_lt f.width _
  · obtain ⟨r, s', hrun', h1, h2, h3, -⟩ := h.exec c
    refine ⟨r, s', hrun', h1, h2, fun hr refcount f ip fuel hip => ?_⟩
    obtain ⟨L', hi', hT'⟩ := (h3 hr).trie
    cases fuel with
    | zero => rfl
    | succ fuel => rw [hi.lookup_eq hT refcount hip, hi'.lookup_eq hT' refcount hip]

/-- After any calls, the two traversals of a trie meet each of its nodes once and then end, whether
the check of `push_rcu` is compiled in or not: no push finds the array full. `root_free_rcu` runs
when the trie has been taken down, which leaves the nodes as they were, and only these matter to
it. -/
theorem traversals_after_run (cs : List (AllowedipsCall P)) :
    ∃ rs s, AllowedipsCall.run wgAllowedipsInit cs = some (rs, s) ∧ rs.length = cs.length ∧
      (∃ t, s.wgAllowedipsFree = some t ∧ t.mem = s.mem) ∧
      ∀ (f : Family) (r : Nat), s.root f = some r →
        ∃ visits : List Nat, visits.Nodup ∧ (∀ p, p ∈ visits ↔ s.forest.Below r p) ∧
          ∀ (debug : Bool) (fuel : Nat), visits.length ≤ fuel →
            s.stackLoop debug unlist fuel [r] = some (visits, visits.foldl unlist s) ∧
            s.rootRemovePeerListsLoop fuel [r] = some (visits.foldl unlist s) ∧
            ∀ t : Allowedips P, (∀ p, s.forest.Below r p → t.mem p = s.mem p) →
              t.rootFreeRcu debug fuel r = some (visits, visits.foldl kmemCacheFree t) := by
  obtain ⟨rs, s, hrun, hlen, h⟩ := (Agrees.init (P := P)).run cs
  obtain ⟨L, hi, -⟩ := h.trie
  obtain ⟨t, ht, hmem, -⟩ := hi.free_spec
  refine ⟨rs, s, hrun, hlen, ⟨t, ht, hmem⟩, fun f r hr => ?_⟩
  obtain ⟨visits, hv, -⟩ := hi.traversal_root hr
  have hbelow : ∀ p, p ∈ visits ↔ s.forest.Below r p := by
    intro p
    rw [hv.mem]
    simp
  refine ⟨visits, hv.nodup, hbelow, fun debug fuel hfuel => ?_⟩
  have hunlist := fun debug => hv.loop debug unlist s fuel (fun t n p _ => by rw [mem_unlist]) (fun _ _ => rfl) hfuel
  refine ⟨hunlist debug, ?_, fun t ht => ?_⟩
  · rw [rootRemovePeerListsLoop_eq, hunlist false]
    rfl
  · refine hv.loop debug kmemCacheFree t fuel (fun t n p hne => ?_) (fun p hp => ht p ((hbelow p).mp hp)) hfuel
    exact Function.update_of_ne hne _ _

end Allowedips
end WireguardAes
