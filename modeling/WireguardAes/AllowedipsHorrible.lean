import WireguardAes.AllowedipsInv
import Mathlib.Data.Fintype.Pi

/-!
# The reference implementation of the self-test (`selftest/allowedips.c`)

`horrible_allowedips`: one list of masked prefixes of both families, longest first, of which a
lookup takes the first that matches. `Represents l T` says that the list holds the prefixes of the
table in such an order; under it the first match is the longest one.
-/

namespace WireguardAes

open BitPrefix ByteOrder

namespace Horrible

/-- `union nf_inet_addr`: four 32-bit words in network byte order. -/
abbrev NfInetAddr := Fin 4 → Nat

@[ext]
structure Node (P : Type) where
  ip : NfInetAddr
  mask : NfInetAddr
  ipVersion : Nat
  value : P

/-- `memset` fills the bytes of the whole words; a word filled in part is then written as a
whole. -/
def cidrToMask (cidr : Nat) : NfInetAddr := fun i =>
  if i.val < cidr / 32 then 0xffffffff
  else if i.val = cidr / 32 ∧ cidr % 32 ≠ 0 then (0xffffffff <<< (32 - cidr % 32)) &&& 0xffffffff
  else 0

def hweight32 (w : Nat) : Nat := (List.range 32).countP w.testBit

def maskToCidr (subnet : NfInetAddr) : Nat :=
  hweight32 (subnet 0) + hweight32 (subnet 1) + hweight32 (subnet 2) + hweight32 (subnet 3)

variable {P : Type}

def maskSelf (node : Node P) : Node P :=
  if node.ipVersion = 4 then
    { node with ip := fun i => if i = 0 then node.ip 0 &&& node.mask 0 else node.ip i }
  else if node.ipVersion = 6 then { node with ip := fun i => node.ip i &&& node.mask i }
  else node

def matchV4 (node : Node P) (ip : NfInetAddr) : Bool := ip 0 &&& node.mask 0 = node.ip 0

def matchV6 (node : Node P) (ip : NfInetAddr) : Bool :=
  ip 0 &&& node.mask 0 = node.ip 0 ∧ ip 1 &&& node.mask 1 = node.ip 1 ∧
    ip 2 &&& node.mask 2 = node.ip 2 ∧ ip 3 &&& node.mask 3 = node.ip 3

/-- The first loop of `horrible_insert_ordered`: the node with the same prefix gets the value. -/
def overwrite (node : Node P) : List (Node P) → Option (List (Node P))
  | [] => none
  | other :: rest =>
    if other.ipVersion = node.ipVersion ∧ other.mask = node.mask ∧ other.ip = node.ip then
      some ({ other with value := node.value } :: rest)
    else (overwrite node rest).map (other :: ·)

/-- The second loop: before the first node that is not longer, or at the end. -/
def place (node : Node P) : List (Node P) → List (Node P)
  | [] => [node]
  | other :: rest =>
    if maskToCidr other.mask ≤ maskToCidr node.mask then node :: other :: rest else other :: place node rest

def insertOrdered (table : List (Node P)) (node : Node P) : List (Node P) :=
  (overwrite node table).getD (place node table)

/-- `node->ip.in`, with the rest zeroed, or `node->ip.in6`. -/
def addr : Family → Nat → NfInetAddr
  | .v4, x => fun i => if i = 0 then x else 0
  | .v6, x => fun i => x >>> (32 * (3 - i.val)) % 2 ^ 32

def ipVersion : Family → Nat
  | .v4 => 4
  | .v6 => 6

/-- The node for `ip/cidr`, masked. -/
def mkNode (f : Family) (x cidr : Nat) (value : P) : Node P := maskSelf ⟨addr f x, cidrToMask cidr, ipVersion f, value⟩

def insertV4 (table : List (Node P)) (ip : Bytes) (cidr : Nat) (value : P) : List (Node P) :=
  insertOrdered table (mkNode .v4 (beNat ip) cidr value)

def insertV6 (table : List (Node P)) (ip : Bytes) (cidr : Nat) (value : P) : List (Node P) :=
  insertOrdered table (mkNode .v6 (beNat ip) cidr value)

def lookupV4 (table : List (Node P)) (ip : Bytes) : Option P :=
  (table.find? fun node => node.ipVersion = 4 ∧ matchV4 node (addr .v4 (beNat ip))).map Node.value

def lookupV6 (table : List (Node P)) (ip : Bytes) : Option P :=
  (table.find? fun node => node.ipVersion = 6 ∧ matchV6 node (addr .v6 (beNat ip))).map Node.value

def lookup (table : List (Node P)) : Family → Bytes → Option P
  | .v4, ip => lookupV4 table ip
  | .v6, ip => lookupV6 table ip

def removeByValue [DecidableEq P] (table : List (Node P)) (value : P) : List (Node P) :=
  table.filter fun node => node.value ≠ value

/-! ### Masks -/

theorem testBit_cidrToMask {cidr : Nat} {i : Fin 4} {k : Nat} :
    (cidrToMask cidr i).testBit k = decide (k < 32 ∧ 32 * i.val + 31 < cidr + k) := by
  have hones : (0xffffffff : Nat) = 2 ^ 32 - 1 := by norm_num
  rw [cidrToMask]
  split
  case isTrue h =>
    rw [hones, Nat.testBit_two_pow_sub_one, decide_eq_decide]
    omega
  case isFalse h1 =>
    split
    case isTrue h2 =>
      rw [hones, Nat.and_two_pow_sub_one_eq_mod, Nat.testBit_mod_two_pow, Nat.testBit_shiftLeft,
        Nat.testBit_two_pow_sub_one]
      simp only [← Bool.decide_and, decide_eq_decide]
      omega
    · rw [Nat.zero_testBit, eq_comm, decide_eq_false_iff_not]
      omega

theorem maskToCidr_cidrToMask {cidr : Nat} (h : cidr ≤ 128) : maskToCidr (cidrToMask cidr) = cidr := by
  have hall : ∀ c : Fin 129, maskToCidr (cidrToMask c.val) = c.val := by decide +kernel
  exact hall ⟨cidr, by omega⟩

/-- A word of two addresses agrees under the mask when their bits at the masked places do. -/
theorem and_mask_eq_iff {cidr a b : Nat} {i : Fin 4} :
    a &&& cidrToMask cidr i = b &&& cidrToMask cidr i ↔
      ∀ k < 32, 32 * i.val + 31 < cidr + k → a.testBit k = b.testBit k := by
  constructor
  · intro h k hk hm
    have := congrArg (Nat.testBit · k) h
    simpa [Nat.testBit_and, testBit_cidrToMask, hk, hm] using this
  · intro h
    refine Nat.eq_of_testBit_eq fun k => ?_
    rw [Nat.testBit_and, Nat.testBit_and, testBit_cidrToMask]
    by_cases hk : k < 32 ∧ 32 * i.val + 31 < cidr + k
    · rw [h k hk.1 hk.2]
    · simp [hk]

variable {f f' : Family} {x y cidr cidr' : Nat}

theorem and_mask_v4 (hc : cidr ≤ 32) (hx : x < 2 ^ 32) (hy : y < 2 ^ 32) :
    x &&& cidrToMask cidr 0 = y &&& cidrToMask cidr 0 ↔ Agree 32 cidr x y := by
  rw [and_mask_eq_iff]
  constructor
  · intro h i hi
    by_cases hi32 : i < 32
    · exact h i hi32 (by simp; omega)
    · exact agree_zero hx hy i (by omega)
  · exact fun h k _ hm => h k (by simp at hm; omega)

theorem and_mask_v6 (hc : cidr ≤ 128) (hx : x < 2 ^ 128) (hy : y < 2 ^ 128) :
    (∀ i, addr .v6 x i &&& cidrToMask cidr i = addr .v6 y i &&& cidrToMask cidr i) ↔ Agree 128 cidr x y := by
  -- bit `k` of word `i` is bit `32 * (3 - i) + k` of the address
  have hword : ∀ (z : Nat) (i : Fin 4) (k : Nat), k < 32 →
      (addr .v6 z i).testBit k = z.testBit (32 * (3 - i.val) + k) := by
    intro z i k hk
    rw [addr, Nat.testBit_mod_two_pow, Nat.testBit_shiftRight, decide_eq_true hk, Bool.true_and]
  simp only [and_mask_eq_iff]
  constructor
  · intro h i hi
    by_cases hi128 : i < 128
    · have hw := h ⟨3 - i / 32, by omega⟩ (i % 32) (Nat.mod_lt _ (by decide)) (by simp; omega)
      rw [hword _ _ _ (Nat.mod_lt _ (by decide)), hword _ _ _ (Nat.mod_lt _ (by decide))] at hw
      simp only at hw
      rwa [show 32 * (3 - (3 - i / 32)) + i % 32 = i by omega] at hw
    · exact agree_zero hx hy i (by omega)
  · intro h i k hk hm
    rw [hword _ _ _ hk, hword _ _ _ hk]
    exact h _ (by omega)

/-! ### Nodes -/

@[simp] theorem mkNode_mask (f : Family) (x cidr : Nat) (q : P) : (mkNode f x cidr q).mask = cidrToMask cidr := by
  cases f <;> rfl

@[simp] theorem mkNode_ipVersion (f : Family) (x cidr : Nat) (q : P) :
    (mkNode f x cidr q).ipVersion = ipVersion f := by
  cases f <;> rfl

@[simp] theorem mkNode_value (f : Family) (x cidr : Nat) (q : P) : (mkNode f x cidr q).value = q := by
  cases f <;> rfl

theorem ipVersion_inj : ipVersion f = ipVersion f' ↔ f = f' := by cases f <;> cases f' <;> decide

theorem mkNode_ip_eq_iff (hc : cidr ≤ f.bits) (hx : x < 2 ^ f.bits) (hy : y < 2 ^ f.bits) {q r : P} :
    (mkNode f x cidr q).ip = (mkNode f y cidr r).ip ↔ Agree f.bits cidr x y := by
  cases f with
  | v4 =>
    refine Iff.trans ?_ (and_mask_v4 hc hx hy)
    constructor
    · exact fun h => congrFun h 0
    · intro h
      funext i
      by_cases hi : i = 0
      · subst hi; exact h
      · simp [mkNode, maskSelf, ipVersion, addr, hi]
  | v6 =>
    exact funext_iff.trans (and_mask_v6 hc hx hy)

theorem mkNode_congr (hc : cidr ≤ f.bits) (hx : x < 2 ^ f.bits) (hy : y < 2 ^ f.bits) (h : Agree f.bits cidr x y)
    (q : P) : mkNode f x cidr q = mkNode f y cidr q :=
  Node.ext ((mkNode_ip_eq_iff hc hx hy).2 h) (by simp) (by simp) (by simp)

/-- What `horrible_insert_ordered` compares. -/
def key (node : Node P) : Nat × NfInetAddr × NfInetAddr := (node.ipVersion, node.mask, node.ip)

theorem key_mkNode_eq_iff (hc : cidr ≤ f.bits) (hx : x < 2 ^ f.bits) (hc' : cidr' ≤ f'.bits) (hy : y < 2 ^ f'.bits)
    {q r : P} : key (mkNode f x cidr q) = key (mkNode f' y cidr' r) ↔ f = f' ∧ cidr = cidr' ∧
      Agree f.bits cidr x y := by
  have hb := f.bits_le
  have hb' := f'.bits_le
  simp only [key, Prod.mk.injEq, mkNode_ipVersion, mkNode_mask, ipVersion_inj]
  constructor
  · rintro ⟨rfl, hm, hip⟩
    have hcc : cidr = cidr' := by
      rw [← maskToCidr_cidrToMask (show cidr ≤ 128 by omega), hm, maskToCidr_cidrToMask (by omega)]
    subst hcc
    exact ⟨rfl, rfl, (mkNode_ip_eq_iff hc hx hy).1 hip⟩
  · rintro ⟨rfl, rfl, hag⟩
    exact ⟨rfl, rfl, (mkNode_ip_eq_iff hc hx hy).2 hag⟩

section
variable {node o : Node P} {l l' : List (Node P)}

theorem overwrite_eq_none (h : overwrite node l = none) : ∀ o ∈ l, key o ≠ key node := by
  induction l with
  | nil => simp
  | cons a l ih =>
    rw [overwrite] at h
    split at h
    · cases h
    case isFalse hne =>
      rw [Option.map_eq_none_iff] at h
      rw [List.forall_mem_cons]
      exact ⟨fun hk => hne (by simpa [key] using hk), ih h⟩

theorem overwrite_eq_some (h : overwrite node l = some l') :
    ∃ as o bs, l = as ++ o :: bs ∧ key o = key node ∧ l' = as ++ node :: bs := by
  induction l generalizing l' with
  | nil => cases h
  | cons a l ih =>
    rw [overwrite] at h
    split_ifs at h with hk
    · obtain rfl := Option.some.inj h
      refine ⟨[], a, l, rfl, by simpa [key] using hk, ?_⟩
      rw [List.nil_append, show { a with value := node.value } = node from Node.ext hk.2.2 hk.2.1 hk.1 rfl]
    · obtain ⟨l₁, h₁, rfl⟩ := Option.map_eq_some_iff.1 h
      obtain ⟨as, o, bs, rfl, hk, rfl⟩ := ih h₁
      exact ⟨a :: as, o, bs, rfl, hk, rfl⟩

theorem mem_place : o ∈ place node l ↔ o = node ∨ o ∈ l := by
  induction l with
  | nil => simp [place]
  | cons a l ih =>
    rw [place]
    split
    · simp
    · simp [ih]; tauto

theorem sorted_place (h : l.Pairwise fun a b => maskToCidr b.mask ≤ maskToCidr a.mask) :
    (place node l).Pairwise fun a b => maskToCidr b.mask ≤ maskToCidr a.mask := by
  induction l with
  | nil => simp [place]
  | cons a l ih =>
    obtain ⟨ha, hl⟩ := List.pairwise_cons.1 h
    rw [place]
    split
    case isTrue hle =>
      refine List.pairwise_cons.2 ⟨fun b hb => ?_, h⟩
      rcases List.mem_cons.1 hb with rfl | hb
      exacts [hle, (ha b hb).trans hle]
    case isFalse hlt =>
      refine List.pairwise_cons.2 ⟨fun b hb => ?_, ih hl⟩
      rcases mem_place.1 hb with rfl | hb
      exacts [(not_le.1 hlt).le, ha b hb]

theorem nodup_place (h : (l.map key).Nodup) (hn : ∀ o ∈ l, key o ≠ key node) : ((place node l).map key).Nodup := by
  induction l with
  | nil => simp [place]
  | cons a l ih =>
    obtain ⟨ha, hl⟩ := List.nodup_cons.1 h
    rw [List.forall_mem_cons] at hn
    rw [place]
    split
    · refine List.nodup_cons.2 ⟨?_, h⟩
      simp only [List.map_cons, List.mem_cons, List.mem_map, not_or, not_exists, not_and]
      exact ⟨hn.1.symm, hn.2⟩
    · refine List.nodup_cons.2 ⟨?_, ih hl hn.2⟩
      rw [List.mem_map]
      rintro ⟨b, hb, hk⟩
      rcases mem_place.1 hb with rfl | hb
      exacts [hn.1 hk.symm, ha (List.mem_map.2 ⟨b, hb, hk⟩)]

end

/-- The test of the lookup loops. -/
def hits : Family → Nat → Node P → Bool
  | .v4, x, node => node.ipVersion = 4 ∧ matchV4 node (addr .v4 x)
  | .v6, x, node => node.ipVersion = 6 ∧ matchV6 node (addr .v6 x)

theorem lookup_eq_find (table : List (Node P)) (f : Family) (ip : Bytes) :
    lookup table f ip = (table.find? (hits f (beNat ip))).map Node.value := by
  cases f <;> rfl

theorem hits_mkNode (hc : cidr ≤ f'.bits) (hx : x < 2 ^ f.bits) (hy : y < 2 ^ f'.bits) {q : P} :
    hits f x (mkNode f' y cidr q) = true ↔ f' = f ∧ Agree f.bits cidr y x := by
  cases f with
  | v4 =>
    cases f' with
    | v4 =>
      rw [show Family.v4.bits = 32 from rfl, ← and_mask_v4 hc hy hx]
      simp only [hits, mkNode_ipVersion, ipVersion, matchV4, mkNode_mask, true_and, decide_eq_true_eq]
      exact eq_comm
    | v6 => simp [hits, ipVersion]
  | v6 =>
    cases f' with
    | v4 => simp [hits, ipVersion]
    | v6 =>
      rw [show Family.v6.bits = 128 from rfl, ← and_mask_v6 hc hy hx]
      simp only [hits, mkNode_ipVersion, ipVersion, matchV6, mkNode_mask, true_and, decide_eq_true_eq]
      constructor
      · rintro ⟨h0, h1, h2, h3⟩ i
        match i with
        | 0 => exact h0.symm
        | 1 => exact h1.symm
        | 2 => exact h2.symm
        | 3 => exact h3.symm
      · exact fun h => ⟨(h 0).symm, (h 1).symm, (h 2).symm, (h 3).symm⟩

/-! ### The list and the table -/

/-- The list holds the prefixes of the table, longest first. -/
structure Represents (l : List (Node P)) (T : PrefixTable Family P) : Prop where
  node : ∀ nd ∈ l, ∃ f x c q, c ≤ f.bits ∧ x < 2 ^ f.bits ∧ nd = mkNode f x c q ∧
    T f (BitPrefix.mask f.bits c x) c = some q
  entry : ∀ f x c q, c ≤ f.bits → x < 2 ^ f.bits → T f (BitPrefix.mask f.bits c x) c = some q → mkNode f x c q ∈ l
  sorted : l.Pairwise fun a b => maskToCidr b.mask ≤ maskToCidr a.mask
  nodup : (l.map key).Nodup

namespace Represents
variable {l : List (Node P)} {T : PrefixTable Family P}

/-- The first match is the longest. -/
theorem lookup_eq (h : Represents l T) {ip : Bytes} (hx : beNat ip < 2 ^ f.bits) :
    lookup l f ip = T.longest Family.bits f (beNat ip) := by
  rw [lookup_eq_find]
  generalize beNat ip = x at hx ⊢
  cases hfind : l.find? (hits f x) with
  | none =>
    rw [List.find?_eq_none] at hfind
    refine (PrefixTable.search_eq_none fun c hc => ?_).symm
    cases hT : T f (BitPrefix.mask f.bits c x) c with
    | none => rfl
    | some q => exact absurd ((hits_mkNode hc hx hx).2 ⟨rfl, .refl _ _ _⟩) (hfind _ (h.entry f x c q hc hx hT))
  | some nd =>
    obtain ⟨hnd, as, bs, rfl, has⟩ := List.find?_eq_some_iff_append.1 hfind
    obtain ⟨f', y, c, q, hc, hy, rfl, hT⟩ := h.node nd (by simp)
    obtain ⟨rfl, hag⟩ := (hits_mkNode hc hx hy).1 hnd
    rw [mask_eq_iff.2 hag] at hT
    rw [Option.map_some, mkNode_value]
    refine (PrefixTable.search_eq_some hc hT fun c' hlt hc' => ?_).symm
    cases hT' : T f' (BitPrefix.mask f'.bits c' x) c' with
    | none => rfl
    | some r =>
      -- a longer prefix would stand before
      have hmem := h.entry f' x c' r hc' hx hT'
      rcases List.mem_append.1 hmem with hmem | hmem
      · exact absurd ((hits_mkNode hc' hx hx).2 ⟨rfl, .refl _ _ _⟩) (by simpa using has _ hmem)
      · have hb := f'.bits_le
        have hle : maskToCidr (mkNode f' x c' r).mask ≤ maskToCidr (mkNode f' y c q).mask := by
          rcases List.mem_cons.1 hmem with heq | hmem
          · rw [heq]
          · exact (List.pairwise_cons.1 (List.pairwise_append.1 h.sorted).2.1).1 _ hmem
        rw [mkNode_mask, mkNode_mask, maskToCidr_cidrToMask (by omega), maskToCidr_cidrToMask (by omega)] at hle
        omega

theorem empty : Represents ([] : List (Node P)) PrefixTable.empty := by
  refine ⟨by simp, ?_, .nil, List.nodup_nil⟩
  intro f x c q _ _ h
  cases h

/-- The node of a prefix is in the list in place of the one that may have been there. -/
theorem mem_insertOrdered (h : Represents l T) {node o : Node P} :
    o ∈ insertOrdered l node ↔ o = node ∨ (o ∈ l ∧ key o ≠ key node) := by
  rw [insertOrdered]
  cases hov : overwrite node l with
  | none =>
    rw [Option.getD_none, mem_place]
    exact or_congr_right ⟨fun ho => ⟨ho, overwrite_eq_none hov o ho⟩, And.left⟩
  | some l' =>
    obtain ⟨as, a, bs, rfl, hk, rfl⟩ := overwrite_eq_some hov
    have hnd := h.nodup
    simp only [List.map_append, List.map_cons, List.nodup_append, List.nodup_cons, List.mem_cons, List.mem_map] at hnd
    obtain ⟨-, ⟨hbs, -⟩, has⟩ := hnd
    have has' : ∀ b ∈ as, key b ≠ key node := fun b hb => by
      rw [← hk]; exact has _ ⟨b, hb, rfl⟩ _ (.inl rfl)
    have hbs' : ∀ b ∈ bs, key b ≠ key node := fun b hb he => hbs ⟨b, hb, by rw [he, hk]⟩
    rw [Option.getD_some]
    simp only [List.mem_append, List.mem_cons]
    constructor
    · rintro (ho | rfl | ho)
      exacts [.inr ⟨.inl ho, has' o ho⟩, .inl rfl, .inr ⟨.inr (.inr ho), hbs' o ho⟩]
    · rintro (rfl | ⟨ho | rfl | ho, hne⟩)
      exacts [.inr (.inl rfl), .inl ho, absurd hk hne, .inr (.inr ho)]

theorem insert (h : Represents l T) (hc : cidr ≤ f.bits) (hx : x < 2 ^ f.bits) (q : P) :
    Represents (insertOrdered l (mkNode f x cidr q)) (T.insert f (BitPrefix.mask f.bits cidr x) cidr q) := by
  have hkey : ∀ f' y c' (r : P), c' ≤ f'.bits → y < 2 ^ f'.bits →
      (key (mkNode f' y c' r) = key (mkNode f x cidr q) ↔
        f' = f ∧ BitPrefix.mask f'.bits c' y = BitPrefix.mask f.bits cidr x ∧ c' = cidr) := by
    intro f' y c' r hc' hy
    rw [key_mkNode_eq_iff hc' hy hc hx]
    constructor
    · rintro ⟨rfl, rfl, hag⟩
      exact ⟨rfl, mask_eq_iff.2 hag, rfl⟩
    · rintro ⟨rfl, hm, rfl⟩
      exact ⟨rfl, rfl, mask_eq_iff.1 hm⟩
  refine ⟨?_, ?_, ?_, ?_⟩
  · intro nd hnd
    rcases h.mem_insertOrdered.1 hnd with rfl | ⟨hnd, hne⟩
    · exact ⟨f, x, cidr, q, hc, hx, rfl, by simp [PrefixTable.insert]⟩
    · obtain ⟨f', y, c', r, hc', hy, rfl, hT⟩ := h.node nd hnd
      refine ⟨f', y, c', r, hc', hy, rfl, ?_⟩
      rw [PrefixTable.insert, if_neg fun he => hne ((hkey f' y c' r hc' hy).2 he), hT]
  · intro f' y c' r hc' hy hT
    rw [h.mem_insertOrdered]
    rw [PrefixTable.insert_eq_some] at hT
    rcases hT with ⟨rfl, hm, rfl, rfl⟩ | ⟨hne, hT⟩
    · exact .inl (mkNode_congr hc' hy hx (mask_eq_iff.1 hm) r)
    · exact .inr ⟨h.entry f' y c' r hc' hy hT, fun he => hne ((hkey f' y c' r hc' hy).1 he)⟩
  · rw [insertOrdered]
    cases hov : overwrite (mkNode f x cidr q) l with
    | none => exact sorted_place h.sorted
    | some l' =>
      obtain ⟨as, a, bs, rfl, hk, rfl⟩ := overwrite_eq_some hov
      have hmask : a.mask = (mkNode f x cidr q).mask := (Prod.ext_iff.1 (Prod.ext_iff.1 hk).2).1
      have hs := h.sorted
      simp only [Option.getD_some, List.pairwise_append, List.pairwise_cons, List.mem_cons, forall_eq_or_imp, hmask]
        at hs ⊢
      exact hs
  · rw [insertOrdered]
    cases hov : overwrite (mkNode f x cidr q) l with
    | none => exact nodup_place h.nodup (overwrite_eq_none hov)
    | some l' =>
      obtain ⟨as, a, bs, rfl, hk, rfl⟩ := overwrite_eq_some hov
      have hnd := h.nodup
      simp only [Option.getD_some, List.map_append, List.map_cons, hk] at hnd ⊢
      exact hnd

theorem remove [DecidableEq P] (h : Represents l T) (q : P) : Represents (removeByValue l q) (T.forget q) := by
  refine ⟨?_, ?_, h.sorted.filter _, h.nodup.sublist (List.filter_sublist.map key)⟩
  · intro nd hnd
    obtain ⟨hnd, hne⟩ := List.mem_filter.1 hnd
    obtain ⟨f, x, c, r, hc, hx, rfl, hT⟩ := h.node nd hnd
    refine ⟨f, x, c, r, hc, hx, rfl, PrefixTable.forget_eq_some.2 ⟨hT, ?_⟩⟩
    simpa using hne
  · intro f x c r hc hx hT
    obtain ⟨hT, hne⟩ := PrefixTable.forget_eq_some.1 hT
    exact List.mem_filter.2 ⟨h.entry f x c r hc hx hT, by simpa using hne⟩

end Represents
end Horrible
end WireguardAes
