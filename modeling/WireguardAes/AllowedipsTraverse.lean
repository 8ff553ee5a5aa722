import WireguardAes.AllowedipsInv

/-!
# The traversals of a trie (`allowedips.c`)

`root_remove_peer_lists` and `root_free_rcu` walk a trie with a stack in an array of
`MAX_ALLOWEDIPS_DEPTH` entries: the node on top is taken off, its children are put there, and
something is done with the node. An entry lies no higher in the array than its prefix is long, since
a child has a longer prefix than its node, so that the array is never full (`Stacked`); and what
hangs below one entry hangs below no other, so that no node is met twice (`Apart`).
-/

namespace WireguardAes

open PrefixForest BitPrefix

namespace Allowedips
variable {P : Type}

/-- `push_rcu`, with the check as a build with or without `DEBUG` has it; `none` is a write past the
end of the array. -/
def pushRcuBuild (debug : Bool) (stack : List Nat) (p : Option Nat) : Option (List Nat) :=
  if p.isSome ∧ debug ∧ maxAllowedipsDepth ≤ stack.length then some stack else pushRcu stack p

/-- The loop of both traversals, with the nodes it takes off the stack: `body` is what it does with
a node after the pushes. -/
def stackLoop (debug : Bool) (body : Allowedips P → Nat → Allowedips P) (s : Allowedips P) :
    Nat → List Nat → Option (List Nat × Allowedips P)
  | _, [] => some ([], s)
  | 0, _ :: _ => none
  | fuel + 1, node :: stack =>
    match (pushRcuBuild debug stack ((s.mem node).bit false)).bind (pushRcuBuild debug · ((s.mem node).bit true)) with
    | none => none
    | some stack => ((body s node).stackLoop debug body fuel stack).map fun (visits, s) => (node :: visits, s)

/-- `if (rcu_access_pointer(node->peer)) list_del(&node->peer_list);` -/
def unlist (s : Allowedips P) (node : Nat) : Allowedips P :=
  if (s.mem node).peer.isSome then s.listDel node else s

def rootFreeRcu (debug : Bool) (s : Allowedips P) (fuel : Nat) (root : Nat) : Option (List Nat × Allowedips P) :=
  s.stackLoop debug kmemCacheFree fuel [root]

variable {s t : Allowedips P} {L : Set Nat} {f : Family} {p n c : Nat} {stack rest visits : List Nat} {o : Option Nat}

theorem pushRcuBuild_eq (debug : Bool) {stack' : List Nat} (h : pushRcu stack o = some stack') :
    pushRcuBuild debug stack o = some stack' := by
  unfold pushRcuBuild
  split_ifs with hfull
  · obtain ⟨d, rfl⟩ := Option.isSome_iff_exists.mp hfull.1
    rw [pushRcu, if_neg (Nat.not_lt.mpr hfull.2.2)] at h
    cases h
  · exact h

/-- Without `DEBUG` the loop of `root_remove_peer_lists` is this one. -/
theorem rootRemovePeerListsLoop_eq [DecidableEq P] (s : Allowedips P) (fuel : Nat) (stack : List Nat) :
    s.rootRemovePeerListsLoop fuel stack = (s.stackLoop false unlist fuel stack).map Prod.snd := by
  induction fuel generalizing s stack with
  | zero => cases stack <;> rfl
  | succ fuel ih =>
    cases stack with
    | nil => rfl
    | cons n rest =>
      have hpush : pushRcuBuild false = pushRcu := by
        funext stack p
        simp [pushRcuBuild]
      rw [rootRemovePeerListsLoop, AllowedipsMemory.rootRemovePeerListsLoop, stackLoop, hpush]
      dsimp only [AllowedipsMemory.state]
      cases (pushRcu rest ((s.mem n).bit false)).bind (pushRcu · ((s.mem n).bit true)) with
      | none => rfl
      | some stack =>
        dsimp only
        rw [Option.map_map]
        exact ih (s.unlist n) stack

/-! ### The stack -/

/-- A bound on the nodes below `p`, whose prefixes are longer. -/
def weight (s : Allowedips P) (bits p : Nat) : Nat := 2 ^ (bits + 1 - (s.mem p).cidr) - 1

/-- In the array, the entry number `i` has a prefix of length at least `i`. -/
def Stacked (s : Allowedips P) : List Nat → Prop
  | [] => True
  | a :: rest => rest.length ≤ (s.mem a).cidr ∧ s.Stacked rest

/-- The children of a node, the one pushed last first. -/
def children (s : Allowedips P) (n : Nat) : List Nat := ((s.mem n).bit true).toList ++ ((s.mem n).bit false).toList

theorem mem_children : c ∈ s.children n ↔ ∃ b, s.forest.bit n b = some c := by
  rw [children, List.mem_append, Option.mem_toList, Option.mem_toList, Bool.exists_bool, or_comm]
  rfl

/-- Pushing a child of a node with prefix length `k` on a stack of at most `k + 1` entries. -/
theorem pushRcu_spec {k : Nat} (hst : s.Stacked stack) (hlen : stack.length ≤ k + 1)
    (ho : ∀ c, o = some c → k < (s.mem c).cidr ∧ (s.mem c).cidr ≤ 128) :
    pushRcu stack o = some (o.toList ++ stack) ∧ s.Stacked (o.toList ++ stack) := by
  cases o with
  | none => exact ⟨rfl, hst⟩
  | some d =>
    obtain ⟨hlt, hle⟩ := ho d rfl
    refine ⟨if_pos ?_, ?_, hst⟩
    · show stack.length < 129
      omega
    · show stack.length ≤ (s.mem d).cidr
      omega

theorem below_iff {g : Forest Family P} :
    g.Below n p ↔ p = n ∨ ∃ b c, g.bit n b = some c ∧ g.Below c p := by
  constructor
  · intro hb
    rcases Relation.ReflTransGen.cases_head hb with heq | ⟨c, ⟨b, hc⟩, hcp⟩
    exacts [.inl heq.symm, .inr ⟨b, c, hc, hcp⟩]
  · rintro (rfl | ⟨b, c, hc, hcp⟩)
    exacts [.refl, .head ⟨b, hc⟩ hcp]

theorem Inv₀.weight_child (h : Inv₀ s L) (hn : n ∈ L) (hf : s.forest.fam n = f) {b : Bool}
    (hc : (s.mem n).bit b = some c) :
    c ∈ L ∧ s.forest.fam c = f ∧ (s.mem n).cidr < (s.mem c).cidr ∧
      s.weight f.bits c ≤ 2 ^ (f.bits - (s.mem n).cidr) - 1 := by
  obtain ⟨hcL, -, hcf, hlt, -⟩ := h.linked.child hn hc
  have hlt' : (s.mem n).cidr < (s.mem c).cidr := hlt
  refine ⟨hcL, hcf.trans hf, hlt', Nat.sub_le_sub_right (Nat.pow_le_pow_right (by decide) ?_) 1⟩
  omega

theorem Inv₀.pushRcu_both (h : Inv₀ s L) (hn : n ∈ L) (hf : s.forest.fam n = f) (hst : s.Stacked (n :: rest))
    (debug : Bool) :
    (pushRcuBuild debug rest ((s.mem n).bit false)).bind (pushRcuBuild debug · ((s.mem n).bit true)) =
      some (s.children n ++ rest) ∧ s.Stacked (s.children n ++ rest) := by
  have hchild : ∀ b c, (s.mem n).bit b = some c → (s.mem n).cidr < (s.mem c).cidr ∧ (s.mem c).cidr ≤ 128 := by
    intro b c hc
    obtain ⟨hcL, hcf, hlt, -⟩ := h.weight_child hn hf hc
    exact ⟨hlt, (h.cidr_le hcL hcf).trans f.bits_le⟩
  obtain ⟨hp₁, hs₁⟩ := pushRcu_spec hst.2 (Nat.le_succ_of_le hst.1) (hchild false)
  have hlen : (((s.mem n).bit false).toList ++ rest).length ≤ (s.mem n).cidr + 1 := by
    have hone := Option.length_toList_le (o := (s.mem n).bit false)
    have hrest := hst.1
    rw [List.length_append]
    omega
  obtain ⟨hp₂, hs₂⟩ := pushRcu_spec hs₁ hlen (hchild true)
  rw [children, List.append_assoc, pushRcuBuild_eq debug hp₁, Option.bind_some, pushRcuBuild_eq debug hp₂]
  exact ⟨rfl, hs₂⟩

theorem sum_toList_le {w : Nat → Nat} {v : Nat} (ho : ∀ c, o = some c → w c ≤ v) : (o.toList.map w).sum ≤ v := by
  cases o with
  | none => exact Nat.zero_le v
  | some d => simpa using ho d rfl

/-- The two children weigh less than the node. -/
theorem Inv₀.weight_children (h : Inv₀ s L) (hn : n ∈ L) (hf : s.forest.fam n = f) :
    ((s.children n).map (s.weight f.bits)).sum < s.weight f.bits n := by
  have hchild : ∀ b, ((((s.mem n).bit b).toList).map (s.weight f.bits)).sum ≤ 2 ^ (f.bits - (s.mem n).cidr) - 1 :=
    fun b => sum_toList_le fun c hc => (h.weight_child hn hf hc).2.2.2
  have hfalse := hchild false
  have htrue := hchild true
  have hle := h.cidr_le hn hf
  have hpow : 2 ^ (f.bits + 1 - (s.mem n).cidr) = 2 * 2 ^ (f.bits - (s.mem n).cidr) := by
    rw [← Nat.pow_succ', Nat.succ_sub hle]
  have hpos : 0 < 2 ^ (f.bits - (s.mem n).cidr) := Nat.two_pow_pos _
  rw [children, List.map_append, List.sum_append, weight]
  omega

/-! ### The nodes that a traversal meets -/

/-- What hangs below one entry of the stack hangs below no other. -/
def Apart (s : Allowedips P) (stack : List Nat) : Prop :=
  stack.Pairwise fun a b => ∀ p, s.forest.Below a p → ¬ s.forest.Below b p

/-- Two children are apart, and a child is apart from whatever its node was apart from. -/
theorem Inv₀.apart_children (h : Inv₀ s L) (hn : n ∈ L) (hst : s.Apart (n :: rest)) :
    s.Apart (s.children n ++ rest) := by
  obtain ⟨hhead, hrest⟩ := List.pairwise_cons.mp hst
  refine List.pairwise_append.mpr ⟨?_, hrest, fun c hc b hb p hp => ?_⟩
  · rw [children]
    cases htrue : (s.mem n).bit true with
    | none => cases (s.mem n).bit false <;> simp
    | some c =>
      cases hfalse : (s.mem n).bit false with
      | none => simp
      | some d =>
        refine List.pairwise_pair.mpr fun p hc hd => ?_
        have hone := h.linked.msb_below_child hn htrue hc
        rw [h.linked.msb_below_child hn hfalse hd] at hone
        cases hone
  · obtain ⟨d, hd⟩ := mem_children.mp hc
    exact hhead b hb p (.head ⟨d, hd⟩ hp)

/-- Whatever is done with the nodes, the loop meets `visits` and nothing else. -/
structure Traversal (s : Allowedips P) (stack visits : List Nat) : Prop where
  nodup : visits.Nodup
  mem : ∀ p, p ∈ visits ↔ ∃ a ∈ stack, s.forest.Below a p
  loop : ∀ (debug : Bool) (body : Allowedips P → Nat → Allowedips P) (t : Allowedips P) (fuel : Nat),
    (∀ t n p, p ≠ n → (body t n).mem p = t.mem p) → (∀ p ∈ visits, t.mem p = s.mem p) → visits.length ≤ fuel →
      t.stackLoop debug body fuel stack = some (visits, visits.foldl body t)

theorem Traversal.nil : Traversal s [] [] := by
  refine ⟨List.nodup_nil, by simp, fun debug body t fuel _ _ _ => ?_⟩
  cases fuel <;> rfl

theorem Traversal.not_mem (hv : Traversal s (s.children n ++ rest) visits) (h : Inv₀ s L) (hn : n ∈ L)
    (hapart : s.Apart (n :: rest)) : n ∉ visits := by
  intro hmem
  obtain ⟨a, ha, hb⟩ := (hv.mem n).mp hmem
  rcases List.mem_append.mp ha with ha | ha
  · obtain ⟨b, hc⟩ := mem_children.mp ha
    exact h.linked.not_below_child hn hc hb
  · exact (List.pairwise_cons.mp hapart).1 a ha n .refl hb

/-- What hangs below the children and below the other entries is what hangs below the stack, the
node on top apart. -/
theorem Traversal.mem_cons (hv : Traversal s (s.children n ++ rest) visits) (p : Nat) :
    p ∈ n :: visits ↔ ∃ a ∈ n :: rest, s.forest.Below a p := by
  rw [List.mem_cons, hv.mem]
  constructor
  · rintro (rfl | ⟨a, ha, hb⟩)
    · exact ⟨p, List.mem_cons_self, .refl⟩
    rcases List.mem_append.mp ha with ha | ha
    · obtain ⟨b, hc⟩ := mem_children.mp ha
      exact ⟨n, List.mem_cons_self, .head ⟨b, hc⟩ hb⟩
    · exact ⟨a, List.mem_cons_of_mem _ ha, hb⟩
  · rintro ⟨a, ha, hb⟩
    rcases List.mem_cons.mp ha with rfl | ha
    · rcases below_iff.mp hb with heq | ⟨b, c, hc, hb⟩
      · exact .inl heq
      · exact .inr ⟨c, List.mem_append_left _ (mem_children.mpr ⟨b, hc⟩), hb⟩
    · exact .inr ⟨a, List.mem_append_right _ ha, hb⟩

theorem Traversal.cons (hv : Traversal s (s.children n ++ rest) visits) (h : Inv₀ s L) (hn : n ∈ L)
    (hf : s.forest.fam n = f) (hst : s.Stacked (n :: rest)) (hapart : s.Apart (n :: rest)) :
    Traversal s (n :: rest) (n :: visits) := by
  have hnot := hv.not_mem h hn hapart
  refine ⟨List.nodup_cons.mpr ⟨hnot, hv.nodup⟩, hv.mem_cons, fun debug body t fuel hbody ht hfuel => ?_⟩
  obtain ⟨fuel, rfl⟩ := Nat.exists_eq_add_of_lt (Nat.lt_of_lt_of_le (Nat.succ_pos _) hfuel)
  -- `body` has changed at most the node, which is not met again
  have hsame : ∀ p ∈ visits, (body t n).mem p = s.mem p := by
    intro p hp
    have hne : p ≠ n := fun heq => hnot (heq ▸ hp)
    rw [hbody t n p hne, ht p (List.mem_cons_of_mem _ hp)]
  rw [Nat.zero_add, List.length_cons] at hfuel
  have hrest := hv.loop debug body (body t n) fuel hbody hsame (Nat.le_of_succ_le_succ hfuel)
  rw [Nat.zero_add, stackLoop, ht n List.mem_cons_self, (h.pushRcu_both hn hf hst debug).1]
  dsimp only
  rw [hrest]
  rfl

/-- From a stack of the loop it ends, and there are no more nodes than the stack weighs. -/
theorem Inv₀.traversal (h : Inv₀ s L) (stack : List Nat) (hst : s.Stacked stack) (hapart : s.Apart stack)
    (hstack : ∀ a ∈ stack, a ∈ L ∧ s.forest.fam a = f) :
    ∃ visits, Traversal s stack visits ∧ visits.length ≤ (stack.map (s.weight f.bits)).sum := by
  -- a round takes the weight of the node off the stack and puts that of its children there
  induction hk : (stack.map (s.weight f.bits)).sum using Nat.strong_induction_on generalizing stack with
  | _ k ih =>
    cases stack with
    | nil => exact ⟨[], .nil, Nat.zero_le _⟩
    | cons n rest =>
      obtain ⟨hn, hf⟩ := hstack n List.mem_cons_self
      have hweight := h.weight_children hn hf
      have hsum : ((s.children n ++ rest).map (s.weight f.bits)).sum < k := by
        rw [List.map_cons, List.sum_cons] at hk
        rw [List.map_append, List.sum_append]
        omega
      have hstack' : ∀ a ∈ s.children n ++ rest, a ∈ L ∧ s.forest.fam a = f := by
        intro a ha
        rcases List.mem_append.mp ha with ha | ha
        · obtain ⟨b, hb⟩ := mem_children.mp ha
          obtain ⟨haL, haf, -⟩ := h.weight_child hn hf hb
          exact ⟨haL, haf⟩
        · exact hstack a (List.mem_cons_of_mem _ ha)
      obtain ⟨visits, hv, hlen⟩ := ih _ hsum _ (h.pushRcu_both hn hf hst false).2
        (h.apart_children hn hapart) hstack' rfl
      refine ⟨n :: visits, hv.cons h hn hf hst hapart, ?_⟩
      rw [List.length_cons]
      omega

theorem Inv₀.traversal_root (h : Inv₀ s L) {r : Nat} (hr : s.root f = some r) :
    ∃ visits, Traversal s [r] visits ∧ visits.length ≤ 2 ^ (f.bits + 1) := by
  obtain ⟨hrL, hrf⟩ := h.root_spec hr
  obtain ⟨visits, hv, hlen⟩ := h.traversal (f := f) [r] ⟨Nat.zero_le _, trivial⟩
    (List.pairwise_singleton ..) fun a ha => by
    rw [List.mem_singleton.mp ha]
    exact ⟨hrL, hrf⟩
  refine ⟨visits, hv, hlen.trans ?_⟩
  have hpow : 2 ^ (f.bits + 1 - (s.mem r).cidr) ≤ 2 ^ (f.bits + 1) := Nat.pow_le_pow_right (by decide) (Nat.sub_le ..)
  rw [List.map_singleton, List.sum_singleton, weight]
  exact (Nat.sub_le ..).trans hpow

end Allowedips
end WireguardAes
