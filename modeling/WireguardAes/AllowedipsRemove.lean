import WireguardAes.AllowedipsAdd
import WireguardAes.AllowedipsTraverse

/-!
# Removal keeps the trie

`wg_allowedips_remove_by_peer` takes the nodes of a peer out one after the other. Each round clears
the peer of its node and, unless the node still branches, replaces it by its only child; a leaf
takes a peerless parent along (`removeNode_spec`). `wg_allowedips_free` walks both tries with a
stack of its own and takes every node off its peer's list (`rootRemovePeerLists_spec`).
-/

namespace WireguardAes

open Function PrefixForest BitPrefix ByteOrder

namespace Allowedips
variable {P : Type} {s s' : Allowedips P} {L : Set Nat} {p n c : Nat} {f : Family} {q : P} {σ : Slot Family}
  {o : Option Nat}

theorem slot_replaceSlot [DecidableEq P] {τ : Slot Family} :
    (s.replaceSlot σ o).forest.slot τ = if τ = σ then o else s.forest.slot τ := by
  cases o with
  | none =>
    show (s.setSlot σ none).forest.slot τ = _
    rw [forest_setSlot, Forest.slot_setSlot]
  | some c => exact slot_connectNode

theorem up_replaceSlot [DecidableEq P] : (s.replaceSlot σ o).forest.up c = if o = some c then σ else s.forest.up c := by
  cases o with
  | none =>
    show (s.setSlot σ none).forest.up c = _
    rw [forest_setSlot, Forest.up_setSlot, if_neg (by simp)]
  | some d =>
    show (s.connectNode σ d).forest.up c = _
    rw [up_connectNode, update_apply]
    simp only [Option.some.injEq, eq_comm]

theorem Relinked.replaceSlot [DecidableEq P] : Relinked s (s.replaceSlot σ o) := by
  cases o with
  | none => exact .setSlot
  | some c => exact Relinked.setParent.trans .setSlot

/-- A node with at most one child is replaced by it. -/
theorem linked_replaceSlot [DecidableEq P] (h : Linked Family.bits s.forest L) (hp : p ∈ L)
    (ho : ∀ c, o = some c → ∃ b, s.forest.bit p b = some c)
    (hone : ∀ b c, s.forest.bit p b = some c → o = some c) :
    Linked Family.bits (s.replaceSlot (s.forest.up p) o).forest (L \ {p}) := by
  refine h.unlink hp o ho hone ?_ ?_ ?_ ?_ (Relinked.replaceSlot.samePrefix L)
  · rw [slot_replaceSlot, if_pos rfl]
  · intro τ _ hτ
    rw [slot_replaceSlot, if_neg hτ]
  · intro c hc
    rw [up_replaceSlot, if_pos hc]
  · intro c _ _ hc
    rw [up_replaceSlot, if_neg hc]

/-! ### One round -/

/-- `n` has lost its peer and is off the list. -/
def clear (s : Allowedips P) (n : Nat) : Allowedips P := (s.listDel n).setPeer n none

theorem forest_clear : (s.clear n).forest = { s.forest with val := update s.forest.val n none } :=
  forest_setPeer (s := s.listDel n) (p := n) (v := none)

theorem clear_bit : ((s.clear n).mem p).bit = (s.mem p).bit := congrFun (congrArg Forest.bit forest_clear) p

theorem clear_up : ((s.clear n).mem p).parentBitPacked = (s.mem p).parentBitPacked :=
  congrFun (congrArg Forest.up forest_clear) p

theorem clear_peer : ((s.clear n).mem p).peer = if p = n then none else (s.mem p).peer := by
  have h := congrFun (congrArg Forest.val (forest_clear (s := s) (n := n))) p
  simp only [update_apply] at h
  exact h

theorem linked_clear (h : Linked Family.bits s.forest L) : Linked Family.bits (s.clear n).forest L := by
  rw [forest_clear]
  exact h.congr (fun τ _ => by cases τ <;> rfl) (fun _ _ => rfl) fun _ _ => ⟨rfl, rfl, rfl⟩

/-- The prefixes of the peers other than `q` are the same. -/
def SameOthers (q : P) (s : Allowedips P) (L : Set Nat) (s' : Allowedips P) (L' : Set Nat) : Prop :=
  ∀ i x c r, r ≠ q → ((i, x, c, r) ∈ s'.forest.entries Family.bits L' ↔
    (i, x, c, r) ∈ s.forest.entries Family.bits L)

/-- The nodes left over are linked again, and those that are gone have no peer. -/
theorem Inv.removed (h : Inv s L) (hn : (s.mem n).peer = some q) (hr : Relinked (s.clear n) s') {L' : Set Nat}
    (hl : Linked Family.bits s'.forest L') (hsub : L' ⊆ L)
    (hkeep : ∀ p ∈ L, p ≠ n → (s.mem p).peer ≠ none → p ∈ L')
    (hbr : ∀ p ∈ L', ((s.clear n).mem p).peer = none → ∀ b, ((s'.mem p).bit b).isSome) :
    Inv s' L' ∧ s'.list q = (s.list q).erase n ∧ SameOthers q s L s' L' := by
  have hval : s'.forest.val = update s.forest.val n none := by rw [hr.val, forest_clear]
  have hpeer : ∀ p, (s'.mem p).peer = if p = n then none else (s.mem p).peer := fun p =>
    (hr.peer p).trans clear_peer
  have hlist : s'.list = fun r => (s.list r).erase n := hr.list
  refine ⟨⟨⟨hl, fun p hp => hr.assigned ?_, fun p hp => ?_⟩, fun p hp hnone => hbr p hp ?_, ?_, ?_⟩, ?_, ?_⟩
  · obtain ⟨h1, h2, h3⟩ := h.node p (hsub hp)
    by_cases hpn : p = n
    · subst hpn
      refine ⟨?_, ?_, ?_⟩ <;> simpa [clear, listDel, setPeer, setNode]
    · refine ⟨?_, ?_, ?_⟩ <;> simpa [clear, listDel, setPeer, setNode, hpn]
  · rw [hr.brk]; exact h.lt_brk p (hsub hp)
  · rw [← hr.peer]; exact hnone
  · intro r p
    rw [hlist, (h.nodup r).mem_erase_iff, h.list, hpeer]
    by_cases hpn : p = n
    · simp [hpn]
    · rw [if_neg hpn]
      constructor
      · rintro ⟨-, hp, hpr⟩
        exact ⟨hkeep p hp hpn (by rw [hpr]; exact Option.some_ne_none _), hpr⟩
      · rintro ⟨hp, hpr⟩
        exact ⟨hpn, hsub hp, hpr⟩
  · intro r
    rw [hlist]; exact (h.nodup r).erase n
  · rw [hlist]
  · intro i x c r hrq
    have hfam : s'.forest.fam = s.forest.fam := by rw [hr.fam, forest_clear]
    have hcidr : s'.forest.cidr = s.forest.cidr := by rw [hr.cidr, forest_clear]
    have hkey : s'.forest.key = s.forest.key := by rw [hr.key, forest_clear]
    simp only [Forest.entries, Set.mem_ofPred_eq, hfam, hcidr, hkey, hval]
    refine exists_congr fun p => ?_
    by_cases hpn : p = n
    · subst hpn
      have hv : s.forest.val p = some q := hn
      simp [hv, Ne.symm hrq]
    · rw [update_of_ne hpn]
      constructor
      · rintro ⟨hp, hrest⟩
        exact ⟨hsub hp, hrest⟩
      · rintro ⟨hp, h1, h2, h3, h4⟩
        refine ⟨hkeep p hp hpn ?_, h1, h2, h3, h4⟩
        rw [show (s.mem p).peer = some r from h4]
        exact Option.some_ne_none _

/-- The node has at most one child, and that takes its place. -/
theorem Inv.removeNode_unlink [DecidableEq P] (h : Inv s L) (hp : n ∈ L) (hn : (s.mem n).peer = some q)
    (hone : ∀ b c, (s.mem n).bit b = some c → o = some c) (ho : ∀ c, o = some c → ∃ b, (s.mem n).bit b = some c)
    (hkeep : ∀ p b, (s.mem n).parentBitPacked = .bit p b → (s.mem p).peer = none → o.isSome) :
    Inv ((s.clear n).replaceSlot (s.mem n).parentBitPacked o) (L \ {n}) ∧
      ((s.clear n).replaceSlot (s.mem n).parentBitPacked o).list q = (s.list q).erase n ∧
      SameOthers q s L ((s.clear n).replaceSlot (s.mem n).parentBitPacked o) (L \ {n}) := by
  have hl := linked_replaceSlot (linked_clear (n := n) h.linked) hp (o := o)
    (fun c hc => by simpa only [forest, clear_bit] using ho c hc)
    (fun b c hc => hone b c (by simpa only [forest, clear_bit] using hc))
  rw [show (s.clear n).forest.up n = (s.mem n).parentBitPacked from clear_up] at hl
  refine h.removed hn .replaceSlot hl (fun _ hc => hc.1) (fun p hpL hpn _ => ⟨hpL, hpn⟩) ?_
  rintro p ⟨hpL, hpn⟩ hnone b
  have hpn' : p ≠ n := hpn
  rw [clear_peer, if_neg hpn'] at hnone
  have hslot := slot_replaceSlot (s := s.clear n) (σ := (s.mem n).parentBitPacked) (o := o) (τ := .bit p b)
  have hbit : ((((s.clear n).replaceSlot (s.mem n).parentBitPacked o).mem p).bit b) =
      if Slot.bit p b = (s.mem n).parentBitPacked then o else ((s.clear n).mem p).bit b := hslot
  rw [hbit, clear_bit]
  split_ifs with heq
  · exact hkeep p b heq.symm hnone
  · exact h.branches p hpL hnone b

/-- A leaf goes together with its peerless parent, whose other child takes their place. -/
theorem Inv.removeNode_collapse [DecidableEq P] (h : Inv s L) (hp : n ∈ L) (hn : (s.mem n).peer = some q)
    (hleaf : ∀ b, (s.mem n).bit b = none) {parent : Nat} {b : Bool} (hup : (s.mem n).parentBitPacked = .bit parent b)
    (hpar : (s.mem parent).peer = none) (hs' : s' = (s.clear n).replaceSlot (.bit parent b) none) :
    Inv (s'.replaceSlot (s'.mem parent).parentBitPacked ((s'.mem parent).bit !b)) ((L \ {n}) \ {parent}) ∧
      (s'.replaceSlot (s'.mem parent).parentBitPacked ((s'.mem parent).bit !b)).list q = (s.list q).erase n ∧
      SameOthers q s L (s'.replaceSlot (s'.mem parent).parentBitPacked ((s'.mem parent).bit !b))
        ((L \ {n}) \ {parent}) := by
  have hr : Relinked (s.clear n) s' := by rw [hs']; exact .replaceSlot
  have hl : Linked Family.bits s'.forest (L \ {n}) := by
    have := linked_replaceSlot (linked_clear (n := n) h.linked) hp (o := none) (by simp)
      (fun b c hc => by
        have : (s.mem n).bit b = some c := by simpa only [forest, clear_bit] using hc
        rw [hleaf] at this; cases this)
    rw [show (s.clear n).forest.up n = .bit parent b from clear_up.trans hup] at this
    rw [hs']; exact this
  -- the slots of `s'`: that of `n` is empty, the others are as before
  have hslot : ∀ p b', (s'.mem p).bit b' = if p = parent ∧ b' = b then none else (s.mem p).bit b' := by
    intro p b'
    have := slot_replaceSlot (s := s.clear n) (σ := .bit parent b) (o := none) (τ := .bit p b')
    rw [← hs'] at this
    simp only [Forest.slot, forest, clear_bit, Slot.bit.injEq] at this
    exact this
  obtain ⟨hlive, hslotn⟩ := h.linked.up n hp
  rw [show s.forest.up n = .bit parent b from hup] at hlive hslotn
  obtain ⟨-, -, -, hlt, -⟩ := h.linked.child hlive hslotn
  have hne : parent ≠ n := fun he => by rw [he] at hlt; exact lt_irrefl _ hlt
  have hparL : parent ∈ L \ {n} := ⟨hlive, hne⟩
  have hsib : ((s'.mem parent).bit !b).isSome := by
    rw [hslot, if_neg (by simp)]
    exact h.branches parent hlive hpar _
  have hl₂ := linked_replaceSlot hl hparL (o := (s'.mem parent).bit !b) (fun c hc => ⟨_, hc⟩) (by
    intro b' c hc
    have hc' : (s'.mem parent).bit b' = some c := hc
    by_cases hb : b' = b
    · rw [hslot, if_pos ⟨rfl, hb⟩] at hc'; cases hc'
    · rw [← hc']
      congr
      cases b <;> cases b' <;> simp_all)
  refine h.removed hn (hr.trans .replaceSlot) hl₂ (fun _ hc => hc.1.1) ?_ ?_
  · intro p hpL hpn hpp
    exact ⟨⟨hpL, hpn⟩, fun he => hpp (by rw [Set.mem_singleton_iff.1 he]; exact hpar)⟩
  · rintro p ⟨⟨hpL, hpn⟩, hpp⟩ hnone b'
    have hpn' : p ≠ n := hpn
    have hpp' : p ≠ parent := hpp
    rw [clear_peer, if_neg hpn'] at hnone
    have hbit := slot_replaceSlot (s := s') (σ := (s'.mem parent).parentBitPacked) (o := (s'.mem parent).bit !b)
      (τ := .bit p b')
    have hbit' : ((s'.replaceSlot (s'.mem parent).parentBitPacked ((s'.mem parent).bit !b)).mem p).bit b' =
        if Slot.bit p b' = (s'.mem parent).parentBitPacked then (s'.mem parent).bit !b else (s'.mem p).bit b' := hbit
    rw [hbit']
    split
    · exact hsib
    · rw [hslot, if_neg fun he => hpp' he.1]
      exact h.branches p hpL hnone b'

theorem Inv.callRcu {head : RcuHead} (h : Inv s L) : Inv (s.callRcu head) L :=
  ⟨⟨h.linked, h.node, h.lt_brk⟩, h.branches, h.list, h.nodup⟩

theorem replaceSlot_callRcu [DecidableEq P] {head : RcuHead} :
    AllowedipsMemory.replaceSlot (s.callRcu head) σ o = (s.replaceSlot σ o).callRcu head := by
  cases o <;> cases σ <;> rfl

theorem only_child {v : AllowedipsNode P} (h : ¬ ((v.bit false).isSome ∧ (v.bit true).isSome)) (b : Bool) (c : Nat)
    (hc : v.bit b = some c) : v.bit (v.bit false).isNone = some c := by
  cases h0 : v.bit false <;> cases h1 : v.bit true <;> cases b <;> simp_all

/-- One round of the loop: the node of `q` is gone, and the prefixes of the others are as before. -/
theorem Inv.removeNode_spec [DecidableEq P] (h : Inv s L) (hp : n ∈ L) (hn : (s.mem n).peer = some q) :
    ∃ L', Inv (s.removeNode n) L' ∧ (s.removeNode n).list q = (s.list q).erase n ∧
      SameOthers q s L (s.removeNode n) L' := by
  rw [removeNode, AllowedipsMemory.removeNode]
  simp only [AllowedipsMemory.state, AllowedipsMemory.store, AllowedipsStore.exec,
    show (s.listDel n).setPeer n none = s.clear n from rfl, clear_bit, clear_up]
  by_cases hboth : ((s.mem n).bit false).isSome ∧ ((s.mem n).bit true).isSome
  · rw [if_pos hboth]
    refine ⟨L, h.removed hn (.refl _) (linked_clear h.linked) subset_rfl (fun p hpL _ _ => hpL) ?_⟩
    intro p hpL hnone b
    rw [clear_bit]
    by_cases hpn : p = n
    · subst hpn
      cases b
      exacts [hboth.1, hboth.2]
    · rw [clear_peer, if_neg hpn] at hnone
      exact h.branches p hpL hnone b
  · rw [if_neg hboth]
    -- the only child, if there is one
    have ho : ∀ c, (s.mem n).bit ((s.mem n).bit false).isNone = some c → ∃ b, (s.mem n).bit b = some c :=
      fun c hc => ⟨_, hc⟩
    have hone := only_child hboth
    cases hup : (s.mem n).parentBitPacked with
    | root i =>
      obtain ⟨hi, hlist, hs⟩ := h.removeNode_unlink hp hn hone ho (by simp [hup])
      rw [hup] at hi hlist hs
      exact ⟨_, hi.callRcu, hlist, hs⟩
    | bit parent b =>
      have hne : parent ≠ n := by
        rintro rfl
        obtain ⟨hlive, hslotn⟩ := h.linked.up parent hp
        rw [show s.forest.up parent = .bit parent b from hup] at hlive hslotn
        exact lt_irrefl _ (h.linked.child hlive hslotn).2.2.2.1
      have hpeer : ((((s.clear n).replaceSlot (.bit parent b) ((s.mem n).bit ((s.mem n).bit false).isNone)).mem
          parent).peer) = (s.mem parent).peer := by
        rw [Relinked.replaceSlot.peer, clear_peer, if_neg hne]
      simp only [hpeer]
      split_ifs with hfree
      · have hnone : ∀ b, (s.mem n).bit b = none := by
          intro b
          cases b
          exacts [Option.isNone_iff_eq_none.1 hfree.1, Option.isNone_iff_eq_none.1 hfree.2.1]
        rw [hnone]
        obtain ⟨hi, hlist, hs⟩ := h.removeNode_collapse hp hn hnone hup (Option.isNone_iff_eq_none.1 hfree.2.2) rfl
        rw [replaceSlot_callRcu]
        exact ⟨_, hi.callRcu.callRcu, hlist, hs⟩
      · obtain ⟨hi, hlist, hs⟩ := h.removeNode_unlink hp hn hone ho (by
          intro p b' hpb hnone
          rw [hup] at hpb
          obtain ⟨rfl, rfl⟩ := Slot.bit.inj hpb
          by_contra hno
          refine hfree ?_
          cases h0 : (s.mem n).bit false <;> cases h1 : (s.mem n).bit true <;> simp_all)
        rw [hup] at hi hlist hs
        exact ⟨_, hi.callRcu, hlist, hs⟩

/-! ### The whole list -/

theorem Inv.foldl_removeNode [DecidableEq P] (h : Inv s L) (l : List Nat) (hl : s.list q = l) :
    ∃ L', Inv (l.foldl removeNode s) L' ∧ (l.foldl removeNode s).list q = [] ∧
      SameOthers q s L (l.foldl removeNode s) L' := by
  induction l generalizing s L with
  | nil => exact ⟨L, h, hl, fun _ _ _ _ _ => Iff.rfl⟩
  | cons n l ih =>
    obtain ⟨hn, hpeer⟩ := (h.list q n).1 (by rw [hl]; exact List.mem_cons_self ..)
    obtain ⟨L₁, h₁, hl₁, hs₁⟩ := h.removeNode_spec hn hpeer
    rw [hl, List.erase_cons_head] at hl₁
    obtain ⟨L₂, h₂, hl₂, hs₂⟩ := ih h₁ hl₁
    exact ⟨L₂, h₂, hl₂, fun i x c r hr => (hs₂ i x c r hr).trans (hs₁ i x c r hr)⟩

/-- `wg_allowedips_remove_by_peer` forgets the prefixes of the peer. -/
theorem Inv.removeByPeer_spec [DecidableEq P] (h : Inv s L) {T : PrefixTable Family P}
    (hT : Reads Family.bits s.forest L T) (q : P) :
    ∃ L', Inv (s.wgAllowedipsRemoveByPeer q) L' ∧
      Reads Family.bits (s.wgAllowedipsRemoveByPeer q).forest L' (T.forget q) := by
  have hfinish : ∀ {s' : Allowedips P} {L'}, Inv s' L' → s'.list q = [] → SameOthers q s L s' L' →
      Reads Family.bits s'.forest L' (T.forget q) := by
    intro s' L' h' hnil hs i x c r
    rw [PrefixTable.forget_eq_some]
    by_cases hr : r = q
    · subst hr
      refine ⟨fun hh => absurd rfl hh.2, ?_⟩
      rintro ⟨p, hp, -, -, -, hv⟩
      have := (h'.list r p).2 ⟨hp, hv⟩
      rw [hnil] at this
      cases this
    · rw [hs i x c r hr, hT i x c r]
      exact and_iff_left hr
  rw [wgAllowedipsRemoveByPeer_eq]
  by_cases hnil : s.list q = []
  · rw [if_pos hnil]
    exact ⟨L, h, hfinish h hnil fun _ _ _ _ _ => Iff.rfl⟩
  · rw [if_neg hnil]
    obtain ⟨L', h', hl', hs'⟩ := h.bumpSeq.foldl_removeNode (q := q) _ rfl
    exact ⟨L', h', hfinish h' hl' hs'⟩

/-! ### Freeing everything -/

theorem mem_unlist (s : Allowedips P) (n : Nat) : (s.unlist n).mem = s.mem := by
  unfold unlist
  split <;> rfl

theorem mem_list_unlist (hnd : ∀ r, (s.list r).Nodup) (r : P) :
    p ∈ (s.unlist n).list r ↔ p ∈ s.list r ∧ ((s.mem p).peer = none ∨ p ≠ n) := by
  unfold unlist
  split_ifs with hpeer
  · rw [listDel, (hnd r).mem_erase_iff]
    by_cases hpn : p = n
    · subst hpn
      simp [Option.isSome_iff_ne_none.1 hpeer]
    · simp [hpn]
  · by_cases hpn : p = n
    · subst hpn
      rw [Option.not_isSome_iff_eq_none] at hpeer
      simp [hpeer]
    · simp [hpn]

theorem nodup_unlist (hnd : ∀ r, (s.list r).Nodup) (r : P) : ((s.unlist n).list r).Nodup := by
  unfold unlist
  split
  exacts [(hnd r).erase n, hnd r]

theorem foldl_unlist (visits : List Nat) (hnd : ∀ r, (s.list r).Nodup) :
    (visits.foldl unlist s).mem = s.mem ∧ (visits.foldl unlist s).root = s.root ∧
      (visits.foldl unlist s).brk = s.brk ∧ (∀ r, ((visits.foldl unlist s).list r).Nodup) ∧
      ∀ r p, p ∈ (visits.foldl unlist s).list r ↔ p ∈ s.list r ∧ ((s.mem p).peer = none ∨ p ∉ visits) := by
  induction visits generalizing s with
  | nil => exact ⟨rfl, rfl, rfl, hnd, by simp⟩
  | cons n visits ih =>
    obtain ⟨hmem, hroot, hbrk, hnd', hlist⟩ := ih (s := s.unlist n) (nodup_unlist hnd)
    have hroot' : (s.unlist n).root = s.root := by
      unfold unlist
      split <;> rfl
    have hbrk' : (s.unlist n).brk = s.brk := by
      unfold unlist
      split <;> rfl
    refine ⟨hmem.trans (mem_unlist s n), hroot.trans hroot', hbrk.trans hbrk', hnd', fun r p => ?_⟩
    rw [List.foldl_cons, hlist, mem_list_unlist hnd, mem_unlist, and_assoc, ← or_and_left, List.mem_cons, not_or]

/-- `root_remove_peer_lists` ends without filling its array, with every node of the trie off the
lists. -/
theorem Inv₀.rootRemovePeerLists_spec [DecidableEq P] {s₀ : Allowedips P} (h : Inv₀ s₀ L) (hmem : s.mem = s₀.mem)
    (hnd : ∀ r, (s.list r).Nodup) {a : Nat} (hroot : s₀.root f = some a) :
    ∃ t, s.rootRemovePeerLists f.bits a = some t ∧ t.mem = s.mem ∧ t.root = s.root ∧ t.brk = s.brk ∧
      (∀ r, (t.list r).Nodup) ∧ ∀ r p, p ∈ t.list r ↔
        p ∈ s.list r ∧ ((s.mem p).peer = none ∨ ¬ s₀.forest.Below a p) := by
  obtain ⟨visits, hv, hlen⟩ := h.traversal_root hroot
  obtain ⟨htm, htr, htb, htn, htl⟩ := foldl_unlist visits hnd
  refine ⟨_, ?_, htm, htr, htb, htn, fun r p => ?_⟩
  · have hloop := hv.loop false unlist s _ (fun t n p _ => by rw [mem_unlist]) (fun p _ => by rw [hmem]) hlen
    rw [rootRemovePeerLists, rootRemovePeerListsLoop_eq, hloop]
    rfl
  · rw [htl, hv.mem]
    simp

/-- One of the two tries: with its nodes gone from the lists, nothing of its family is left
there. -/
theorem Inv₀.freeTrie_spec [DecidableEq P] {s₀ : Allowedips P} (h : Inv₀ s₀ L) (hmem : s.mem = s₀.mem)
    (hnd : ∀ r, (s.list r).Nodup) (f : Family) :
    ∃ t, s.freeTrie f.bits (s₀.root f) = some t ∧ t.mem = s.mem ∧ t.root = s.root ∧ t.brk = s.brk ∧
      (∀ r, (t.list r).Nodup) ∧ ∀ r p, p ∈ t.list r →
        p ∈ s.list r ∧ ¬ (p ∈ L ∧ s₀.forest.fam p = f ∧ (s₀.mem p).peer ≠ none) := by
  cases hroot : s₀.root f with
  | none =>
    refine ⟨s, rfl, rfl, rfl, rfl, hnd, fun r p hp => ⟨hp, ?_⟩⟩
    rintro ⟨hpL, hf, -⟩
    obtain ⟨a, ha, -⟩ := h.linked.below_root hpL
    rw [hf, show s₀.forest.root f = none from hroot] at ha
    cases ha
  | some a =>
    obtain ⟨t, ht, htm, htr, htb, htn, htl⟩ := h.rootRemovePeerLists_spec hmem hnd hroot
    refine ⟨t.callRcu (.rootFree a), ?_, htm, htr, htb, htn, fun r p hp => ?_⟩
    · exact congrArg (Option.map _) ht
    · obtain ⟨hp', hout⟩ := (htl r p).1 hp
      refine ⟨hp', ?_⟩
      rintro ⟨hpL, hf, hpeer⟩
      obtain ⟨a', ha', hb⟩ := h.linked.below_root hpL
      rw [hf, show s₀.forest.root f = some a from hroot] at ha'
      obtain rfl := Option.some.inj ha'
      rw [hmem] at hout
      exact hout.resolve_left hpeer hb

/-- `wg_allowedips_free` leaves two empty tries and empty lists; the nodes are as they were. -/
theorem Inv.free_spec [DecidableEq P] (h : Inv s L) :
    ∃ t, s.wgAllowedipsFree = some t ∧ t.mem = s.mem ∧ Inv t ∅ ∧ Reads Family.bits t.forest ∅ PrefixTable.empty := by
  let s₁ : Allowedips P := { s with updates := s.updates + 1, root := fun _ => none }
  obtain ⟨t₁, ht₁, hm₁, hr₁, -, hn₁, hl₁⟩ := h.freeTrie_spec (s := s₁) rfl h.nodup .v4
  obtain ⟨t₂, ht₂, hm₂, hr₂, -, hn₂, hl₂⟩ := h.freeTrie_spec (s := t₁) hm₁ hn₁ .v6
  have hroot : t₂.root = fun _ => none := hr₂.trans hr₁
  have hempty : ∀ r, t₂.list r = [] := by
    intro r
    refine List.eq_nil_iff_forall_not_mem.2 fun p hp => ?_
    obtain ⟨hp₁, hout₂⟩ := hl₂ r p hp
    obtain ⟨hp₀, hout₁⟩ := hl₁ r p hp₁
    obtain ⟨hpL, hpeer⟩ := (h.list r p).1 hp₀
    have hne : (s.mem p).peer ≠ none := by rw [hpeer]; exact Option.some_ne_none _
    cases hf : s.forest.fam p with
    | v4 => exact hout₁ ⟨hpL, hf, hne⟩
    | v6 => exact hout₂ ⟨hpL, hf, hne⟩
  refine ⟨t₂, ?_, hm₂.trans hm₁, ⟨⟨⟨?_, by simp, by simp, by simp⟩, by simp, by simp⟩,
    by simp, by simp [hempty], hn₂⟩, ?_⟩
  · have hroots : ((AllowedipsStore.seq.exec s).setSlot (.root .v4) none).setSlot (.root .v6) none = s₁ := by
      simp only [AllowedipsStore.exec, setSlot]
      congr
      funext f
      cases f <;> rfl
    rw [← hroots] at ht₁
    exact Option.bind_eq_some_iff.mpr ⟨t₁, ht₁, ht₂⟩
  · rintro (i | ⟨p, b⟩) c hlive hc
    · have hc' : t₂.root i = some c := hc
      rw [hroot] at hc'; cases hc'
    · exact absurd hlive (Set.notMem_empty p)
  · intro i x c q
    simp [PrefixTable.empty, Forest.entries]

end Allowedips
end WireguardAes
