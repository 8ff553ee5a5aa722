import WireguardAes.AllowedipsStores
import WireguardAes.Lib.PrefixWalk
import WireguardAes.Lib.Runs

/-!
# `find_node` beside a writer

A walk of `find_node`, one pointer read at a time, and an insertion or a removal by peer, one store
at a time, in any order. Nodes that are taken out keep their contents, since a reader is in a
read-side critical section. What a reader relies on is `Safe`: from wherever it stands the pointers
lead past the nodes it must not miss, and the peers it reads are ones it may be told. `SafeRun` says
this along the stores of a writer. An insertion is seen all at once, with the store that publishes
it (`HiddenRun` for the ones before); a removal takes the nodes out one by one, and a reader that
stands on one of them still finds its way.
-/

namespace WireguardAes

open PrefixForest BitPrefix ByteOrder Runs

namespace Allowedips
variable {P : Type}

/-- The peer of the node that `find_node` returns. -/
def answer (s : Allowedips P) (f : Family) (ip : Bytes) : Option (Option P) :=
  (s.findNode (s.root f) f.bits (swapEndian ip f.bits)).map fun node => node.bind fun p => (s.mem p).peer

/-- The next read of `find_node`: of the root, of the peer of the node reached, or of a child
pointer. -/
def advance (s : Allowedips P) (f : Family) (key : Bytes) : Walk P → Walk P
  | .start => .reached (s.root f) none
  | .reached none found => .done found
  | .reached (some p) found =>
    if (s.mem p).prefixMatches key f.bits then
      let found := Walk.latest found p (s.mem p).peer
      if (s.mem p).cidr = f.bits then .done found else .passed p found
    else .done found
  | .passed p found => .reached ((s.mem p).bit ((s.mem p).choose key)) found
  | .done found => .done found

end Allowedips

structure FindNodeRace (P : Type) where
  mem : Allowedips P
  /-- The stores that the writer has still to make. -/
  rest : List (AllowedipsStore P)
  walk : Walk P
  reads : Nat

namespace FindNodeRace
variable {P : Type} [DecidableEq P]

inductive Event where
  | store
  | read

def step (f : Family) (key : Bytes) (t : FindNodeRace P) : Event → Option (FindNodeRace P)
  | .store =>
    match t.rest with
    | [] => none
    | st :: rest => some { t with mem := st.exec t.mem, rest := rest }
  | .read =>
    match t.walk with
    | .done _ => none
    | walk => some { t with walk := t.mem.advance f key walk, reads := t.reads + 1 }

def start (s : Allowedips P) (stores : List (AllowedipsStore P)) : FindNodeRace P := ⟨s, stores, .start, 0⟩

end FindNodeRace

/-- What a reader is after and what it may be told. -/
structure Query (P : Type) where
  family : Family
  key : Bytes
  /-- The nodes that it must not miss. -/
  kept : Set Nat
  /-- The peers that it may read at a node. -/
  seen : Nat → P → Prop
  /-- The prefixes of the nodes, which do not change while a reader may stand on them. -/
  prefixes : Forest Family P

namespace Query
variable {P : Type}

def bits (v : Query P) : Nat := v.family.bits

def x (v : Query P) : Nat := keyNat v.family.bits v.key

/-- The nodes of `R` are those that the reader may stand on. -/
structure Safe (v : Query P) (s : Allowedips P) (R : Set Nat) : Prop where
  guides : Guides Family.bits s.forest v.family v.x R v.kept
  node : ∀ p ∈ R, (s.mem p).Assigned
  seen : ∀ p ∈ R, ∀ q, (s.mem p).peer = some q → v.seen p q
  same : SamePrefix v.prefixes s.forest R

variable {v : Query P} {s s' : Allowedips P} {R R' L : Set Nat} {walk : Walk P}

def WalkOk (v : Query P) (s : Allowedips P) (R : Set Nat) (walk : Walk P) : Prop :=
  PrefixForest.WalkOk Family.bits s.forest v.family v.x R v.kept v.seen walk

namespace Safe

theorem cidr_le {p : Nat} (h : Safe v s R) (hp : p ∈ R) : (s.mem p).cidr ≤ v.family.bits := h.guides.le p hp

theorem prefixMatches_iff {p : Nat} (h : Safe v s R) (hp : p ∈ R) :
    (s.mem p).prefixMatches v.key v.family.bits = true ↔ s.forest.Matches Family.bits p v.x :=
  Allowedips.prefixMatches_of_fam (h.node p hp) (h.guides.fam p hp) (h.cidr_le hp)

theorem advance (h : Safe v s R) (hw : v.WalkOk s R walk) (hnot : ∀ found, walk ≠ .done found) :
    v.WalkOk s R (s.advance v.family v.key walk) ∧
      (s.advance v.family v.key walk).left s.forest v.bits < walk.left s.forest v.bits := by
  rcases walk with _ | ⟨_ | p, found⟩ | ⟨p, found⟩ | found
  · exact ⟨WalkOk.reached_root h.guides, Walk.left_reached_root ..⟩
  · exact ⟨WalkOk.done_of_none hw, Nat.one_pos⟩
  · have hpR : p ∈ R := (hw.2.1 p rfl).1
    have hmatch := h.prefixMatches_iff hpR
    simp only [Allowedips.advance]
    split
    case isTrue hm =>
      have hv : (s.mem p).peer = s.forest.val p := rfl
      split
      case isTrue hfull =>
        exact ⟨WalkOk.done_of_full hw h.guides (hmatch.mp hm) hv (h.seen p hpR) hfull, Nat.succ_pos _⟩
      case isFalse hfull =>
        exact ⟨WalkOk.passed hw h.guides (hmatch.mp hm) hv (h.seen p hpR) hfull, Nat.lt_succ_self _⟩
    case isFalse hm =>
      exact ⟨WalkOk.done_of_not_matches hw (mt hmatch.mpr hm), Nat.succ_pos _⟩
  · obtain ⟨-, hpR, hm, hlt, -, -⟩ := id hw
    have hchoose : (s.mem p).choose v.key = msb v.family.bits v.x (s.mem p).cidr :=
      Allowedips.choose_of_fam (h.node p hpR) (h.guides.fam p hpR) hlt
    simp only [Allowedips.advance, hchoose]
    refine ⟨WalkOk.reached hw h.guides, Walk.left_reached_child found fun c hc => ?_⟩
    obtain ⟨hcR, -, hlt, -⟩ := h.guides.child p hpR _ c hc
    exact ⟨hlt, h.guides.le c hcR⟩
  · exact absurd rfl (hnot found)

theorem samePrefix (h : Safe v s R) (h' : Safe v s' R') (hR : R ⊆ R') : SamePrefix s.forest s'.forest R := by
  intro p hp
  obtain ⟨h1, h2, h3⟩ := h.same p hp
  obtain ⟨h1', h2', h3'⟩ := h'.same p (hR hp)
  exact ⟨h1'.trans h1.symm, h2'.trans h2.symm, h3'.trans h3.symm⟩

end Safe

variable [DecidableEq P] {st : AllowedipsStore P} {l l' : List (AllowedipsStore P)} {R₁ : Set Nat}
variable {t : FindNodeRace P}

/-- From `s` and through the stores of `l` a reader is safe; in the end it may stand on the nodes of
`R'`. -/
inductive SafeRun (v : Query P) : Set Nat → Allowedips P → List (AllowedipsStore P) → Set Nat → Prop
  | nil {R : Set Nat} {s : Allowedips P} (h : v.Safe s R) : SafeRun v R s [] R
  | cons {R R₁ R' : Set Nat} {s : Allowedips P} {st : AllowedipsStore P} {l : List (AllowedipsStore P)}
      (h : v.Safe s R) (hR : R ⊆ R₁) (hrest : SafeRun v R₁ (st.exec s) l R') : SafeRun v R s (st :: l) R'

namespace SafeRun

theorem head (h : SafeRun v R s l R') : v.Safe s R := by
  cases h <;> assumption

theorem subset (h : SafeRun v R s l R') : R ⊆ R' := by
  induction h with
  | nil => exact subset_rfl
  | cons _ hR _ ih => exact hR.trans ih

theorem last (h : SafeRun v R s l R') : v.Safe (l.foldl AllowedipsStore.exec s) R' := by
  induction h with
  | nil h => exact h
  | cons _ _ _ ih => exact ih

theorem snoc (h : SafeRun v R s l R₁) (hR : R₁ ⊆ R')
    (h' : v.Safe (st.exec (l.foldl AllowedipsStore.exec s)) R') : SafeRun v R s (l ++ [st]) R' := by
  induction h with
  | nil h => exact .cons h hR (.nil h')
  | cons h hR₁ _ ih => exact .cons h hR₁ (ih hR h')

/-- Along the race the reader is safe in what is left of the run, and it has not read too often. -/
def Ok (v : Query P) (R' : Set Nat) (t : FindNodeRace P) : Prop :=
  ∃ R, SafeRun v R t.mem t.rest R' ∧ v.WalkOk t.mem R t.walk ∧
    t.reads + t.walk.left t.mem.forest v.bits ≤ 2 * v.bits + 4

theorem ok_step {t' : FindNodeRace P} {e : FindNodeRace.Event} (h : Ok v R' t)
    (hs : t.step v.family v.key e = some t') : Ok v R' t' := by
  obtain ⟨R, hrun, hw, hleft⟩ := h
  have hsafe := hrun.head
  cases e with
  | store =>
    obtain ⟨mem, rest, walk, reads⟩ := t
    cases hrun with
    | nil => cases hs
    | cons _ hR hrest =>
      cases hs
      have hs := hsafe.samePrefix hrest.head hR
      refine ⟨_, hrest, WalkOk.mono hw hsafe.guides hR hs, ?_⟩
      rw [WalkOk.left_eq hw hs]
      exact hleft
  | read =>
    have hnot : ∀ found, t.walk ≠ .done found := by
      intro found hdone
      simp only [FindNodeRace.step, hdone] at hs
      cases hs
    obtain ⟨hw', hlt⟩ := hsafe.advance hw hnot
    have ht : t' = { t with walk := t.mem.advance v.family v.key t.walk, reads := t.reads + 1 } := by
      simp only [FindNodeRace.step] at hs
      exact (Option.some.inj hs).symm
    rw [ht]
    refine ⟨R, hrun, hw', ?_⟩
    dsimp only
    omega

theorem ok_of_exec (h : SafeRun v R s l R')
    (hexec : Exec (FindNodeRace.step v.family v.key) (fun _ _ => True) (.start s l) t) : Ok v R' t := by
  refine hexec.inv (I := Ok v R') ⟨R, h, trivial, ?_⟩ fun _ _ _ _ => ok_step
  simp only [FindNodeRace.start, Walk.left, Nat.zero_add, le_refl]

theorem reads_le (h : SafeRun v R s l R')
    (hexec : Exec (FindNodeRace.step v.family v.key) (fun _ _ => True) (.start s l) t) :
    t.reads ≤ 2 * v.bits + 4 := by
  obtain ⟨_, -, -, hleft⟩ := h.ok_of_exec hexec
  exact (Nat.le_add_right ..).trans hleft

/-- A walk that is over has found a node at or below every node it must not miss, with a peer it may
read there. -/
theorem found {found : Option (Nat × P)} (h : SafeRun v R s l R')
    (hexec : Exec (FindNodeRace.step v.family v.key) (fun _ _ => True) (.start s l) t) (hdone : t.walk = .done found) :
    FoundOk Family.bits v.prefixes v.x R' v.seen found ∧ ∀ a ∈ v.kept, Covers v.prefixes found a := by
  obtain ⟨R₁, hrun, hw, -⟩ := h.ok_of_exec hexec
  have hsafe := hrun.head
  rw [hdone] at hw
  obtain ⟨hfound, hcover⟩ := hw
  refine ⟨fun r q hr => ?_, fun a ha => ?_⟩
  · obtain ⟨hrR, hm, hseen⟩ := hfound r q hr
    exact ⟨hrun.subset hrR, (Guides.matches_congr hsafe.same hrR).mp hm, hseen⟩
  · obtain ⟨r, q, hr, hle⟩ := hcover a ha
    rw [(hsafe.same a (hsafe.guides.kept a ha).1).2.1, (hsafe.same r (hfound r q hr).1).2.1] at hle
    exact ⟨r, q, hr, hle⟩

end SafeRun
end Query

/-! ### Stores that a reader does not see -/

/-- `s'` is `s` for a reader on the nodes of `L`, which does not look at the back pointers. -/
structure Allowedips.Unseen {P : Type} (L : Set Nat) (s s' : Allowedips P) : Prop where
  root : s'.root = s.root
  mem : ∀ p ∈ L, s'.mem p = { s.mem p with parentBitPacked := (s'.mem p).parentBitPacked }

namespace Allowedips.Unseen
variable {P : Type} {L L' : Set Nat} {s s' s'' : Allowedips P}

theorem refl (L : Set Nat) (s : Allowedips P) : Unseen L s s := ⟨rfl, fun _ _ => rfl⟩

theorem trans (h : Unseen L s s') (h' : Unseen L s' s'') : Unseen L s s'' := by
  refine ⟨h'.root.trans h.root, fun p hp => ?_⟩
  rw [h'.mem p hp, h.mem p hp]

theorem of_mem_eq (hroot : s'.root = s.root) (hmem : ∀ p ∈ L, s'.mem p = s.mem p) : Unseen L s s' := by
  refine ⟨hroot, fun p hp => ?_⟩
  rw [hmem p hp]

theorem of_setNode {p : Nat} {n : AllowedipsNode P} (hp : p ∉ L) : Unseen L s (s.setNode p n) := by
  refine of_mem_eq rfl fun a ha => Function.update_of_ne ?_ ..
  rintro rfl
  exact hp ha

theorem slot (h : Unseen L s s') {τ : Slot Family} (hτ : Live L τ) : s'.forest.slot τ = s.forest.slot τ := by
  cases τ with
  | root f => exact congrFun h.root f
  | bit p b =>
    show (s'.mem p).bit b = (s.mem p).bit b
    rw [h.mem p hτ]

theorem samePrefix (h : Unseen L s s') : SamePrefix s.forest s'.forest L := by
  intro p hp
  simp only [forest]
  rw [h.mem p hp]
  exact ⟨rfl, rfl, rfl⟩

theorem safe {v : Query P} {R : Set Nat} (h : Unseen L s s') (hR : R ⊆ L) (hs : v.Safe s R) : v.Safe s' R := by
  have hsame : SamePrefix s.forest s'.forest R := fun p hp => h.samePrefix p (hR hp)
  have hpeer : ∀ p ∈ R, (s'.mem p).peer = (s.mem p).peer := fun p hp => by rw [h.mem p (hR hp)]
  refine ⟨hs.guides.congr (congrFun h.root _) (fun p hp => ?_) hsame fun a ha => ?_, fun p hp => ?_,
    fun p hp q hq => ?_,
    fun p hp => ?_⟩
  · show (s'.mem p).bit = (s.mem p).bit
    rw [h.mem p (hR hp)]
  · obtain ⟨haR, -, hv⟩ := hs.guides.kept a ha
    rw [show s'.forest.val a = s.forest.val a from hpeer a haR]
    exact hv
  · rw [h.mem p (hR hp)]
    exact ⟨(hs.node p hp).width, (hs.node p hp).bitAtA, (hs.node p hp).bitAtB⟩
  · rw [hpeer p hp] at hq
    exact hs.seen p hp q hq
  · obtain ⟨h1, h2, h3⟩ := hsame p hp
    obtain ⟨h1', h2', h3'⟩ := hs.same p hp
    exact ⟨h1.trans h1', h2.trans h2', h3.trans h3'⟩

end Allowedips.Unseen

namespace AllowedipsStore
variable {P : Type} [DecidableEq P] {L : Set Nat} {s : Allowedips P} {st : AllowedipsStore P}

/-- The store does not touch what a reader on the nodes of `L` looks at. -/
def Hidden (L : Set Nat) (s : Allowedips P) : AllowedipsStore P → Prop
  | kmemCacheZalloc => s.brk ∉ L
  | kmemCacheFree p | peer p _ | copyAndAssignCidr p _ _ _ => p ∉ L
  | slot (.root _) _ => False
  | slot (.bit p _) _ => p ∉ L
  | seq | parentBitPacked _ _ | listAddTail _ _ | listDel _ | listMoveTail _ _ | callRcu _ => True

theorem Hidden.unseen (h : st.Hidden L s) : s.Unseen L (st.exec s) := by
  cases st with
  | kmemCacheZalloc => exact .trans (.of_setNode h) (.of_mem_eq rfl fun _ _ => rfl)
  | kmemCacheFree p => exact .of_setNode h
  | peer p q => exact .of_setNode h
  | copyAndAssignCidr p src cidr bits => exact .of_setNode h
  | slot σ c =>
    cases σ with
    | root f => exact h.elim
    | bit p b => exact .of_setNode h
  | parentBitPacked p σ =>
    refine ⟨rfl, fun a _ => ?_⟩
    by_cases hap : a = p
    · subst hap
      simp [exec, Allowedips.setParent, Allowedips.setNode]
    · simp [exec, Allowedips.setParent, Allowedips.setNode, hap]
  | seq | listAddTail p q | listDel p | listMoveTail p q | callRcu head => exact .of_mem_eq rfl fun _ _ => rfl

/-- None of the stores is seen. -/
def HiddenRun (L : Set Nat) : Allowedips P → List (AllowedipsStore P) → Prop
  | _, [] => True
  | s, st :: l => st.Hidden L s ∧ HiddenRun L (st.exec s) l

namespace HiddenRun
variable {l : List (AllowedipsStore P)}

theorem snoc (h : HiddenRun L s l) (hst : st.Hidden L (l.foldl exec s)) : HiddenRun L s (l ++ [st]) := by
  induction l generalizing s with
  | nil => exact ⟨hst, trivial⟩
  | cons st' l ih => exact ⟨h.1, ih h.2 hst⟩

theorem unseen (h : HiddenRun L s l) : s.Unseen L (l.foldl exec s) := by
  induction l generalizing s with
  | nil => exact .refl L s
  | cons st l ih => exact h.1.unseen.trans (ih h.2)

theorem safeRun {v : Query P} {R : Set Nat} (h : HiddenRun L s l) (hR : R ⊆ L) (hs : v.Safe s R) :
    v.SafeRun R s l R := by
  induction l generalizing s with
  | nil => exact .nil hs
  | cons st l ih => exact .cons hs subset_rfl (ih h.2 (h.1.unseen.safe hR hs))

end HiddenRun
end AllowedipsStore

/-! ### Removal -/

namespace Query.Safe
variable {P : Type} {v : Query P} {s : Allowedips P} {R : Set Nat} {n : Nat} {σ : Slot Family} {o : Option Nat}

theorem hidden [DecidableEq P] {st : AllowedipsStore P} (h : v.Safe s R) (hst : st.Hidden R s) : v.Safe (st.exec s) R :=
  hst.unseen.safe subset_rfl h

theorem clearPeer (h : v.Safe s R) (hn : n ∉ v.kept) : v.Safe (s.setPeer n none) R := by
  have hforest := Allowedips.forest_setPeer (s := s) (p := n) (v := none)
  have hpeer : ∀ p, ((s.setPeer n none).mem p).peer = if p = n then none else (s.mem p).peer := by
    intro p
    have hval := congrFun (congrArg Forest.val hforest) p
    simp only [Function.update_apply] at hval
    exact hval
  have hsame : SamePrefix s.forest (s.setPeer n none).forest R := fun p _ => by rw [hforest]; exact ⟨rfl, rfl, rfl⟩
  refine ⟨h.guides.congr rfl (fun p _ => by rw [hforest]) hsame fun a ha => ?_, fun p hp => ?_, fun p hp q hq => ?_,
    fun p hp => by rw [hforest]; exact h.same p hp⟩
  · have han : a ≠ n := by
      rintro rfl
      exact hn ha
    rw [show (s.setPeer n none).forest.val a = s.forest.val a from (hpeer a).trans (if_neg han)]
    exact (h.guides.kept a ha).2.2
  · obtain ⟨h1, h2, h3⟩ := h.node p hp
    by_cases hpn : p = n
    · subst hpn
      refine ⟨?_, ?_, ?_⟩ <;> simpa [Allowedips.setPeer, Allowedips.setNode]
    · refine ⟨?_, ?_, ?_⟩ <;> simpa [Allowedips.setPeer, Allowedips.setNode, hpn]
  · rw [hpeer] at hq
    split at hq
    · cases hq
    · exact h.seen p hp q hq

theorem bypass (h : v.Safe s R) (hn : s.forest.slot σ = some n) (hK : n ∉ v.kept)
    (ho : ∀ c, o = some c → ∃ b, s.forest.bit n b = some c) (hone : ∀ b c, s.forest.bit n b = some c → o = some c) :
    v.Safe (s.setSlot σ o) R := by
  have hr : Allowedips.Relinked s (s.setSlot σ o) := .setSlot
  have hguides := h.guides.bypass hn hK ho hone
  rw [← Allowedips.forest_setSlot] at hguides
  refine ⟨hguides, fun p hp => hr.assigned (h.node p hp), fun p hp q hq => ?_, fun p hp => ?_⟩
  · rw [hr.peer] at hq
    exact h.seen p hp q hq
  · rw [hr.fam, hr.cidr, hr.key]
    exact h.same p hp

end Query.Safe

namespace AllowedipsWriter
variable {P : Type} [DecidableEq P] {s : Allowedips P} {w : AllowedipsWriter s} {v : Query P} {R L : Set Nat} {n : Nat}
  {σ : Slot Family} {o : Option Nat} {q : P}

/-- A reader that may stand on the nodes of `R` is safe in all the writer has done. -/
def Safely (w : AllowedipsWriter s) (v : Query P) (R : Set Nat) : Prop := v.SafeRun R s w.stores R

namespace Safely

theorem safe (h : w.Safely v R) : v.Safe w.state R := by
  have hlast := Query.SafeRun.last h
  rw [w.stored] at hlast
  exact hlast

theorem store {st : AllowedipsStore P} (h : w.Safely v R) (hst : v.Safe (st.exec w.state) R) :
    (w.store st).Safely v R := by
  refine Query.SafeRun.snoc h subset_rfl ?_
  rw [w.stored]
  exact hst

theorem hidden {st : AllowedipsStore P} (h : w.Safely v R) (hst : st.Hidden R w.state) : (w.store st).Safely v R :=
  h.store (h.safe.hidden hst)

/-- The node in the slot has at most one child, which takes its place. -/
theorem replaceSlot (h : w.Safely v R) (hn : w.state.forest.slot σ = some n) (hK : n ∉ v.kept)
    (ho : ∀ c, o = some c → ∃ b, w.state.forest.bit n b = some c)
    (hone : ∀ b c, w.state.forest.bit n b = some c → o = some c) : (w.replaceSlot σ o).Safely v R := by
  cases o with
  | none => exact h.store (h.safe.bypass hn hK ho hone)
  | some c =>
    have hpar : (w.store (.parentBitPacked c σ)).Safely v R := h.hidden trivial
    have hforest : (w.store (.parentBitPacked c σ)).state.forest = w.state.forest.setUp c σ :=
      Allowedips.forest_setParent
    refine hpar.store (hpar.safe.bypass (n := n) ?_ hK ?_ ?_)
    · rw [hforest, Forest.slot_setUp]
      exact hn
    · rw [hforest]
      exact ho
    · rw [hforest]
      exact hone

/-- A linked node with at most one child is replaced by it. -/
theorem unlink (h : w.Safely v R) (hl : Linked Family.bits w.state.forest L) (hn : n ∈ L) (hK : n ∉ v.kept)
    (ho : ∀ c, o = some c → ∃ b, (w.state.mem n).bit b = some c)
    (hone : ∀ b c, (w.state.mem n).bit b = some c → o = some c) :
    (w.replaceSlot (w.state.mem n).parentBitPacked o).Safely v R ∧
      Linked Family.bits (w.replaceSlot (w.state.mem n).parentBitPacked o).state.forest (L \ {n}) ∧
      (w.replaceSlot (w.state.mem n).parentBitPacked o).state.forest.slot (w.state.mem n).parentBitPacked = o := by
  rw [state_replaceSlot]
  refine ⟨h.replaceSlot (hl.up n hn).2 hK ho hone, Allowedips.linked_replaceSlot hl hn ho hone, ?_⟩
  rw [Allowedips.slot_replaceSlot, if_pos rfl]

/-- A node without a peer has lost one child and is replaced by the other. -/
theorem collapse {b : Bool} (h : w.Safely v R) (hl : Linked Family.bits w.state.forest L) (hn : n ∈ L)
    (hpeer : (w.state.mem n).peer = none) (hb : (w.state.mem n).bit b = none) :
    (w.replaceSlot (w.state.mem n).parentBitPacked ((w.state.mem n).bit !b)).Safely v R := by
  refine h.replaceSlot (hl.up n hn).2 ?_ (fun c hc => ⟨_, hc⟩) ?_
  · intro hK
    exact (h.safe.guides.kept n hK).2.2 hpeer
  · intro b' c hc
    have hne : b' ≠ b := by
      rintro rfl
      exact Option.some_ne_none c (hc.symm.trans hb)
    rw [← Bool.eq_not_of_ne hne]
    exact hc

theorem removeNode (h : w.Safely v R) (hi : w.state.Inv L) (hn : n ∈ L) (hK : n ∉ v.kept) :
    (w.removeNode n).Safely v R := by
  unfold AllowedipsWriter.removeNode AllowedipsMemory.removeNode
  dsimp only [AllowedipsMemory.state, AllowedipsMemory.store]
  have h₁ : ((w.store (.listDel n)).store (.peer n none)).Safely v R := by
    have hdel : (w.store (.listDel n)).Safely v R := h.hidden trivial
    exact hdel.store (hdel.safe.clearPeer hK)
  have hs : ((w.store (.listDel n)).store (.peer n none)).state = w.state.clear n := rfl
  generalize (w.store (.listDel n)).store (.peer n none) = w₁ at h₁ hs
  have hl : Linked Family.bits w₁.state.forest L := by
    rw [hs]
    exact Allowedips.linked_clear hi.linked
  obtain ⟨hlive, hslot⟩ := hl.up n hn
  split_ifs with hboth
  · exact h₁
  · have hone := Allowedips.only_child hboth
    obtain ⟨h₂, hl₂, hslot₂⟩ := h₁.unlink hl hn hK
      (o := (w₁.state.mem n).bit ((w₁.state.mem n).bit false).isNone) (fun c hc => ⟨_, hc⟩) hone
    unfold AllowedipsWriter.replaceSlot at h₂ hl₂ hslot₂
    generalize AllowedipsMemory.replaceSlot w₁ (w₁.state.mem n).parentBitPacked
      ((w₁.state.mem n).bit ((w₁.state.mem n).bit false).isNone) = w₂ at h₂ hl₂ hslot₂
    split
    · exact h₂.hidden trivial
    case h_2 parent b hup =>
      split_ifs with hfree
      · have hslot' : w₁.state.forest.bit parent b = some n := by
          rw [show w₁.state.forest.up n = .bit parent b from hup] at hslot
          exact hslot
        have hpL : parent ∈ L := by
          rw [show w₁.state.forest.up n = .bit parent b from hup] at hlive
          exact hlive
        have hne : parent ≠ n := by
          rintro rfl
          exact lt_irrefl _ (hl.child hpL hslot').2.2.2.1
        have hb : (w₂.state.mem parent).bit b = none := by
          rw [hup, Option.isNone_iff_eq_none.mp hfree.1] at hslot₂
          exact hslot₂.trans (Option.isNone_iff_eq_none.mp hfree.2.1)
        have h₃ : (w₂.store (.callRcu (.nodeFree n))).Safely v R := h₂.hidden trivial
        exact (h₃.collapse hl₂ ⟨hpL, hne⟩ (Option.isNone_iff_eq_none.mp hfree.2.2) hb).hidden trivial
      · exact h₂.hidden trivial

/-- All the rounds: the nodes of `q` are ones that the reader may miss. -/
theorem foldl_removeNode (h : w.Safely v R) (hi : w.state.Inv L) (l : List Nat) (hl : w.state.list q = l)
    (hq : ∀ a ∈ v.kept, ¬ v.seen a q) : (l.foldl AllowedipsWriter.removeNode w).Safely v R := by
  induction l generalizing w L with
  | nil => exact h
  | cons n l ih =>
    obtain ⟨hn, hpeer⟩ := (hi.list q n).mp (by rw [hl]; exact List.mem_cons_self ..)
    have hK : n ∉ v.kept := fun hK => hq n hK (h.safe.seen n (h.safe.guides.kept n hK).1 q hpeer)
    obtain ⟨L₁, hi₁, hl₁, -⟩ := hi.removeNode_spec hn hpeer
    rw [← state_removeNode] at hi₁ hl₁
    rw [hl, List.erase_cons_head] at hl₁
    exact ih (h.removeNode hi hn hK) hi₁ hl₁

theorem removeByPeer (h : w.Safely v R) (hi : w.state.Inv L) (hq : ∀ a ∈ v.kept, ¬ v.seen a q) :
    (w.removeByPeer q).Safely v R := by
  unfold AllowedipsWriter.removeByPeer AllowedipsMemory.removeByPeer
  split
  · exact h
  · have h₁ : (w.store .seq).Safely v R := h.hidden trivial
    exact h₁.foldl_removeNode hi.bumpSeq _ rfl hq

end Safely
end AllowedipsWriter

namespace Allowedips
variable {P : Type} {s s' : Allowedips P} {L L' : Set Nat} {f : Family} {ip : Bytes} {T : PrefixTable Family P}

theorem Inv₀.answer_eq (h : Inv₀ s L) (hT : Reads Family.bits s.forest L T) (hip : ip.length = f.bits / 8) :
    s.answer f ip = some (T.longest Family.bits f (beNat ip)) := by
  obtain ⟨res, hres, -, hlong⟩ := h.findNode_longest hT hip
  rw [answer, hres]
  exact congrArg some hlong

/-- The reader beside a removal of `q`: it must not miss the nodes of the other peers. -/
def removalQuery (s : Allowedips P) (L : Set Nat) (f : Family) (key : Bytes) (q : P) : Query P where
  family := f
  key := key
  kept := {a | a ∈ L ∧ s.forest.fam a = f ∧ s.forest.Matches Family.bits a (keyNat f.bits key) ∧
    ∃ r, r ≠ q ∧ (s.mem a).peer = some r}
  seen p r := (s.mem p).peer = some r
  prefixes := s.forest

theorem Inv₀.safe {v : Query P} (h : Inv₀ s L)
    (hkept : ∀ a ∈ v.kept, a ∈ L ∧ s.forest.fam a = v.family ∧ s.forest.Matches Family.bits a v.x ∧
      s.forest.val a ≠ none)
    (hseen : ∀ p ∈ L, ∀ q, (s.mem p).peer = some q → v.seen p q) (hsame : SamePrefix v.prefixes s.forest L) :
    v.Safe s {p | p ∈ L ∧ s.forest.fam p = v.family} :=
  ⟨h.linked.guides hkept, fun p hp => h.node p hp.1, fun p hp => hseen p hp.1, fun p hp => hsame p hp.1⟩

variable [DecidableEq P]

theorem Inv.safely_removeByPeer (h : Inv s L) (key : Bytes) (q : P) :
    ((AllowedipsWriter.start s).removeByPeer q).Safely (s.removalQuery L f key q)
      {p | p ∈ L ∧ s.forest.fam p = f} := by
  refine AllowedipsWriter.Safely.removeByPeer (.nil (h.safe ?_ ?_ fun _ _ => ⟨rfl, rfl, rfl⟩)) h ?_
  · rintro a ⟨ha, hf, hm, r, -, hr⟩
    refine ⟨ha, hf, hm, ?_⟩
    rw [show s.forest.val a = some r from hr]
    exact Option.some_ne_none r
  · exact fun _ _ _ hq => hq
  · rintro a ⟨-, -, -, r, hne, hr⟩ hq
    exact hne (Option.some.inj (hr.symm.trans hq))

/-- The walk has not read too often, and if it is over it has found the answer of `s` or that of
`s'`. -/
def Answered (s s' : Allowedips P) (f : Family) (ip : Bytes) (t : FindNodeRace P) : Prop :=
  t.reads ≤ 2 * f.bits + 4 ∧ ∀ found, t.walk = .done found →
    s.answer f ip = some (found.map Prod.snd) ∨ s'.answer f ip = some (found.map Prod.snd)

/-- Beside a removal the walk ends with the answer before it or the one after it. -/
theorem Inv.answered_removeByPeer {q : P} {t : FindNodeRace P} (h : Inv s L) (hT : Reads Family.bits s.forest L T)
    (hip : ip.length = f.bits / 8)
    (hexec : Exec (FindNodeRace.step f (swapEndian ip f.bits)) (fun _ _ => True)
      (.start s ((AllowedipsWriter.start s).removeByPeer q).stores) t) :
    Answered s (s.wgAllowedipsRemoveByPeer q) f ip t := by
  have hrun := h.safely_removeByPeer (f := f) (swapEndian ip f.bits) q
  refine ⟨Query.SafeRun.reads_le hrun hexec, fun found hdone => ?_⟩
  have hkey : keyNat f.bits (swapEndian ip f.bits) = beNat ip := keyNat_swapEndian f.width hip
  obtain ⟨hfound, hcover⟩ := Query.SafeRun.found hrun hexec hdone
  simp only [removalQuery, Query.x, hkey] at hfound hcover
  by_cases hq : ∃ r, found = some (r, q)
  · -- it has read `q` at some node, below which all are of `q` if they contain the address
    left
    obtain ⟨r, rfl⟩ := hq
    obtain ⟨⟨hrL, hrf⟩, hrm, hrq⟩ := hfound r q rfl
    obtain ⟨res, hres, hgood, hbest⟩ := h.findNode_spec f (swapEndian ip f.bits)
    rw [hkey] at hgood hbest
    obtain ⟨d, rfl, hle⟩ := hbest r ⟨hrL, hrf, hrm, hrq.trans_ne (Option.some_ne_none q)⟩
    obtain ⟨hdL, hdf, hdm, hdv⟩ := hgood d rfl
    obtain ⟨r', hr'⟩ := Option.ne_none_iff_exists'.mp hdv
    have heq : r' = q := by
      by_contra hne
      obtain ⟨_, _, ⟨⟩, hle'⟩ := hcover d ⟨hdL, hdf, hdm, r', hne, hr'⟩
      obtain rfl := h.linked.eq_of_matches hdL hrL (hdf.trans hrf.symm) (le_antisymm hle' hle) hdm hrm
      exact hne (Option.some.inj (hr'.symm.trans hrq))
    rw [heq] at hr'
    rw [answer, hres]
    exact congrArg some hr'
  · right
    obtain ⟨L', h', hT'⟩ := h.removeByPeer_spec hT q
    rw [h'.answer_eq hT' hip, (hT.forget q).longest_eq_found (h.linked.forget q)]
    · intro r r' hr
      obtain ⟨⟨hrL, hrf⟩, hrm, hrq⟩ := hfound r r' hr
      refine ⟨hrL, hrf, hrm, Option.filter_eq_some_iff.mpr ⟨hrq, decide_eq_true ?_⟩⟩
      rintro rfl
      exact hq ⟨r, hr⟩
    · intro a ha hf hm hv
      obtain ⟨r, hr⟩ := Option.ne_none_iff_exists'.mp hv
      obtain ⟨hr, hne⟩ := Option.filter_eq_some_iff.mp hr
      exact hcover a ⟨ha, hf, hm, r, of_decide_eq_true hne, hr⟩

end Allowedips
end WireguardAes
