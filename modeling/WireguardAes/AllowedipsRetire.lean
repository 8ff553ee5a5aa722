import WireguardAes.AllowedipsReclaim

/-!
# What the updates of the tries give back (`allowedips.c`)

The stores of an insertion, a removal by peer and `wg_allowedips_free` keep to what `Coherent` rests
on (`Follows`), and between the updates no node is forgotten: each one that was handed out hangs in
a trie, waits for a callback or was dropped (`Accounted`).
-/

namespace WireguardAes

open Function PrefixForest BitPrefix ByteOrder Reclaim

variable {P : Type} [DecidableEq P]

/-! ### A sequence of stores -/

/-- The stores are allowed, one after the other, and lead to the stages `stage'`. -/
def AllowedipsStore.Follows (stage' : Nat → Stage) : Allowedips P → (Nat → Stage) → List (AllowedipsStore P) → Prop
  | _, stage, [] => stage = stage'
  | s, stage, st :: stores => st.Allowed s stage ∧ Follows stage' (st.exec s) (st.stageAfter s stage) stores

namespace AllowedipsStore.Follows
variable {s : Allowedips P} {stage stage' : Nat → Stage} {stores : List (AllowedipsStore P)}

theorem snoc (h : Follows stage' s stage stores) (st : AllowedipsStore P)
    (hst : st.Allowed (stores.foldl exec s) stage') :
    Follows (st.stageAfter (stores.foldl exec s) stage') s stage (stores ++ [st]) := by
  induction stores generalizing s stage with
  | nil =>
    obtain rfl : stage = stage' := h
    exact ⟨hst, rfl⟩
  | cons x stores ih => exact ⟨h.1, ih h.2 hst⟩

theorem coherent (h : Follows stage' s stage stores) (hs : s.Coherent stage) :
    (stores.foldl exec s).Coherent stage' := by
  induction stores generalizing s stage with
  | nil =>
    obtain rfl : stage = stage' := h
    exact hs
  | cons x stores ih => exact ih h.2 (hs.exec h.1)

end AllowedipsStore.Follows

namespace AllowedipsWriter
variable {s : Allowedips P} {w : AllowedipsWriter s} {stage₀ stage stage' : Nat → Stage} {st : AllowedipsStore P}
  {n p : Nat} {σ : Slot Family} {o : Option Nat}

/-- The writer has kept to the rules, and the stages are `stage` now. -/
def Keeps (w : AllowedipsWriter s) (stage₀ stage : Nat → Stage) : Prop :=
  AllowedipsStore.Follows stage s stage₀ w.stores

/-- The writer may work on the node. -/
def Has (w : AllowedipsWriter s) (stage : Nat → Stage) (n : Nat) : Prop := n < w.state.brk ∧ (stage n).Active

namespace Keeps

theorem store (h : w.Keeps stage₀ stage) (st : AllowedipsStore P) (hst : st.Allowed w.state stage) :
    (w.store st).Keeps stage₀ (st.stageAfter w.state stage) := by
  have hsnoc := AllowedipsStore.Follows.snoc h st (by rw [w.stored]; exact hst)
  rw [w.stored] at hsnoc
  exact hsnoc

theorem coherent (h : w.Keeps stage₀ stage) (hs : s.Coherent stage₀) : w.state.Coherent stage := by
  have hw := AllowedipsStore.Follows.coherent h hs
  rw [w.stored] at hw
  exact hw

theorem replaceSlot (h : w.Keeps stage₀ stage) (hσ : ∀ p b, σ = .bit p b → w.Has stage p)
    (ho : ∀ c, o = some c → c < w.state.brk ∧ stage c = .shared) : (w.replaceSlot σ o).Keeps stage₀ stage := by
  cases o with
  | none =>
    refine h.store (.slot σ none) ?_
    cases σ with
    | root f => rintro c ⟨⟩
    | bit p b => exact ⟨hσ p b rfl, by rintro c ⟨⟩⟩
  | some c =>
    obtain ⟨hbrk, hc⟩ := ho c rfl
    have h₁ : (w.store (.parentBitPacked c σ)).Keeps stage₀ stage := h.store _ ⟨hbrk, Stage.active_of_eq hc⟩
    have h₂ := h₁.store (.slot σ (some c)) <| by
      cases σ with
      | root f =>
        rintro _ ⟨⟩
        exact ⟨hbrk, Stage.active_of_eq hc⟩
      | bit p b =>
        refine ⟨hσ p b rfl, ?_⟩
        rintro _ ⟨⟩
        exact ⟨hbrk, Stage.active_of_eq hc⟩
    have hsame : update stage c .shared = stage := by
      rw [← hc, update_eq_self]
    exact hsame ▸ h₂

end Keeps
end AllowedipsWriter

namespace Allowedips
variable {s t : Allowedips P} {stage : Nat → Stage} {L : Set Nat} {n : Nat}

/-- No node is forgotten. -/
def Accounted (s : Allowedips P) (L : Set Nat) (stage : Nat → Stage) : Prop :=
  ∀ n < s.brk, n ∈ L ∨ ¬ (stage n).Active

/-- Between two updates: the tries are in order, and no node is forgotten. -/
def Rests (s : Allowedips P) (stage : Nat → Stage) : Prop :=
  ∃ L T, s.Inv L ∧ Reads Family.bits s.forest L T ∧ s.Accounted L stage

omit [DecidableEq P]

/-- The forest determines which nodes are linked. -/
theorem linked_unique {L' : Set Nat} (h : Linked Family.bits s.forest L) (h' : Linked Family.bits s.forest L') :
    L = L' :=
  (h.subset_of_slots fun τ c _ hτ hc => (h'.down τ c hτ hc).1).antisymm
    (h'.subset_of_slots fun τ c _ hτ hc => (h.down τ c hτ hc).1)

theorem Coherent.shared (h : s.Coherent stage) (hl : Linked Family.bits s.forest L) (hn : n ∈ L) :
    stage n = .shared := by
  obtain ⟨r, hr, hb⟩ := hl.below_root hn
  have hroot : stage r = .shared := h.disciplined.root r ⟨_, hr⟩
  clear hr hn
  induction hb with
  | refl => exact hroot
  | tail _ hc ih => exact h.disciplined.next _ _ hc (Stage.active_of_eq ih)

/-- A node that has been unlinked is off the trie, so that it can be retired. -/
theorem Coherent.retirable (h : s.Coherent stage) (hl : Linked Family.bits s.forest (L \ {n}))
    (hcount : s.Accounted L stage)
    (hn : stage n = .shared) (hlist : ∀ q, n ∉ s.list q) : s.Retirable stage {n} := by
  refine ⟨?_, fun f c hc => (hl.down (.root f) c trivial hc).1.2, fun x b c hc hcn hx => ?_, ?_⟩
  · rintro _ rfl
    exact hn
  · by_contra hxn
    rcases Nat.lt_or_ge x s.brk with hbrk | hbrk
    · have hxL : x ∈ L := (hcount x hbrk).resolve_right (not_not_intro hx)
      exact (hl.child ⟨hxL, hxn⟩ hc).1.2 hcn
    · exact Option.some_ne_none c (hc.symm.trans ((h.fresh x hbrk).2 b))
  · rintro q _ rfl
    exact hlist q

end Allowedips

namespace AllowedipsWriter
variable {s : Allowedips P} {w : AllowedipsWriter s} {stage₀ stage : Nat → Stage} {L : Set Nat} {n : Nat}
variable {q : P} {r : Ret}

/-- What holds of the writer between the steps of a removal: the nodes of `L` are linked, and no
node is forgotten. -/
structure Trimmed (w : AllowedipsWriter s) (stage₀ stage : Nat → Stage) (L : Set Nat) : Prop where
  start : s.Coherent stage₀
  keeps : w.Keeps stage₀ stage
  linked : Linked Family.bits w.state.forest L
  counted : w.state.Accounted L stage
  lt_brk : ∀ n ∈ L, n < w.state.brk

namespace Trimmed

theorem coherent (h : w.Trimmed stage₀ stage L) : w.state.Coherent stage := h.keeps.coherent h.start

theorem shared (h : w.Trimmed stage₀ stage L) (hn : n ∈ L) : stage n = .shared := h.coherent.shared h.linked hn

theorem has (h : w.Trimmed stage₀ stage L) (hn : n ∈ L) : w.Has stage n :=
  ⟨h.lt_brk n hn, Stage.active_of_eq (h.shared hn)⟩

/-- A node with at most one child is replaced by it and retired. -/
theorem takeOut (h : w.Trimmed stage₀ stage L) (hn : n ∈ L) (hlist : ∀ q, n ∉ w.state.list q) {o : Option Nat}
    (ho : ∀ c, o = some c → ∃ b, (w.state.mem n).bit b = some c)
    (hone : ∀ b c, (w.state.mem n).bit b = some c → o = some c) :
    ∃ stage', ((w.replaceSlot (w.state.mem n).parentBitPacked o).store (.callRcu (.nodeFree n))).Trimmed stage₀ stage'
      (L \ {n}) := by
  have hup : w.state.forest.up n = (w.state.mem n).parentBitPacked := rfl
  have hl := Allowedips.linked_replaceSlot h.linked hn ho hone
  have hr : w.state.Relinked (w.state.replaceSlot (w.state.forest.up n) o) := .replaceSlot
  have h₁ : (w.replaceSlot (w.state.mem n).parentBitPacked o).Keeps stage₀ stage := by
    refine h.keeps.replaceSlot (fun p b hpb => ?_) fun c hc => ?_
    · have hlive := (h.linked.up n hn).1
      rw [hup, hpb] at hlive
      exact h.has hlive
    · obtain ⟨b, hb⟩ := ho c hc
      have hcL := (h.linked.child hn hb).1
      exact ⟨h.lt_brk c hcL, h.shared hcL⟩
  have hstate : (w.replaceSlot (w.state.mem n).parentBitPacked o).state = w.state.replaceSlot (w.state.forest.up n) o :=
    state_replaceSlot ..
  rw [← hstate] at hl hr
  generalize w.replaceSlot (w.state.mem n).parentBitPacked o = w₁ at *
  have hcount : w₁.state.Accounted L stage := fun m hm => h.counted m (hr.brk ▸ hm)
  have hret := (h₁.coherent h.start).retirable hl hcount (h.shared hn) fun q => hr.list ▸ hlist q
  refine ⟨_, h.start, h₁.store (.callRcu (.nodeFree n)) hret, hl, fun m hm => ?_, fun m hm => ?_⟩
  · by_cases hmn : m = n
    · have hstage : (AllowedipsStore.callRcu (.nodeFree n)).stageAfter w₁.state stage m =
        .retired w₁.state.rcu.length :=
        if_pos hmn
      rw [hstage]
      exact .inr id
    · have hstage : (AllowedipsStore.callRcu (.nodeFree n)).stageAfter w₁.state stage m = stage m := if_neg hmn
      rw [hstage]
      exact (hcount m hm).imp (fun hmL => ⟨hmL, hmn⟩) id
  · exact hr.brk.symm ▸ h.lt_brk m hm.1

theorem removeNode (h : w.Trimmed stage₀ stage L) (hi : w.state.Inv L) (hn : n ∈ L)
    (hq : (w.state.mem n).peer = some q) : ∃ stage' L', (w.removeNode n).Trimmed stage₀ stage' L' := by
  have hstate : ((w.store (.listDel n)).store (.peer n none)).state = w.state.clear n := rfl
  have h₀ : ((w.store (.listDel n)).store (.peer n none)).Trimmed stage₀ stage L := by
    have hk : ((w.store (.listDel n)).store (.peer n none)).Keeps stage₀ stage :=
      (h.keeps.store (.listDel n) (h.has hn)).store (.peer n none) (h.has hn)
    exact ⟨h.start, hk, Allowedips.linked_clear h.linked, h.counted, h.lt_brk⟩
  have hlist : ∀ r, n ∉ (w.state.clear n).list r := fun r => (hi.nodup r).not_mem_erase
  unfold AllowedipsWriter.removeNode AllowedipsMemory.removeNode
  dsimp only [AllowedipsMemory.state, AllowedipsMemory.store]
  rw [← hstate] at hlist
  have hpeer : ∀ p, p ≠ n → (w.state.mem p).peer = none →
      ∀ r, p ∉ ((w.store (.listDel n)).store (.peer n none)).state.list r := by
    intro p _ hp r hm
    have hpr := ((hi.list r p).mp (List.mem_of_mem_erase hm)).2
    exact Option.some_ne_none r (hpr.symm.trans hp)
  have hval : ∀ p, p ≠ n → (((w.store (.listDel n)).store (.peer n none)).state.mem p).peer = (w.state.mem p).peer := by
    intro p hp
    rw [hstate, Allowedips.clear_peer, if_neg hp]
  clear hstate
  generalize (w.store (.listDel n)).store (.peer n none) = w₀ at *
  split_ifs with hboth
  · exact ⟨stage, L, h₀⟩
  · obtain ⟨stage₁, h₁⟩ := h₀.takeOut hn hlist (fun c hc => ⟨_, hc⟩) (Allowedips.only_child hboth)
    obtain ⟨hlive, hslot⟩ := h₀.linked.up n hn
    have hup : w₀.state.forest.up n = (w₀.state.mem n).parentBitPacked := rfl
    rw [hup] at hlive hslot
    cases hσ : (w₀.state.mem n).parentBitPacked with
    | root f =>
      rw [hσ] at h₁
      exact ⟨stage₁, _, h₁⟩
    | bit parent b =>
      rw [hσ] at h₁ hlive hslot
      dsimp only
      split_ifs with hfree
      · obtain ⟨h0, h1, hnone⟩ := hfree
        have hne : parent ≠ n := by
          rintro rfl
          exact lt_irrefl _ (h₀.linked.child hlive hslot).2.2.2.1
        -- the slot of the leaf is empty now
        have hleaf : (w₀.state.mem n).bit ((w₀.state.mem n).bit false).isNone = none := by
          rw [h0]
          exact Option.isNone_iff_eq_none.mp h1
        rw [hleaf] at h₁ hnone ⊢
        have hr : w₀.state.Relinked (w₀.replaceSlot (.bit parent b) none).state := by
          rw [state_replaceSlot]
          exact .replaceSlot
        have hempty : ((w₀.replaceSlot (.bit parent b) none).state.mem parent).bit b = none := by
          have hslot' := Allowedips.slot_replaceSlot (s := w₀.state) (σ := .bit parent b)
            (o := none) (τ := .bit parent b)
          rw [if_pos rfl] at hslot'
          exact hslot'
        have hparent : (w.state.mem parent).peer = none := by
          rw [← hval parent hne, ← hr.peer]
          exact Option.isNone_iff_eq_none.mp hnone
        obtain ⟨stage₂, h₂⟩ := h₁.takeOut (n := parent) ⟨hlive, hne⟩
          (fun r => by
            rw [state_store, AllowedipsStore.exec, Allowedips.callRcu, hr.list]
            exact hpeer parent hne hparent r)
          (o := ((w₀.replaceSlot (.bit parent b) none).state.mem parent).bit (!b)) (fun c hc => ⟨_, hc⟩) <| by
            intro b' c hc
            rcases Bool.eq_or_eq_not b' b with rfl | rfl
            · exact absurd (hempty.symm.trans hc) (Option.some_ne_none c).symm
            · exact hc
        exact ⟨stage₂, _, h₂⟩
      · exact ⟨stage₁, _, h₁⟩

theorem foldl_removeNode (h : w.Trimmed stage₀ stage L) (hi : w.state.Inv L) (l : List Nat)
    (hl : w.state.list q = l) : ∃ stage' L', (l.foldl AllowedipsWriter.removeNode w).Trimmed stage₀ stage' L' := by
  induction l generalizing w stage L with
  | nil => exact ⟨stage, L, h⟩
  | cons n l ih =>
    obtain ⟨hn, hpeer⟩ := (hi.list q n).mp (hl ▸ List.mem_cons_self)
    obtain ⟨stage₁, L₁, h₁⟩ := h.removeNode hi hn hpeer
    obtain ⟨L₂, hi₂, hl₂, -⟩ := hi.removeNode_spec hn hpeer
    rw [← state_removeNode] at hi₂ hl₂
    rw [hl, List.erase_cons_head] at hl₂
    obtain rfl := Allowedips.linked_unique h₁.linked hi₂.linked
    exact ih h₁ hi₂ hl₂

end Trimmed

theorem trimmed_seq (hs : s.Coherent stage₀) (hi : s.Inv L) (hcount : s.Accounted L stage₀) :
    ((start s).store .seq).Trimmed stage₀ stage₀ L :=
  ⟨hs, ⟨trivial, rfl⟩, hi.linked, hcount, hi.lt_brk⟩

theorem keeps_removeByPeer (hs : s.Coherent stage₀) (hrest : s.Rests stage₀) (q : P) :
    ∃ stage, ((start s).removeByPeer q).Keeps stage₀ stage ∧ ((start s).removeByPeer q).state.Rests stage := by
  obtain ⟨L, T, hi, hT, hcount⟩ := hrest
  obtain ⟨stage, L₁, h₁⟩ : ∃ stage L', ((start s).removeByPeer q).Trimmed stage₀ stage L' := by
    unfold removeByPeer AllowedipsMemory.removeByPeer
    split
    · exact ⟨stage₀, L, hs, rfl, hi.linked, hcount, hi.lt_brk⟩
    · exact (trimmed_seq hs hi hcount).foldl_removeNode hi.bumpSeq _ rfl
  obtain ⟨L₂, hi₂, hT₂⟩ := hi.removeByPeer_spec hT q
  rw [show s = (start s).state from rfl, ← state_removeByPeer] at hi₂ hT₂
  obtain rfl := Allowedips.linked_unique h₁.linked hi₂.linked
  exact ⟨stage, h₁.keeps, L₁, _, hi₂, hT₂, h₁.counted⟩

/-! ### Insertion -/

/-- A node of the trie, or one that was handed out since the writer started. -/
def Mine (w : AllowedipsWriter s) (L : Set Nat) (n : Nat) : Prop := n ∈ L ∨ (s.brk ≤ n ∧ n < w.state.brk)

/-- What holds of the writer while it works on new nodes. -/
structure Built (w : AllowedipsWriter s) (L : Set Nat) (stage₀ stage : Nat → Stage) : Prop where
  shared : ∀ n ∈ L, n < s.brk ∧ stage₀ n = .shared
  keeps : w.Keeps stage₀ stage
  brk : s.brk ≤ w.state.brk
  old : ∀ n < s.brk, stage n = stage₀ n
  new : ∀ n, s.brk ≤ n → (stage n).Active

/-- The insertion is over: what it was given is linked, on a list or given back. -/
def Settled (w : AllowedipsWriter s) (L : Set Nat) (stage₀ : Nat → Stage) : Prop :=
  ∃ stage, w.Keeps stage₀ stage ∧ (∀ n < s.brk, stage n = stage₀ n) ∧ s.brk ≤ w.state.brk ∧
    ∀ n, s.brk ≤ n → n < w.state.brk → ¬ (stage n).Active ∨ (∃ r, n ∈ w.state.list r) ∨
      ∃ σ, Live L σ ∧ w.state.forest.slot σ = some n

namespace Built
variable {σ : Slot Family} {f : Family} {key : Bytes} {cidr d : Nat} {q : P} {parent : Option Nat}

theorem has (h : w.Built L stage₀ stage) (hn : w.Mine L n) : w.Has stage n := by
  rcases hn with hn | ⟨hle, hlt⟩
  · obtain ⟨hlt, hshared⟩ := h.shared n hn
    exact ⟨hlt.trans_le h.brk, Stage.active_of_eq ((h.old n hlt).trans hshared)⟩
  · exact ⟨hlt, h.new n hle⟩

theorem store (h : w.Built L stage₀ stage) (st : AllowedipsStore P) (hst : st.Allowed w.state stage)
    (hstage : st.stageAfter w.state stage = stage) (hbrk : w.state.brk ≤ (st.exec w.state).brk) :
    (w.store st).Built L stage₀ stage :=
  ⟨h.shared, hstage ▸ h.keeps.store st hst, h.brk.trans hbrk, h.old, h.new⟩

theorem connectNode (h : w.Built L stage₀ stage) (hσ : ∀ p b, σ = .bit p b → w.Mine L p) (hn : w.Mine L n) :
    ∃ stage', (w.connectNode σ n).Built L stage₀ stage' := by
  have h₁ : (w.store (.parentBitPacked n σ)).Built L stage₀ stage :=
    h.store (.parentBitPacked n σ) (h.has hn) rfl (Nat.le_refl _)
  have hk := h₁.keeps.store (.slot σ (some n)) <| by
    cases σ with
    | root f =>
      rintro _ ⟨⟩
      exact h.has hn
    | bit p b =>
      refine ⟨h.has (hσ p b rfl), ?_⟩
      rintro _ ⟨⟩
      exact h.has hn
  have hr : w.state.Relinked (w.connectNode σ n).state := .connectNode
  refine ⟨_, h.shared, hk, h.brk.trans hr.brk.ge, fun m hm => ?_, fun m hm => ?_⟩
  · show update stage n .shared m = stage₀ m
    by_cases hmn : m = n
    · subst hmn
      rw [update_self]
      rcases hn with hn | ⟨hle, -⟩
      · exact (h.shared m hn).2.symm
      · omega
    · rw [update_of_ne hmn, h.old m hm]
  · show (update stage n .shared m).Active
    rw [update_apply]
    split
    exacts [trivial, h.new m hm]

theorem publish (h : w.Built L stage₀ stage) (hσ : Live L σ) (hn : w.Mine L n) (hlist : s.brk ∈ w.state.list q)
    (hnew : ∀ m, s.brk ≤ m → m < w.state.brk → m = s.brk ∨ m = n) : (w.connectNode σ n).Settled L stage₀ := by
  obtain ⟨stage', h'⟩ := h.connectNode (σ := σ) (by rintro p b rfl; exact .inl hσ) hn
  have hr : w.state.Relinked (w.connectNode σ n).state := .connectNode
  refine ⟨stage', h'.keeps, h'.old, h'.brk, fun m hle hlt => .inr ?_⟩
  rcases hnew m hle (hr.brk ▸ hlt) with rfl | rfl
  · exact .inl ⟨q, hr.list.symm ▸ hlist⟩
  · exact .inr ⟨σ, hσ, Allowedips.slot_connectNode.trans (if_pos rfl)⟩

theorem newnode (h : w.Built L stage₀ stage) (q : P) (key : Bytes) (cidr bits : Nat) :
    (AllowedipsMemory.newnode w q key cidr bits).Built L stage₀ stage := by
  have h₁ : (w.store .kmemCacheZalloc).Built L stage₀ stage :=
    h.store .kmemCacheZalloc trivial rfl (Nat.le_succ _)
  have hn := h₁.has (.inr ⟨h.brk, Nat.lt_succ_self w.state.brk⟩)
  have h₂ := h₁.store (.peer w.state.brk (some q)) hn rfl (Nat.le_refl _)
  have h₃ := h₂.store (.listAddTail w.state.brk q) hn rfl (Nat.le_refl _)
  exact h₃.store (.copyAndAssignCidr w.state.brk key cidr bits) hn rfl (Nat.le_refl _)

theorem internal (h : w.Built L stage₀ stage) (n cidr bits : Nat) :
    (AllowedipsMemory.internal w n cidr bits).Built L stage₀ stage := by
  have h₁ : (w.store .kmemCacheZalloc).Built L stage₀ stage :=
    h.store .kmemCacheZalloc trivial rfl (Nat.le_succ _)
  have hm := h₁.has (.inr ⟨h.brk, Nat.lt_succ_self w.state.brk⟩)
  exact h₁.store (.copyAndAssignCidr w.state.brk _ cidr bits) hm rfl (Nat.le_refl _)

theorem chooseAndConnectNode (h : w.Built L stage₀ stage) {p : Nat} (hp : w.Mine L p) (hn : w.Mine L n) :
    ∃ stage', (w.chooseAndConnectNode p n).Built L stage₀ stage' :=
  h.connectNode (by rintro _ _ ⟨⟩; exact hp) hn

theorem publishUnder (h : w.Built L stage₀ stage) (hparent : ∀ p, parent = some p → p ∈ L) (hn : w.Mine L n)
    (hlist : s.brk ∈ w.state.list q) (hnew : ∀ m, s.brk ≤ m → m < w.state.brk → m = s.brk ∨ m = n) :
    (w.connectUnder f parent n).Settled L stage₀ := by
  cases parent with
  | none => exact h.publish (σ := .root f) trivial hn hlist hnew
  | some p => exact h.publish (hparent p rfl) hn hlist hnew

theorem addAbove (h : w.Built L stage₀ stage₀) (hparent : ∀ p, parent = some p → p ∈ L) (hd : d ∈ L)
    (hbrk : w.state.brk = s.brk + 1) (hlist : s.brk ∈ w.state.list q) (hnodup : ∀ r, (w.state.list r).Nodup)
    (hhidden : stage₀ s.brk = .hidden) (bits : Nat) (fail : Bool) :
    (w.addAbove f bits key cidr parent s.brk d fail).2.Settled L stage₀ := by
  have hb : w.Mine L s.brk := .inr ⟨Nat.le_refl _, by omega⟩
  have hends := AllowedipsMemory.addedAbove w f bits key cidr parent s.brk d fail
  unfold AllowedipsWriter.addAbove
  generalize AllowedipsMemory.addAbove (m := Id) AllowedipsNode.choose w f bits key cidr parent
    s.brk d fail = res at hends ⊢
  cases hends with
  | fits =>
    obtain ⟨stage₁, h₁⟩ := h.chooseAndConnectNode hb (.inl hd)
    have hr : w.state.Relinked (w.chooseAndConnectNode s.brk d).state := .chooseAndConnectNode
    refine h₁.publishUnder hparent (.inr ⟨Nat.le_refl _, by rw [hr.brk]; omega⟩)
      (hr.list.symm ▸ hlist) fun m hle hlt => ?_
    rw [hr.brk] at hlt
    omega
  | enomem =>
    have h₁ := h.store (.listDel s.brk) (h.has hb) rfl (Nat.le_refl _)
    have h₂ := h₁.keeps.store (.kmemCacheFree s.brk) ⟨(h₁.has hb).1, hhidden, fun r => (hnodup r).not_mem_erase⟩
    refine ⟨_, h₂, fun n hn => update_of_ne hn.ne _ _, h.brk, fun n hle hlt => .inl ?_⟩
    obtain rfl : n = s.brk := by
      change n < w.state.brk at hlt
      omega
    show ¬ (update stage₀ s.brk .dropped s.brk).Active
    rw [update_self]
    exact id
  | split =>
    have hint := h.internal s.brk (min cidr (commonBits (w.state.mem d).bits key bits)) bits
    have hbrk₂ : (AllowedipsMemory.internal w s.brk
      (min cidr (commonBits (w.state.mem d).bits key bits)) bits).state.brk =
      s.brk + 2 := congrArg Nat.succ hbrk
    have hlist₂ : (AllowedipsMemory.internal w s.brk
      (min cidr (commonBits (w.state.mem d).bits key bits)) bits).state.list =
      w.state.list := rfl
    show (((AllowedipsMemory.internal w s.brk (min cidr (commonBits (w.state.mem d).bits key bits))
      bits).chooseAndConnectNode
      w.state.brk d).chooseAndConnectNode w.state.brk s.brk |>.connectUnder f parent w.state.brk).Settled L stage₀
    generalize AllowedipsMemory.internal w s.brk _ bits = w₂ at *
    rw [hbrk]
    obtain ⟨stage₃, h₃⟩ := hint.chooseAndConnectNode (p := s.brk + 1) (.inr (by omega)) (.inl hd)
    have hr₃ : w₂.state.Relinked (w₂.chooseAndConnectNode (s.brk + 1) d).state := .chooseAndConnectNode
    obtain ⟨stage₄, h₄⟩ := h₃.chooseAndConnectNode (p := s.brk + 1) (n := s.brk) (.inr (by rw [hr₃.brk]; omega))
      (.inr (by rw [hr₃.brk]; omega))
    have hr₄ := hr₃.trans (.chooseAndConnectNode (p := s.brk + 1) (n := s.brk))
    refine h₄.publishUnder hparent (.inr ⟨Nat.le_succ _, ?_⟩) (hr₄.list.trans hlist₂ ▸ hlist) fun m hle hlt => ?_
    · exact hr₄.brk.symm ▸ hbrk₂ ▸ Nat.lt_succ_self _
    · have hlt' : m < w₂.state.brk := hr₄.brk ▸ hlt
      omega

end Built

theorem built_seq (hs : s.Coherent stage₀) (hi : s.Inv L) : ((start s).store .seq).Built L stage₀ stage₀ := by
  refine ⟨fun n hn => ⟨hi.lt_brk n hn, hs.shared hi.linked hn⟩, ⟨trivial, rfl⟩, Nat.le_refl _, fun _ _ => rfl, ?_⟩
  intro n hn
  rw [(hs.fresh n hn).1]
  trivial

theorem settled_add {f : Family} {key : Bytes} {cidr : Nat} (hs : s.Coherent stage₀) (hi : s.Inv L)
    (hc : cidr ≤ f.bits) (hlen : f.bits / 8 ≤ key.length) (fail₁ fail₂ : Bool)
    (hres : ((start s).store .seq).add f f.bits key cidr (some q) fail₁ fail₂ = some (r, w)) : w.Settled L stage₀ := by
  have hw := built_seq hs hi
  have hi₁ : ((start s).store .seq).state.Inv L := hi.bumpSeq
  have hbrk : ((start s).store .seq).state.brk = s.brk := rfl
  generalize (start s).store .seq = w₁ at *
  obtain ⟨-, hpend⟩ := hi₁.pending cidr q hlen
  have hnew := hw.newnode q key cidr f.bits
  have hbrk' : (AllowedipsMemory.newnode w₁ q key cidr f.bits).state.brk = s.brk + 1 := congrArg Nat.succ hbrk
  have hlist : s.brk ∈ (AllowedipsMemory.newnode w₁ q key cidr f.bits).state.list q :=
    hbrk ▸ (hpend.list q _).mpr ⟨Set.mem_insert .., hpend.peer⟩
  obtain ⟨res, hres', hadds⟩ := Allowedips.Inv.adds (w := w₁) hi₁ hc hlen q fail₁ fail₂
  obtain rfl : res = (r, w) := Option.some.inj (hres'.symm.trans hres)
  show (r, w).2.Settled L stage₀
  clear hres hres'
  generalize (r, w) = res at *
  cases hadds with
  | enomem => exact ⟨stage₀, hw.keeps, hw.old, hw.brk, fun n hle hlt => absurd (hbrk ▸ hle) hlt.not_ge⟩
  | @moved _ p hp =>
    have hhas := hw.has (.inl hp)
    have h₂ := (hw.store (.peer p (some q)) hhas rfl (Nat.le_refl _)).store (.listMoveTail p q) hhas rfl
      (Nat.le_refl _)
    refine ⟨stage₀, h₂.keeps, h₂.old, h₂.brk, fun n hle hlt => ?_⟩
    change n < w₁.state.brk at hlt
    omega
  | attached hp =>
    refine hnew.publish hp.live (.inr ⟨hbrk.ge, ?_⟩) hlist fun m hle hlt => .inl ?_
    · rw [hbrk']
      exact hbrk ▸ Nat.lt_succ_self _
    · rw [hbrk'] at hlt
      omega
  | above hp hd =>
    have hd' := (hi₁.linked.down _ _ hp.live hd).1
    have hb : AllowedipsMemory.state w₁ = w₁.state := rfl
    rw [hb, hbrk]
    exact hnew.addAbove (fun p hpar => (hp.above p hpar).1) hd' hbrk' hlist hpend.nodup
      (hs.fresh _ (Nat.le_refl _)).1 _ _

theorem Added.subset_any {L' : Set Nat} (h : Added L q (r, w)) (hi : s.Inv L) (hi' : w.state.Inv L') :
    L ⊆ L' := by
  by_cases hr : r = .ok
  · subst hr
    exact h.subset hi hi'
  · cases h with
    | failed _ hquiet =>
      refine hi.linked.subset_of_slots fun τ c hτ hτ' hc => (hi'.linked.down τ c hτ' ?_).1
      rw [hquiet.unseen.slot hτ]
      exact hc
    | moved => exact absurd rfl hr
    | published => exact absurd rfl hr

namespace Settled

theorem counted (h : w.Settled L stage₀) {L' : Set Nat} (hcount : s.Accounted L stage₀)
    (hi : w.state.Inv L') (hsub : L ⊆ L') :
    ∃ stage, w.Keeps stage₀ stage ∧ w.state.Accounted L' stage := by
  obtain ⟨stage, hk, hold, -, hnew⟩ := h
  refine ⟨stage, hk, fun n hn => ?_⟩
  rcases Nat.lt_or_ge n s.brk with hlt | hge
  · rw [hold n hlt]
    exact (hcount n hlt).imp (fun hnL => hsub hnL) id
  · rcases hnew n hge hn with hgone | ⟨r, hr⟩ | ⟨σ, hσ, hslot⟩
    · exact .inr hgone
    · exact .inl ((hi.list r n).mp hr).1
    · exact .inl (hi.linked.down σ n (hσ.mono hsub) hslot).1

end Settled

theorem keeps_add {f : Family} {key : Bytes} {cidr : Nat} {peer : Option P} (hs : s.Coherent stage₀)
    (hrest : s.Rests stage₀) (hlen : f.bits / 8 ≤ key.length) (fail₁ fail₂ : Bool)
    (hres : ((start s).store .seq).add f f.bits key cidr peer fail₁ fail₂ = some (r, w)) :
    ∃ stage, w.Keeps stage₀ stage ∧ w.state.Rests stage := by
  obtain ⟨L, T, hi, hT, hcount⟩ := hrest
  by_cases hbad : peer = none ∨ f.bits < cidr
  · have hquiet : ((start s).store .seq).add f f.bits key cidr peer fail₁ fail₂ = some
      (.einval, (start s).store .seq) := by
      cases peer with
      | none => rfl
      | some q => exact if_pos (hbad.resolve_left (Option.some_ne_none q))
    rw [hquiet] at hres
    cases hres
    exact ⟨stage₀, ⟨trivial, rfl⟩, L, T, hi.bumpSeq, hT, hcount⟩
  · rw [not_or, not_lt] at hbad
    obtain ⟨q, rfl⟩ := Option.ne_none_iff_exists'.mp hbad.1
    have hadd := added hi hbad.2 hlen q fail₁ fail₂ hres
    obtain ⟨res, hspec, -, -, hout⟩ := hi.bumpSeq.add_spec hT hbad.2 hlen q fail₁ fail₂
    have hstate := state_add ((start s).store .seq) f f.bits key cidr (some q) fail₁ fail₂
    rw [hres] at hstate
    obtain rfl : (r, w.state) = res := Option.some.inj (hstate.trans hspec)
    obtain ⟨L', hi', hT'⟩ := hout
    obtain ⟨stage, hk, hcount'⟩ := (settled_add hs hi hbad.2 hlen fail₁ fail₂ hres).counted hcount
      hi' (hadd.subset_any hi hi')
    exact ⟨stage, hk, L', _, hi', hT', hcount'⟩

end AllowedipsWriter

/-! ### `wg_allowedips_free` -/

namespace Allowedips
variable {s t : Allowedips P} {stack visits : List Nat} {stack' : List Nat} {o : Option Nat}

omit [DecidableEq P]

theorem below_congr (h : t.mem = s.mem) : t.forest.Below = s.forest.Below := by
  unfold Forest.Below Forest.Child forest
  rw [h]

theorem Traversal.congr (hv : s.Traversal stack visits) (h : t.mem = s.mem) : t.Traversal stack visits := by
  refine ⟨hv.nodup, ?_, fun debug body u fuel hbody hu => hv.loop debug body u fuel hbody fun p hp => ?_⟩
  · rw [below_congr h]
    exact hv.mem
  · rw [hu p hp, h]

theorem mem_pushRcu {n : Nat} (h : pushRcu stack o = some stack') (hn : n ∈ stack') : n ∈ stack ∨ o = some n := by
  cases o with
  | none =>
    cases h
    exact .inl hn
  | some c =>
    rw [pushRcu] at h
    obtain ⟨-, ⟨⟩⟩ := Option.ite_none_right_eq_some.mp h
    exact (List.mem_cons.mp hn).symm.imp id fun hnc => congrArg some hnc.symm

/-- The nodes below the root are the linked ones of its family. -/
theorem Inv₀.below_root_iff {L : Set Nat} {f : Family} {r n : Nat} (h : Inv₀ s L) (hr : s.root f = some r) :
    s.forest.Below r n ↔ n ∈ L ∧ s.forest.fam n = f := by
  obtain ⟨hrL, -, hrf⟩ := h.linked.down (.root f) r trivial hr
  constructor
  · intro hb
    obtain ⟨hnL, hnf, -⟩ := h.linked.below hrL hb
    exact ⟨hnL, hnf.trans hrf⟩
  · rintro ⟨hnL, rfl⟩
    obtain ⟨r', hr', hb⟩ := h.linked.below_root hnL
    obtain rfl : r' = r := Option.some.inj (hr'.symm.trans hr)
    exact hb

end Allowedips

namespace AllowedipsWriter
variable {s : Allowedips P} {w w' : AllowedipsWriter s} {stage₀ stage : Nat → Stage} {L : Set Nat}
    {gone : Family → Prop}
  {f : Family}

/-- `root_remove_peer_lists` only works on nodes that it reaches. -/
theorem Keeps.rootRemovePeerListsLoop {A : Set Nat} (h : w.Keeps stage₀ stage) (hA : ∀ n ∈ A, w.Has stage n)
    (hnext : ∀ n ∈ A, ∀ b c, (w.state.mem n).bit b = some c → c ∈ A) (fuel : Nat) (stack : List Nat)
    (hstack : ∀ n ∈ stack, n ∈ A) (hres : w.rootRemovePeerListsLoop fuel stack = some w') : w'.Keeps stage₀ stage := by
  induction fuel generalizing w stack with
  | zero =>
    cases stack with
    | nil =>
      cases hres
      exact h
    | cons n stack => cases hres
  | succ fuel ih =>
    cases stack with
    | nil =>
      cases hres
      exact h
    | cons n stack =>
      have hn := hstack n List.mem_cons_self
      rw [AllowedipsWriter.rootRemovePeerListsLoop, AllowedipsMemory.rootRemovePeerListsLoop] at hres
      split at hres
      · cases hres
      case h_2 stack₂ hpush =>
        obtain ⟨stack₁, hpush₁, hpush₂⟩ := Option.bind_eq_some_iff.mp hpush
        have hstack₂ : ∀ m ∈ stack₂, m ∈ A := by
          intro m hm
          rcases Allowedips.mem_pushRcu hpush₂ hm with hm | hm
          · rcases Allowedips.mem_pushRcu hpush₁ hm with hm | hm
            · exact hstack m (List.mem_cons_of_mem _ hm)
            · exact hnext n hn false m hm
          · exact hnext n hn true m hm
        split at hres
        · exact ih (h.store (.listDel n) (hA n hn)) hA hnext stack₂ hstack₂ hres
        · exact ih h hA hnext stack₂ hstack₂ hres

/-- What holds of the writer when the tries of the families `gone` have been given to `call_rcu`. -/
structure Emptied (w : AllowedipsWriter s) (stage₀ stage : Nat → Stage) (L : Set Nat)
    (gone : Family → Prop) : Prop where
  keeps : w.Keeps stage₀ stage
  mem : w.state.mem = s.mem
  root : ∀ f, w.state.root f = none
  brk : w.state.brk = s.brk
  nodup : ∀ r, (w.state.list r).Nodup
  peer : ∀ r p, p ∈ w.state.list r → (s.mem p).peer = some r
  shared : ∀ n ∈ L, ¬ gone (s.forest.fam n) → stage n = .shared
  counted : ∀ n < s.brk, (n ∈ L ∧ ¬ gone (s.forest.fam n)) ∨ ¬ (stage n).Active

/-- A whole trie whose root is gone can be retired, once its nodes are off the lists. -/
theorem Emptied.retirable (h : w.Emptied stage₀ stage L gone) (hs : s.Coherent stage₀) (hi : s.Inv₀ L) (hf : ¬ gone f)
    {r : Nat} (hroot : s.root f = some r) (hlist : ∀ q n, s.forest.Below r n → n ∉ w.state.list q) :
    w.state.Retirable stage {n | s.forest.Below r n} := by
  refine ⟨fun n hn => ?_, fun g n hn => ?_, fun x b n hn hnr hx => ?_, hlist⟩
  · obtain ⟨hnL, rfl⟩ := (hi.below_root_iff hroot).mp hn
    exact h.shared n hnL hf
  · rw [h.root g] at hn
    cases hn
  · have hlt : x < s.brk := by
      by_contra hge
      have hnone := ((h.keeps.coherent hs).fresh x (by rw [h.brk]; omega)).2 b
      exact Option.some_ne_none n (hn.symm.trans hnone)
    obtain ⟨hxL, -⟩ := (h.counted x hlt).resolve_right (not_not_intro hx)
    rw [h.mem] at hn
    obtain ⟨-, -, hfam, -⟩ := hi.linked.child hxL hn
    exact (hi.below_root_iff hroot).mpr ⟨hxL, hfam.symm.trans ((hi.below_root_iff hroot).mp hnr).2⟩

theorem Emptied.freeTrie (h : w.Emptied stage₀ stage L gone) (hs : s.Coherent stage₀) (hi : s.Inv₀ L) (hf : ¬ gone f)
    (hres : w.freeTrie f.bits (s.root f) = some w') : ∃ stage', w'.Emptied stage₀ stage' L fun g => g = f ∨ gone g := by
  cases hroot : s.root f with
  | none =>
    -- there is no node of the family
    have hno : ∀ n ∈ L, s.forest.fam n ≠ f := by
      rintro n hn rfl
      obtain ⟨r, hr, -⟩ := hi.linked.below_root hn
      exact Option.some_ne_none r (hr.symm.trans hroot)
    rw [hroot] at hres
    cases hres
    refine ⟨stage, h.keeps, h.mem, h.root, h.brk, h.nodup, h.peer, fun n hn hg => h.shared n hn
      (mt .inr hg), fun n hn => ?_⟩
    refine (h.counted n hn).imp (fun ⟨hnL, hg⟩ => ⟨hnL, ?_⟩) id
    rintro (hnf | hg')
    exacts [hno n hnL hnf, hg hg']
  | some r =>
    rw [hroot] at hres
    obtain ⟨w₁, hloop, rfl⟩ := Option.map_eq_some_iff.mp hres
    have hin : ∀ n, s.forest.Below r n → n ∈ L ∧ s.forest.fam n = f := fun n => (hi.below_root_iff hroot).mp
    have hshared : ∀ n, s.forest.Below r n → stage n = .shared := by
      intro n hn
      obtain ⟨hnL, rfl⟩ := hin n hn
      exact h.shared n hnL hf
    have h₁ : w₁.Keeps stage₀ stage := by
      refine h.keeps.rootRemovePeerListsLoop (A := {n | s.forest.Below r n}) (fun n hn => ⟨?_, ?_⟩)
        (fun n hn b c hc => ?_)
        _ [r] (by rintro n hn; rw [List.mem_singleton.mp hn]; exact .refl) hloop
      · rw [h.brk]
        exact hi.lt_brk n (hin n hn).1
      · exact Stage.active_of_eq (hshared n hn)
      · rw [h.mem] at hc
        exact Relation.ReflTransGen.tail hn ⟨b, hc⟩
    obtain ⟨t, ht, htmem, htroot, htbrk, htnodup, htlist⟩ := hi.rootRemovePeerLists_spec h.mem h.nodup hroot
    have hstate : some w₁.state = some t := by
      rw [← ht, Allowedips.rootRemovePeerLists, ← state_rootRemovePeerListsLoop]
      exact (congrArg (Option.map state) hloop).symm
    obtain rfl := Option.some.inj hstate
    have hmem : w₁.state.mem = s.mem := htmem.trans h.mem
    have hbrk : w₁.state.brk = s.brk := htbrk.trans h.brk
    have hbelow := Allowedips.below_congr hmem
    have hret : w₁.state.Retirable stage {n | w₁.state.forest.Below r n} := by
      rw [hbelow]
      have h' : w₁.Emptied stage₀ stage L gone := ⟨h₁, hmem, fun g => (congrFun htroot g).trans
        (h.root g), hbrk, htnodup,
        fun q p hp => h.peer q p ((htlist q p).mp hp).1, h.shared, h.counted⟩
      refine h'.retirable hs hi hf hroot fun q n hn hm => ?_
      obtain ⟨hm, hout⟩ := (htlist q n).mp hm
      have hpeer := h.peer q n hm
      rw [← h.mem] at hpeer
      exact hout.elim (fun hnone => Option.some_ne_none q (hpeer.symm.trans hnone)) fun hout => hout hn
    obtain ⟨visits, hv, hlen⟩ := hi.traversal_root hroot
    have hlen' : visits.length ≤ 2 ^ (Family.v6.bits + 1) :=
      hlen.trans (Nat.pow_le_pow_right (by decide) (Nat.succ_le_succ f.bits_le))
    have h₂ := h₁.store (.callRcu (.rootFree r)) ⟨hret, visits, hv.congr hmem, hlen'⟩
    have hout : ∀ n, ¬ s.forest.Below r n →
        (AllowedipsStore.callRcu (.rootFree r)).stageAfter w₁.state stage n = stage n := by
      intro n hn
      rw [← hbelow] at hn
      exact if_neg hn
    refine ⟨_, h₂, hmem, fun g => (congrFun htroot g).trans (h.root g), hbrk, htnodup,
      fun q p hp => h.peer q p ((htlist q p).mp hp).1, fun n hn hg => ?_, fun n hn => ?_⟩
    · rw [hout n fun hb => hg (.inl (hin n hb).2)]
      exact h.shared n hn (mt .inr hg)
    · by_cases hb : s.forest.Below r n
      · have hstage : (AllowedipsStore.callRcu (.rootFree r)).stageAfter w₁.state stage n =
            .retired w₁.state.rcu.length := by
          rw [← hbelow] at hb
          exact if_pos hb
        rw [hstage]
        exact .inr id
      · rw [hout n hb]
        refine (h.counted n hn).imp (fun ⟨hnL, hg⟩ => ⟨hnL, ?_⟩) id
        rintro (hnf | hg')
        exacts [hb ((hi.below_root_iff hroot).mpr ⟨hnL, hnf⟩), hg hg']

theorem keeps_free (hs : s.Coherent stage₀) (hrest : s.Rests stage₀) (hres : (start s).free = some w) :
    ∃ stage, w.Keeps stage₀ stage ∧ w.state.Rests stage := by
  obtain ⟨L, T, hi, hT, hcount⟩ := hrest
  have h₀ : ((((start s).store .seq).store (.slot (.root .v4) none)).store
    (.slot (.root .v6) none)).Emptied stage₀ stage₀ L
      fun _ => False := by
    have hnone : ∀ f : Family, AllowedipsStore.Allowed s stage₀ (.slot (.root f) none) := by
      rintro f c ⟨⟩
    refine ⟨⟨trivial, hnone .v4, hnone .v6, rfl⟩, rfl, fun f => ?_, rfl, hi.nodup, fun r p hp =>
      ((hi.list r p).mp hp).2,
      fun n hn _ => hs.shared hi.linked hn, fun n hn => (hcount n hn).imp (fun hnL => ⟨hnL, id⟩) id⟩
    cases f <;> rfl
  obtain ⟨w₁, hw₁, hw⟩ := Option.bind_eq_some_iff.mp hres
  obtain ⟨stage₁, h₁⟩ := h₀.freeTrie (f := .v4) hs hi.toInv₀ id hw₁
  obtain ⟨stage₂, h₂⟩ := h₁.freeTrie (f := .v6) hs hi.toInv₀ (by simp) hw
  obtain ⟨t, ht, -, hi', hT'⟩ := hi.free_spec
  have hstate : some w.state = some t := by
    rw [← ht]
    exact (congrArg (Option.map state) hres).symm.trans (state_free (start s))
  obtain rfl := Option.some.inj hstate
  refine ⟨stage₂, h₂.keeps, ∅, _, hi', hT', fun n hn => .inr ?_⟩
  rw [h₂.brk] at hn
  refine (h₂.counted n hn).resolve_left fun ⟨_, hout⟩ => hout ?_
  cases s.forest.fam n
  exacts [.inr (.inl rfl), .inl rfl]

end AllowedipsWriter

theorem AllowedipsUpdate.keeps {s : Allowedips P} {stage₀ : Nat → Stage} {u : AllowedipsUpdate P} {r : Ret}
    {w : AllowedipsWriter s} (hs : s.Coherent stage₀) (hrest : s.Rests stage₀) (hres : u.write s = some (r, w)) :
    ∃ stage, w.Keeps stage₀ stage ∧ w.state.Rests stage := by
  cases u with
  | insertV4 ip cidr peer fail₁ fail₂ =>
    exact AllowedipsWriter.keeps_add (f := .v4) hs hrest (by simp [swapEndian, Family.bits]) fail₁ fail₂ hres
  | insertV6 ip cidr peer fail₁ fail₂ =>
    exact AllowedipsWriter.keeps_add (f := .v6) hs hrest (by simp [swapEndian, Family.bits]) fail₁ fail₂ hres
  | removeByPeer q =>
    cases hres
    exact AllowedipsWriter.keeps_removeByPeer hs hrest q

end WireguardAes
