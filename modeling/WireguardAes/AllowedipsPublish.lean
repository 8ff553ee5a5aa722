import WireguardAes.AllowedipsRace

/-!
# `find_node` beside an insertion

`add` works on nodes that no reader has a pointer to, and publishes them with one store (`Added`):
the prefix of an existing node changes hands, or a slot of the trie is made to point to the new
node, which by then has what hung there below it. Up to that store a reader sees the old trie, and
from then on the new one, in which the old nodes are still linked. With the removal of
`AllowedipsRace` this is every update beside every walk.
-/

namespace WireguardAes

open Function PrefixForest BitPrefix ByteOrder Runs

namespace AllowedipsWriter
variable {P : Type} [DecidableEq P] {s : Allowedips P} {w : AllowedipsWriter s} {L : Set Nat} {f : Family} {key : Bytes}
  {cidr n d : Nat} {q : P} {parent : Option Nat}

/-- A reader on the nodes of `L` has not seen anything of the writer. -/
def Quiet (w : AllowedipsWriter s) (L : Set Nat) : Prop := AllowedipsStore.HiddenRun L s w.stores

namespace Quiet

theorem store {x : AllowedipsStore P} (h : w.Quiet L) (hx : x.Hidden L w.state) : (w.store x).Quiet L := by
  refine AllowedipsStore.HiddenRun.snoc h ?_
  rw [w.stored]
  exact hx

theorem unseen (h : w.Quiet L) : s.Unseen L w.state := by
  have hun := AllowedipsStore.HiddenRun.unseen h
  rw [w.stored] at hun
  exact hun

theorem connectNode {p : Nat} {b : Bool} (h : w.Quiet L) (hp : p ∉ L) (n : Nat) :
    (w.connectNode (.bit p b) n).Quiet L :=
  (h.store (x := .parentBitPacked n (.bit p b)) trivial).store hp

theorem newnode (h : w.Quiet L) (hbrk : w.state.brk ∉ L) (q : P) (key : Bytes) (cidr bits : Nat) :
    (AllowedipsMemory.newnode w q key cidr bits).Quiet L :=
  (((h.store (x := .kmemCacheZalloc) hbrk).store (x := .peer _ _) hbrk).store (x := .listAddTail _ _) trivial).store
    (x := .copyAndAssignCidr _ _ _ _) hbrk

end Quiet

/-- How `add` for `q` ends: nothing is seen of it, a linked node changes hands, or a node is
published that has below it what hung in the slot. -/
inductive Added (L : Set Nat) (q : P) : Ret × AllowedipsWriter s → Prop
  | failed {r : Ret} {w : AllowedipsWriter s} (hr : r ≠ .ok) (h : w.Quiet L) : Added L q (r, w)
  | moved {w : AllowedipsWriter s} {p : Nat} (h : w.Quiet L) (hlist : w.state.list = s.list) (hp : p ∈ L) :
      Added L q (.ok, (w.store (.peer p (some q))).store (.listMoveTail p q))
  | published {w : AllowedipsWriter s} {σ : Slot Family} {n : Nat} (h : w.Quiet L)
      (hlist : w.state.list = update s.list q (s.list q ++ [s.brk])) (hσ : Live L σ) (hn : n ∉ L)
      (hdown : ∀ d, s.forest.slot σ = some d → ∃ b, (w.state.mem n).bit b = some d) :
      Added L q (.ok, w.connectNode σ n)

theorem connectUnder_eq {s₀ : Allowedips P} (hp : s₀.Placed L f key cidr parent) (hi : s₀.Inv₀ L)
    (hc : cidr ≤ f.bits) (hr : s₀.Relinked w.state) (hkey : keyNat f.bits (s₀.mem n).bits = keyNat f.bits key) :
    w.connectUnder f parent n = w.connectNode (s₀.place f parent key) n := by
  cases parent with
  | none => rfl
  | some p =>
    show w.connectNode (.bit p ((w.state.mem p).choose (w.state.mem n).bits)) n = _
    rw [hp.choose_bits hi hc hr hkey]
    rfl

/-- The two children of a new internal node, which are on different sides. -/
theorem Quiet.connectBoth {m : Nat} (h : w.Quiet L) (hm : m ∉ L)
    (hside : (w.state.mem m).choose (w.state.mem n).bits = !(w.state.mem m).choose (w.state.mem d).bits) :
    ((w.chooseAndConnectNode m d).chooseAndConnectNode m n).Quiet L ∧
      ∃ b, (((w.chooseAndConnectNode m d).chooseAndConnectNode m n).state.mem m).bit b = some d := by
  have hr : w.state.Relinked (w.chooseAndConnectNode m d).state := .chooseAndConnectNode
  have h₁ : (w.chooseAndConnectNode m d).Quiet L := h.connectNode hm d
  refine ⟨h₁.connectNode hm n, (w.state.mem m).choose (w.state.mem d).bits, ?_⟩
  have hslot : ((w.chooseAndConnectNode m d).chooseAndConnectNode m n).state.forest.slot
      (.bit m ((w.state.mem m).choose (w.state.mem d).bits)) = some d := by
    rw [state_chooseAndConnectNode, Allowedips.chooseAndConnectNode_eq, Allowedips.slot_connectNode, if_neg]
    · exact Allowedips.bit_chooseAndConnectNode
    · rw [hr.choose, hr.bits, hside]
      simp
  exact hslot

theorem Quiet.addAbove (h : w.Quiet L) (hpend : w.state.Pending L f key cidr q n)
    (hp : w.state.Placed L f key cidr parent) (hc : cidr ≤ f.bits)
    (hlist : w.state.list = update s.list q (s.list q ++ [s.brk]))
    (hd : s.forest.slot (w.state.place f parent key) = some d) (fail : Bool) :
    Added L q (w.addAbove f f.bits key cidr parent n d fail) := by
  have hdw : w.state.forest.slot (w.state.place f parent key) = some d := by
    rw [h.unseen.slot hp.live]
    exact hd
  have hends := AllowedipsMemory.addedAbove w f f.bits key cidr parent n d fail
  rw [show commonBits ((AllowedipsMemory.state w).mem d).bits key f.bits = _ from hpend.commonBits_eq hp hdw] at hends
  unfold AllowedipsWriter.addAbove
  generalize AllowedipsMemory.addAbove (m := Id) AllowedipsNode.choose w f f.bits key cidr parent n
    d fail = res at hends ⊢
  cases hends with
  | fits =>
    have hr : w.state.Relinked (w.chooseAndConnectNode n d).state := .chooseAndConnectNode
    show Added L q (.ok, (w.chooseAndConnectNode n d).connectUnder f parent n)
    rw [connectUnder_eq hp hpend.toInv₀ hc hr hpend.key]
    refine .published (h.connectNode hpend.fresh d) hlist hp.live hpend.fresh fun d' hd' =>
      ⟨(w.state.mem n).choose (w.state.mem d).bits, ?_⟩
    obtain rfl : d = d' := Option.some.inj (hd.symm.trans hd')
    exact Allowedips.bit_chooseAndConnectNode
  | enomem =>
    exact .failed (by decide) ((h.store (x := .listDel n) trivial).store (x := .kmemCacheFree n) hpend.fresh)
  | split hsplit =>
    have hsplit : (w.state.mem n).cidr ≠ _ := hsplit
    rw [hpend.cidr] at hsplit
    have hk : min cidr (common f.bits (w.state.forest.key d) (keyNat f.bits key)) =
      common f.bits (w.state.forest.key d) (keyNat f.bits key) := by omega
    rw [hk]
    have hfresh : w.state.brk ∉ L := fun hm => (hpend.lt_brk _ hm).ne rfl
    obtain ⟨hs, hpend₂, hp₂, hplace, hd₂⟩ :=
      hpend.withInternal hp hdw (common f.bits (w.state.forest.key d) (keyNat f.bits key))
    have hkeyd := (hs.samePrefix d (hp.down hpend.toInv₀ hdw).1).2.2
    have hmem := Allowedips.withInternal_mem (f := f) (k := common f.bits (w.state.forest.key d) (keyNat f.bits key))
      hpend.lt.ne
    have hkey : keyNat f.bits ((w.state.withInternal f n (common f.bits (w.state.forest.key d)
        (keyNat f.bits key))).mem w.state.brk).bits = keyNat f.bits key := by
      rw [hmem, Allowedips.keyNat_copyAndAssignCidr hpend.len, hpend.key]
    obtain ⟨hside, -⟩ := hpend₂.beside_of_mem hp₂ hc (by rw [hplace]; exact hd₂) (by rw [hkeyd]; omega) hfresh
      hpend.lt.ne (w.state.mem n).bits (by rw [hkeyd]; exact hmem) hkey
    have h₂ : (AllowedipsMemory.internal w n (common f.bits (w.state.forest.key d)
      (keyNat f.bits key)) f.bits).Quiet L :=
      (h.store (x := .kmemCacheZalloc) hfresh).store (x := .copyAndAssignCidr _ _ _ _) hfresh
    obtain ⟨h₄, hbit⟩ := h₂.connectBoth hfresh hside
    show Added L q (.ok, (((AllowedipsMemory.internal w n _ f.bits).chooseAndConnectNode
      w.state.brk d).chooseAndConnectNode w.state.brk n).connectUnder f parent w.state.brk)
    rw [connectUnder_eq hp₂ hpend₂.toInv₀ hc (.trans .chooseAndConnectNode .chooseAndConnectNode) hkey, hplace]
    refine .published h₄ hlist hp.live hfresh fun d' hd' => ?_
    obtain rfl : d = d' := Option.some.inj (hd.symm.trans hd')
    exact hbit

/-- The cases of `add`, for a writer that has only counted the change. -/
theorem added (hi : s.Inv L) (hc : cidr ≤ f.bits) (hlen : f.bits / 8 ≤ key.length) (q : P) (fail₁ fail₂ : Bool)
    {res : Ret × AllowedipsWriter s}
    (hres : ((start s).store .seq).add f f.bits key cidr (some q) fail₁ fail₂ = some res) : Added L q res := by
  have hw : ((start s).store .seq).Quiet L := ⟨trivial, trivial⟩
  have hi₁ : ((start s).store .seq).state.Inv L := hi.bumpSeq
  have hlist : ((start s).store .seq).state.list = s.list := rfl
  have hforest : ((start s).store .seq).state.forest = s.forest := rfl
  have hbrk : ((start s).store .seq).state.brk = s.brk := rfl
  generalize (start s).store .seq = w at *
  have hfresh : w.state.brk ∉ L := fun hm => (hi₁.lt_brk _ hm).ne rfl
  obtain ⟨hs, hpend⟩ := hi₁.pending cidr q hlen
  have hnew := hw.newnode hfresh q key cidr f.bits
  have hlist' : (AllowedipsMemory.newnode w q key cidr f.bits).state.list =
      update s.list q (s.list q ++ [s.brk]) := by
    rw [← hlist, ← hbrk]
    rfl
  obtain ⟨res', hres', hadds⟩ := Allowedips.Inv.adds (w := w) hi₁ hc hlen q fail₁ fail₂
  obtain rfl : res' = res := Option.some.inj (hres'.symm.trans hres)
  cases hadds with
  | enomem => exact .failed (by decide) hw
  | moved hp => exact .moved hw hlist hp
  | attached hp hfree =>
    refine .published hnew hlist' hp.live hfresh fun d hd => ?_
    rw [← hforest] at hd
    exact absurd (hfree.symm.trans hd) (Option.some_ne_none d).symm
  | above hp hd =>
    obtain ⟨hplace, hp'⟩ := hp.congr hi₁.toInv₀ hs
    refine hnew.addAbove hpend hp' hc hlist' ?_ fail₂
    rw [← hforest]
    exact hplace ▸ hd

namespace Added
variable {L' R R' : Set Nat} {v : Query P}

theorem mem_list (h : Added L q (.ok, w)) (hi : s.Inv L) :
    ∃ t, ∀ a r, a ∈ w.state.list r ↔ (a = t ∧ r = q) ∨ (a ≠ t ∧ a ∈ s.list r) := by
  cases h with
  | failed hr => exact absurd rfl hr
  | @moved w p hw hlist hp =>
    refine ⟨p, fun a r => ?_⟩
    have hmem : a ∈ (s.list r).erase p ↔ a ≠ p ∧ a ∈ s.list r := (hi.nodup r).mem_erase_iff
    show a ∈ update (fun r => (w.state.list r).erase p) q ((w.state.list q).erase p ++ [p]) r ↔ _
    rw [hlist]
    by_cases hr : r = q
    · subst hr
      rw [update_self, List.mem_append, List.mem_singleton, hmem]
      tauto
    · rw [update_of_ne hr, hmem]
      tauto
  | @published w σ n hw hlist hσ hn hdown =>
    refine ⟨s.brk, fun a r => ?_⟩
    have hfresh : ∀ r, s.brk ∉ s.list r := fun r hm => (hi.lt_brk _ ((hi.list r _).mp hm).1).ne rfl
    have hr : w.state.Relinked (w.connectNode σ n).state := .connectNode
    show a ∈ (w.connectNode σ n).state.list r ↔ _
    rw [hr.list, hlist]
    have hne : a ∈ s.list r → a ≠ s.brk := by
      rintro hm rfl
      exact hfresh r hm
    by_cases hr : r = q
    · subst hr
      rw [update_self, List.mem_append, List.mem_singleton]
      tauto
    · rw [update_of_ne hr]
      tauto

theorem forest_moved {w : AllowedipsWriter s} {p : Nat} :
    ((w.store (.peer p (some q))).store (.listMoveTail p q)).state.forest =
      { w.state.forest with val := update w.state.forest.val p (some q) } :=
  Allowedips.forest_setPeer (s := w.state) (p := p) (v := some q)

theorem samePrefix (h : Added L q (.ok, w)) : SamePrefix s.forest w.state.forest L := by
  cases h with
  | failed hr => exact absurd rfl hr
  | @moved w p hw =>
    have hforest := forest_moved (w := w) (p := p) (q := q)
    intro c hc
    rw [hforest]
    exact hw.unseen.samePrefix c hc
  | @published w σ n hw =>
    have hr : w.state.Relinked (w.connectNode σ n).state := .connectNode
    intro c hc
    show (w.connectNode σ n).state.forest.fam c = _ ∧ (w.connectNode σ n).state.forest.cidr c = _ ∧
      (w.connectNode σ n).state.forest.key c = _
    rw [hr.fam, hr.cidr, hr.key]
    exact hw.unseen.samePrefix c hc

theorem subset (h : Added L q (.ok, w)) (hi : s.Inv L) (hi' : w.state.Inv L') : L ⊆ L' := by
  refine hi.linked.subset_of_slots fun τ c hτ hτ' hc => ?_
  cases h with
  | failed hr => exact absurd rfl hr
  | @moved w p hw =>
    have hforest := forest_moved (w := w) (p := p) (q := q)
    refine (hi'.linked.down τ c hτ' ?_).1
    rw [hforest, ← hc, ← hw.unseen.slot hτ]
    cases τ <;> rfl
  | @published w σ n hw hlist hσ hn hdown =>
    have hslot : ∀ τ, (w.connectNode σ n).state.forest.slot τ = if τ = σ then some n else w.state.forest.slot τ :=
      fun τ => Allowedips.slot_connectNode
    by_cases hτσ : τ = σ
    · -- what hung in the slot is below the new node
      subst hτσ
      have hnL : n ∈ L' := (hi'.linked.down τ n hτ' ((hslot τ).trans (if_pos rfl))).1
      obtain ⟨b, hb⟩ := hdown c hc
      have hne : Slot.bit n b ≠ τ := by
        rintro rfl
        exact hn hσ
      refine (hi'.linked.child hnL ((hslot (.bit n b)).trans ?_)).1
      rw [if_neg hne]
      exact hb
    · refine (hi'.linked.down τ c hτ' ?_).1
      rw [hslot, if_neg hτσ, hw.unseen.slot hτ]
      exact hc

/-- A reader is safe if it is on the trie before and on the one after. -/
theorem safeRun (h : Added L q (.ok, w)) (hR : R ⊆ L) (hRR' : R ⊆ R') (hs : v.Safe s R) (hs' : v.Safe w.state R') :
    v.SafeRun R s w.stores R' := by
  have hsnoc : ∀ {w : AllowedipsWriter s} {st : AllowedipsStore P} {R₁ R₂ : Set Nat}, v.SafeRun R s w.stores R₁ →
      R₁ ⊆ R₂ → v.Safe (st.exec w.state) R₂ → v.SafeRun R s (w.store st).stores R₂ := by
    intro w st R₁ R₂ hrun hsub hst
    refine hrun.snoc hsub ?_
    rw [w.stored]
    exact hst
  cases h with
  | failed hr => exact absurd rfl hr
  | @moved w p hw =>
    have hrun : v.SafeRun R s w.stores R := AllowedipsStore.HiddenRun.safeRun hw hR hs
    have hpeer : v.Safe (w.store (.peer p (some q))).state R' := by
      have hun : ((w.store (.peer p (some q))).store (.listMoveTail p q)).state.Unseen R'
          (w.store (.peer p (some q))).state := .of_mem_eq rfl fun _ _ => rfl
      exact hun.safe subset_rfl hs'
    exact hsnoc (hsnoc hrun hRR' hpeer) subset_rfl hs'
  | @published w σ n hw =>
    have hw' : (w.store (.parentBitPacked n σ)).Quiet L := hw.store trivial
    exact hsnoc (AllowedipsStore.HiddenRun.safeRun hw' hR hs) hRR' hs'

end Added
end AllowedipsWriter

namespace Allowedips
variable {P : Type} {s : Allowedips P} {L L' : Set Nat} {f : Family} {ip : Bytes} {T : PrefixTable Family P}
  {found : Option (Nat × P)}
variable {s' : Allowedips P}

/-- The reader beside a writer that leaves the memory `s'`, in which the nodes of `L'` are linked:
it must not miss the nodes that it would find before. -/
def insertionQuery (s s' : Allowedips P) (L L' : Set Nat) (f : Family) (key : Bytes) : Query P where
  family := f
  key := key
  kept := {a | a ∈ L ∧ s.forest.fam a = f ∧ s.forest.Matches Family.bits a (keyNat f.bits key) ∧
    (s.mem a).peer ≠ none}
  seen p r := (p ∈ L ∧ (s.mem p).peer = some r) ∨ (p ∈ L' ∧ (s'.mem p).peer = some r)
  prefixes := s'.forest

theorem x_insertionQuery (hip : ip.length = f.bits / 8) :
    (insertionQuery s s' L L' f (swapEndian ip f.bits)).x = beNat ip := keyNat_swapEndian f.width hip

theorem Inv.safe_insertionQuery (h : Inv s L) (hs : SamePrefix s.forest s'.forest L) (key : Bytes) :
    (insertionQuery s s' L L' f key).Safe s {p | p ∈ L ∧ s.forest.fam p = f} := by
  refine h.safe (fun a ha => ha) (fun p hp q hq => .inl ⟨hp, hq⟩) fun p hp => ?_
  obtain ⟨h1, h2, h3⟩ := hs p hp
  exact ⟨h1.symm, h2.symm, h3.symm⟩

/-- A walk that has read the peer of a node as it was before ends with the answer before. -/
theorem Inv.answer_of_found (h : Inv s L) (hT : Reads Family.bits s.forest L T) (hip : ip.length = f.bits / 8)
    (hs : SamePrefix s.forest s'.forest L)
    (hfound : ∀ r q, found = some (r, q) → r ∈ L ∧ s'.forest.fam r = f ∧ s'.forest.Matches Family.bits r (beNat ip) ∧
      (s.mem r).peer = some q)
    (hcover : ∀ a ∈ (insertionQuery s s' L L' f (swapEndian ip f.bits)).kept, Covers s'.forest found a) :
    s.answer f ip = some (found.map Prod.snd) := by
  have hkey : keyNat f.bits (swapEndian ip f.bits) = beNat ip := keyNat_swapEndian f.width hip
  simp only [insertionQuery, hkey] at hcover
  rw [h.answer_eq hT hip, hT.longest_eq_found h.linked]
  · intro r q hr
    obtain ⟨hrL, hrf, hrm, hrq⟩ := hfound r q hr
    exact ⟨hrL, (hs r hrL).1.symm.trans hrf, (Guides.matches_congr hs hrL).mp hrm, hrq⟩
  · intro a ha hf hm hv
    obtain ⟨r, q, hr, hle⟩ := hcover a ⟨ha, hf, hm, hv⟩
    rw [(hs a ha).2.1, (hs r (hfound r q hr).1).2.1] at hle
    exact ⟨r, q, hr, hle⟩

variable [DecidableEq P] {w : AllowedipsWriter s} {t : FindNodeRace P}

theorem Inv.answered_quiet (h : Inv s L) (hT : Reads Family.bits s.forest L T) (hip : ip.length = f.bits / 8)
    (hw : w.Quiet L)
    (hexec : Exec (FindNodeRace.step f (swapEndian ip f.bits)) (fun _ _ => True) (.start s w.stores) t) :
    Answered s w.state f ip t := by
  have hs : SamePrefix s.forest s.forest L := fun _ _ => ⟨rfl, rfl, rfl⟩
  have hsafe : (insertionQuery s s L L f (swapEndian ip f.bits)).Safe s _ := h.safe_insertionQuery hs _
  have hrun := AllowedipsStore.HiddenRun.safeRun hw (fun p hp => hp.1) hsafe
  refine ⟨hrun.reads_le hexec, fun found hdone => .inl ?_⟩
  obtain ⟨hfound, hcover⟩ := hrun.found hexec hdone
  rw [x_insertionQuery hip] at hfound
  refine h.answer_of_found hT hip hs (fun r q hr => ?_) hcover
  obtain ⟨⟨hrL, hrf⟩, hrm, hseen⟩ := hfound r q hr
  refine ⟨hrL, hrf, hrm, ?_⟩
  rcases hseen with ⟨-, hq⟩ | ⟨-, hq⟩ <;> exact hq

theorem Inv.answered_added {q : P} {T' : PrefixTable Family P} (h : Inv s L) (hT : Reads Family.bits s.forest L T)
    (h' : Inv w.state L') (hT' : Reads Family.bits w.state.forest L' T') (hip : ip.length = f.bits / 8)
    (hadd : AllowedipsWriter.Added L q (.ok, w))
    (hexec : Exec (FindNodeRace.step f (swapEndian ip f.bits)) (fun _ _ => True) (.start s w.stores) t) :
    Answered s w.state f ip t := by
  have hs := hadd.samePrefix
  have hsub := hadd.subset h h'
  obtain ⟨n, hlist⟩ := hadd.mem_list h
  -- apart from one node the peers are as before
  have hpeer : ∀ a r, a ≠ n → (a ∈ L' ∧ (w.state.mem a).peer = some r ↔ a ∈ L ∧ (s.mem a).peer = some r) := by
    intro a r han
    rw [← h'.list, ← h.list, hlist]
    tauto
  have hvalued : ∀ a ∈ L, (s.mem a).peer ≠ none → (w.state.mem a).peer ≠ none := by
    intro a ha hv
    by_cases han : a = n
    · have hq := ((h'.list q a).mp ((hlist a q).mpr (.inl ⟨han, rfl⟩))).2
      exact hq.trans_ne (Option.some_ne_none q)
    · obtain ⟨r, hr⟩ := Option.ne_none_iff_exists'.mp hv
      exact ((hpeer a r han).mpr ⟨ha, hr⟩).2.trans_ne (Option.some_ne_none r)
  have hafter : (insertionQuery s w.state L L' f (swapEndian ip f.bits)).Safe w.state
      {p | p ∈ L' ∧ w.state.forest.fam p = f} := by
    refine h'.safe ?_ (fun p hp r hr => .inr ⟨hp, hr⟩) fun _ _ => ⟨rfl, rfl, rfl⟩
    rintro a ⟨ha, hf, hm, hv⟩
    exact ⟨hsub ha, (hs a ha).1.trans hf, (Guides.matches_congr hs ha).mpr hm, hvalued a ha hv⟩
  have hRR' : {p | p ∈ L ∧ s.forest.fam p = f} ⊆ {p | p ∈ L' ∧ w.state.forest.fam p = f} :=
    fun p hp => ⟨hsub hp.1, (hs p hp.1).1.trans hp.2⟩
  have hrun := hadd.safeRun (fun p hp => hp.1) hRR' (h.safe_insertionQuery hs _) hafter
  refine ⟨hrun.reads_le hexec, fun found hdone => ?_⟩
  obtain ⟨hfound, hcover⟩ := hrun.found hexec hdone
  rw [x_insertionQuery hip] at hfound
  by_cases hold : ∀ r v, found = some (r, v) → r ∈ L ∧ (s.mem r).peer = some v
  · left
    refine h.answer_of_found hT hip hs (fun r v hr => ?_) hcover
    obtain ⟨⟨-, hrf⟩, hrm, -⟩ := hfound r v hr
    exact ⟨(hold r v hr).1, hrf, hrm, (hold r v hr).2⟩
  · -- the walk has read the new peer, at the node that changed
    right
    simp only [not_forall] at hold
    obtain ⟨r, v, rfl, hnew⟩ := hold
    obtain ⟨⟨hrL, hrf⟩, hrm, hseen⟩ := hfound r v rfl
    have hrv : (w.state.mem r).peer = some v := (hseen.resolve_left hnew).2
    have hrn : r = n := by
      by_contra hne
      exact hnew ((hpeer r v hne).mp ⟨hrL, hrv⟩)
    rw [h'.answer_eq hT' hip, hT'.longest_eq_found h'.linked]
    · rintro _ _ ⟨⟩
      exact ⟨hrL, hrf, hrm, hrv⟩
    · intro a ha hf hm hv
      by_cases han : a = n
      · exact ⟨r, v, rfl, by rw [han, hrn]⟩
      · obtain ⟨r', hr'⟩ := Option.ne_none_iff_exists'.mp hv
        obtain ⟨haL, hav⟩ := (hpeer a r' han).mp ⟨ha, hr'⟩
        have hx : (insertionQuery s s L L' f (swapEndian ip f.bits)).x = beNat ip := x_insertionQuery hip
        rw [← hx] at hm
        exact hcover a ⟨haL, (hs a haL).1.symm.trans hf, (Guides.matches_congr hs haL).mp hm,
          hav.trans_ne (Option.some_ne_none r')⟩

theorem Inv.answered_add (h : Inv s L) (hT : Reads Family.bits s.forest L T) (g : Family) {key : Bytes}
    (hlen : g.bits / 8 ≤ key.length) (cidr : Nat) (peer : Option P) (fail₁ fail₂ : Bool) {r : Ret}
    (hw : ((AllowedipsWriter.start s).store .seq).add g g.bits key cidr peer fail₁ fail₂ = some (r, w))
    (hip : ip.length = f.bits / 8)
    (hexec : Exec (FindNodeRace.step f (swapEndian ip f.bits)) (fun _ _ => True) (.start s w.stores) t) :
    Answered s w.state f ip t := by
  by_cases hbad : peer = none ∨ g.bits < cidr
  · have hquiet : ((AllowedipsWriter.start s).store .seq).add g g.bits key cidr peer fail₁ fail₂ =
        some (.einval, (AllowedipsWriter.start s).store .seq) := by
      cases peer with
      | none => rfl
      | some q => exact if_pos (hbad.resolve_left (Option.some_ne_none q))
    rw [hquiet] at hw
    cases hw
    exact h.answered_quiet hT hip ⟨trivial, trivial⟩ hexec
  · rw [not_or, not_lt] at hbad
    obtain ⟨q, rfl⟩ := Option.ne_none_iff_exists'.mp hbad.1
    have hadd := AllowedipsWriter.added h hbad.2 hlen q fail₁ fail₂ hw
    by_cases hr : r = .ok
    · subst hr
      obtain ⟨res, hres, -, -, L', h', hT'⟩ := h.bumpSeq.add_spec hT hbad.2 hlen q fail₁ fail₂
      have hstate := AllowedipsWriter.state_add ((AllowedipsWriter.start s).store .seq) g g.bits key cidr (some q)
        fail₁ fail₂
      rw [hw] at hstate
      obtain rfl : (Ret.ok, w.state) = res := Option.some.inj (hstate.trans hres)
      exact h.answered_added hT h' hT' hip hadd hexec
    · cases hadd with
      | failed _ hquiet => exact h.answered_quiet hT hip hquiet hexec
      | moved => exact absurd rfl hr
      | published => exact absurd rfl hr

/-- In any trie, for any address: while an insertion or a removal by peer makes its stores, a walk
of `find_node` ends after a bounded number of reads, and what it has found then is the answer before
the call or the one after it. -/
theorem findNode_during_update (cs : List (AllowedipsCall P)) (u : AllowedipsUpdate P) (f : Family)
    (ip : Vector UInt8 (f.bits / 8)) :
    ∃ rs s r w before after, AllowedipsCall.run wgAllowedipsInit cs = some (rs, s) ∧ u.write s = some (r, w) ∧
      u.call.exec s = some (r, w.state) ∧ s.answer f ip.toList = some before ∧
      w.state.answer f ip.toList = some after ∧
      ∀ t, Exec (FindNodeRace.step f (swapEndian ip.toList f.bits)) (fun _ _ => True) (.start s w.stores) t →
        t.reads ≤ 2 * f.bits + 4 ∧
        ((∀ found, t.walk ≠ .done found) → (t.step f (swapEndian ip.toList f.bits) .read).isSome) ∧
        ∀ found, t.walk = .done found → found.map Prod.snd = before ∨ found.map Prod.snd = after := by
  obtain ⟨rs, s, hrun, -, hag⟩ := (Agrees.init (P := P)).run cs
  obtain ⟨L, h, hT⟩ := hag.trie
  obtain ⟨r, s', hexec, -, -, -, hag'⟩ := hag.exec u.call
  obtain ⟨L', h', hT'⟩ := hag'.trie
  have hmap := u.map_write s
  rw [hexec] at hmap
  obtain ⟨⟨r', w⟩, hwrite, heq⟩ := Option.map_eq_some_iff.mp hmap
  obtain ⟨rfl, rfl⟩ : r' = r ∧ w.state = s' := Prod.ext_iff.mp heq
  have hip : ip.toList.length = f.bits / 8 := by simp
  have hbefore := h.answer_eq hT hip
  have hafter := h'.answer_eq hT' hip
  refine ⟨rs, s, r', w, _, _, hrun, hwrite, hexec, hbefore, hafter, fun t ht => ?_⟩
  have hend : Answered s w.state f ip.toList t := by
    cases u with
    | insertV4 ip' cidr peer fail₁ fail₂ =>
      exact h.answered_add hT .v4 (by simp [swapEndian, Family.bits]) _ _ _ _ hwrite hip ht
    | insertV6 ip' cidr peer fail₁ fail₂ =>
      exact h.answered_add hT .v6 (by simp [swapEndian, Family.bits]) _ _ _ _ hwrite hip ht
    | removeByPeer q =>
      cases hwrite
      rw [AllowedipsWriter.state_removeByPeer]
      exact h.answered_removeByPeer hT hip ht
  refine ⟨hend.1, fun hnot => ?_, fun found hdone => ?_⟩
  · cases hwalk : t.walk with
    | done found => exact absurd hwalk (hnot found)
    | start | reached | passed => simp only [FindNodeRace.step, hwalk, Option.isSome_some]
  · rcases hend.2 found hdone with hfound | hfound
    · rw [hbefore] at hfound
      exact .inl (Option.some.inj hfound).symm
    · rw [hafter] at hfound
      exact .inr (Option.some.inj hfound).symm

end Allowedips
end WireguardAes
