import WireguardAes.Lib.PrefixForest

/-!
# Walking a trie that is being changed

A reader goes down the trie of family `i` towards `x`, one pointer at a time, while a writer stores
into the forest. `Guides w g i x R K` is what it relies on: it stands on nodes of `R`, which may be
out of the trie by now, and from wherever it stands the pointers lead it past every node of `K`. The
nodes whose prefix contains `x` are ordered by their length, so this can be said pointer by pointer.
`Guides.bypass` is the store that takes a node out; a store that adds nodes gives a forest of its
own (`Linked.guides`). `WalkOk` is what the reader has found so far.
-/

open BitPrefix

namespace PrefixForest

variable {ι P : Type} {w : ι → Nat} {g g' : Forest ι P} {L R R' K : Set Nat} {i : ι} {x a p c n r : Nat}

namespace Linked

/-- Two nodes that contain `x` with prefixes of one length are the same. -/
theorem eq_of_matches (h : Linked w g L) (ha : a ∈ L) (hp : p ∈ L) (hfam : g.fam a = g.fam p)
    (hcidr : g.cidr a = g.cidr p) (hax : g.Matches w a x) (hpx : g.Matches w p x) : a = p := by
  refine h.eq_of_prefix_eq ha hp hfam hcidr ?_
  rw [Forest.Matches, ← hfam, ← hcidr] at hpx
  exact hax.trans hpx.symm

/-- Among the nodes whose prefix contains `x`, those with longer prefixes are below the others. -/
theorem below_of_le (h : Linked w g L) (hp : p ∈ L) (ha : a ∈ L) (hfam : g.fam p = g.fam a)
    (hpx : g.Matches w p x) (hax : g.Matches w a x) (hle : g.cidr p ≤ g.cidr a) : g.Below p a := by
  obtain ⟨r, hr, hrp⟩ := h.below_root hp
  obtain ⟨r', hr', hra⟩ := h.below_root ha
  obtain rfl : r = r' := by
    rw [hfam, hr'] at hr
    exact (Option.some.inj hr).symm
  have hrL : r ∈ L := (h.down (.root _) r trivial hr).1
  clear hr hr'
  -- down from the common root both lie on the side of `x`, until `p` is reached
  induction hk : g.cidr p - g.cidr r using Nat.strong_induction_on generalizing r with
  | _ k ih =>
    by_cases hpr : p = r
    · rw [hpr]
      exact hra
    · have hlt : g.cidr r < g.cidr p := (h.below hrL hrp).2.2.1.resolve_left hpr
      have har : a ≠ r := by
        rintro rfl
        exact absurd hle (Nat.not_le.mpr hlt)
      obtain ⟨c, hc, hcp⟩ := h.below_next hrL hrp hpr hpx
      obtain ⟨c', hc', hca⟩ := h.below_next hrL hra har hax
      obtain rfl : c = c' := by
        rw [hc] at hc'
        exact Option.some.inj hc'
      obtain ⟨hcL, -, -, hrc, -⟩ := h.child hrL hc
      have hcle := (h.below hcL hcp).2.2.1
      refine ih (g.cidr p - g.cidr c) ?_ c hcp hca hcL rfl
      rcases hcle with rfl | hcle <;> omega

end Linked

structure Guides (w : ι → Nat) (g : Forest ι P) (i : ι) (x : Nat) (R K : Set Nat) : Prop where
  fam : ∀ p ∈ R, g.fam p = i
  le : ∀ p ∈ R, g.cidr p ≤ w i
  root : ∀ r, g.root i = some r → r ∈ R
  child : ∀ p ∈ R, ∀ b c, g.bit p b = some c → c ∈ R ∧ g.Fits w c (.bit p b)
  kept : ∀ a ∈ K, a ∈ R ∧ g.Matches w a x ∧ g.val a ≠ none
  same : ∀ p ∈ R, g.Matches w p x → ∀ a ∈ K, g.cidr p = g.cidr a → p = a
  first : ∀ a ∈ K, ∃ r, g.root i = some r ∧ g.Matches w r x ∧ g.cidr r ≤ g.cidr a
  next : ∀ p ∈ R, g.Matches w p x → ∀ a ∈ K, g.cidr p < g.cidr a →
    ∃ c, g.bit p (msb (w i) x (g.cidr p)) = some c ∧ g.Matches w c x ∧ g.cidr c ≤ g.cidr a

/-- A trie in order leads to all the nodes that contain `x`. -/
theorem Linked.guides (h : Linked w g L) (hK : ∀ a ∈ K, a ∈ L ∧ g.fam a = i ∧ g.Matches w a x ∧ g.val a ≠ none) :
    Guides w g i x {p | p ∈ L ∧ g.fam p = i} K where
  fam p hp := hp.2
  le p hp := by
    have hle := h.le p hp.1
    rw [hp.2] at hle
    exact hle
  root r hr := by
    obtain ⟨hrL, -, hfit⟩ := h.down (.root i) r trivial hr
    exact ⟨hrL, hfit⟩
  child p hp b c hc := by
    obtain ⟨hcL, -, hfit⟩ := h.child hp.1 hc
    exact ⟨⟨hcL, hfit.1.trans hp.2⟩, hfit⟩
  kept a ha := by
    obtain ⟨haL, hf, hm, hv⟩ := hK a ha
    exact ⟨⟨haL, hf⟩, hm, hv⟩
  same p hp hpx a ha heq := by
    obtain ⟨haL, hf, hax, -⟩ := hK a ha
    exact h.eq_of_matches hp.1 haL (hp.2.trans hf.symm) heq hpx hax
  first a ha := by
    obtain ⟨haL, hf, hax, -⟩ := hK a ha
    obtain ⟨r, hr, hb⟩ := h.below_root haL
    have hrL := (h.down (.root _) r trivial hr).1
    rw [hf] at hr
    refine ⟨r, hr, h.matches_of_below hrL hb hax, ?_⟩
    rcases (h.below hrL hb).2.2.1 with rfl | hlt
    exacts [le_rfl, hlt.le]
  next p hp hpx a ha hlt := by
    obtain ⟨haL, hf, hax, -⟩ := hK a ha
    have hb := h.below_of_le hp.1 haL (hp.2.trans hf.symm) hpx hax hlt.le
    have hne : a ≠ p := by
      rintro rfl
      exact lt_irrefl _ hlt
    obtain ⟨c, hc, hca⟩ := h.below_next hp.1 hb hne hax
    rw [hp.2] at hc
    have hcL := (h.child hp.1 hc).1
    refine ⟨c, hc, h.matches_of_below hcL hca hax, ?_⟩
    rcases (h.below hcL hca).2.2.1 with rfl | hlt
    exacts [le_rfl, hlt.le]

namespace Guides

theorem matches_congr (hs : SamePrefix g g' R) (hp : p ∈ R) : g'.Matches w p x ↔ g.Matches w p x := by
  obtain ⟨h1, h2, h3⟩ := hs p hp
  rw [Forest.Matches, Forest.Matches, h1, h2, h3]

/-- What the reader does not see. -/
theorem congr (h : Guides w g i x R K) (hroot : g'.root i = g.root i) (hbit : ∀ p ∈ R, g'.bit p = g.bit p)
    (hs : SamePrefix g g' R) (hval : ∀ a ∈ K, g'.val a ≠ none) : Guides w g' i x R K where
  fam p hp := (hs p hp).1.trans (h.fam p hp)
  le p hp := by
    rw [(hs p hp).2.1]
    exact h.le p hp
  root r hr := h.root r (hroot ▸ hr)
  child p hp b c hc := by
    rw [hbit p hp] at hc
    obtain ⟨hcR, hfit⟩ := h.child p hp b c hc
    exact ⟨hcR, Linked.fits_congr hs hp hcR hfit⟩
  kept a ha := by
    obtain ⟨haR, hm, -⟩ := h.kept a ha
    exact ⟨haR, (matches_congr hs haR).mpr hm, hval a ha⟩
  same p hp hpx a ha heq := by
    rw [(hs p hp).2.1, (hs a (h.kept a ha).1).2.1] at heq
    exact h.same p hp ((matches_congr hs hp).mp hpx) a ha heq
  first a ha := by
    obtain ⟨r, hr, hm, hle⟩ := h.first a ha
    have hrR := h.root r hr
    refine ⟨r, hroot.trans hr, (matches_congr hs hrR).mpr hm, ?_⟩
    rw [(hs r hrR).2.1, (hs a (h.kept a ha).1).2.1]
    exact hle
  next p hp hpx a ha hlt := by
    rw [(hs p hp).2.1, (hs a (h.kept a ha).1).2.1] at hlt
    obtain ⟨c, hc, hm, hle⟩ := h.next p hp ((matches_congr hs hp).mp hpx) a ha hlt
    have hcR := (h.child p hp _ c hc).1
    refine ⟨c, ?_, (matches_congr hs hcR).mpr hm, ?_⟩
    · rw [(hs p hp).2.1, hbit p hp]
      exact hc
    · rw [(hs c hcR).2.1, (hs a (h.kept a ha).1).2.1]
      exact hle

variable [DecidableEq ι] {σ : Slot ι} {o : Option Nat}

theorem samePrefix_setSlot (g : Forest ι P) (σ : Slot ι) (o : Option Nat) : SamePrefix g (g.setSlot σ o) R := by
  intro c _
  cases σ <;> exact ⟨rfl, rfl, rfl⟩

theorem val_setSlot (g : Forest ι P) (σ : Slot ι) (o : Option Nat) : (g.setSlot σ o).val = g.val := by
  cases σ <;> rfl

/-- The slot that points to `n` is made to point to the only child of `n`, if it has one. A reader
that goes through the slot misses `n` and nothing else: what is below `n` on the other side of `x`
does not contain `x`. -/
theorem bypass (h : Guides w g i x R K) (hn : g.slot σ = some n) (hK : n ∉ K)
    (ho : ∀ c, o = some c → ∃ b, g.bit n b = some c) (hone : ∀ b c, g.bit n b = some c → o = some c) :
    Guides w (g.setSlot σ o) i x R K := by
  have hslot := fun τ => Forest.slot_setSlot g σ τ o
  have hs : SamePrefix g (g.setSlot σ o) R := samePrefix_setSlot g σ o
  have hcidr : ∀ p, (g.setSlot σ o).cidr p = g.cidr p := fun p => by cases σ <;> rfl
  have hmatch : ∀ p, (g.setSlot σ o).Matches w p x ↔ g.Matches w p x := fun p => by cases σ <;> exact Iff.rfl
  have hfits : ∀ c τ, (g.setSlot σ o).Fits w c τ ↔ g.Fits w c τ := fun c τ => by cases σ <;> cases τ <;> exact Iff.rfl
  -- A reader that was led to `n` is now led to the child on the side of `x`.
  have hpast : n ∈ R → g.Matches w n x → ∀ a ∈ K, g.cidr n ≤ g.cidr a →
      ∃ c, o = some c ∧ g.Matches w c x ∧ g.cidr c ≤ g.cidr a := by
    intro hnR hnx a ha hle
    have hlt : g.cidr n < g.cidr a := by
      refine lt_of_le_of_ne hle fun heq => hK ?_
      rw [h.same n hnR hnx a ha heq]
      exact ha
    obtain ⟨c, hc, hm, hle'⟩ := h.next n hnR hnx a ha hlt
    exact ⟨c, hone _ c hc, hm, hle'⟩
  refine ⟨?_, ?_, ?_, ?_, ?_, ?_, ?_, ?_⟩
  · intro p hp
    rw [(hs p hp).1]
    exact h.fam p hp
  · intro p hp
    rw [hcidr]
    exact h.le p hp
  · intro r hr
    have hr' := hslot (.root i)
    split_ifs at hr' with hσ
    · subst hσ
      obtain ⟨b, hb⟩ := ho r (hr'.symm.trans hr)
      exact (h.child n (h.root n hn) b r hb).1
    · exact h.root r (hr'.symm.trans hr)
  · intro p hp b c hc
    rw [hfits]
    have hc' := hslot (.bit p b)
    split_ifs at hc' with hσ
    · subst hσ
      obtain ⟨hnR, hfitn⟩ := h.child p hp b n hn
      obtain ⟨b', hb'⟩ := ho c (hc'.symm.trans hc)
      obtain ⟨hcR, hfitc⟩ := h.child n hnR b' c hb'
      exact ⟨hcR, Linked.Fits.up hfitn hfitc⟩
    · exact h.child p hp b c (hc'.symm.trans hc)
  · intro a ha
    rw [hmatch, val_setSlot]
    exact h.kept a ha
  · intro p hp hpx a ha heq
    rw [hcidr, hcidr] at heq
    exact h.same p hp ((hmatch p).mp hpx) a ha heq
  · intro a ha
    obtain ⟨r, hr, hm, hle⟩ := h.first a ha
    have hr' := hslot (.root i)
    split_ifs at hr' with hσ
    · subst hσ
      obtain rfl : n = r := Option.some.inj (hn.symm.trans hr)
      obtain ⟨c, hc, hcm, hcle⟩ := hpast (h.root n hr) hm a ha hle
      refine ⟨c, hr'.trans hc, (hmatch c).mpr hcm, ?_⟩
      rw [hcidr, hcidr]
      exact hcle
    · refine ⟨r, hr'.trans hr, (hmatch r).mpr hm, ?_⟩
      rw [hcidr, hcidr]
      exact hle
  · intro p hp hpx a ha hlt
    rw [hcidr, hcidr] at hlt
    obtain ⟨c, hc, hm, hle⟩ := h.next p hp ((hmatch p).mp hpx) a ha hlt
    have hc' := hslot (.bit p (msb (w i) x (g.cidr p)))
    rw [hcidr p]
    split_ifs at hc' with hσ
    · subst hσ
      obtain rfl : n = c := Option.some.inj (hn.symm.trans hc)
      obtain ⟨d, hd, hdm, hdle⟩ := hpast (h.child p hp _ n hc).1 hm a ha hle
      refine ⟨d, hc'.trans hd, (hmatch d).mpr hdm, ?_⟩
      rw [hcidr, hcidr]
      exact hdle
    · refine ⟨c, hc'.trans hc, (hmatch c).mpr hm, ?_⟩
      rw [hcidr, hcidr]
      exact hle

end Guides

/-! ### The reader -/

/-- Where a walk is. `found` is the last node with a value that it has passed, with the value that
it read. -/
inductive Walk (P : Type) where
  | start
  /-- The pointer to the next node is read. -/
  | reached (node : Option Nat) (found : Option (Nat × P))
  /-- The node contains `x`, and its value is read. -/
  | passed (node : Nat) (found : Option (Nat × P))
  | done (found : Option (Nat × P))

/-- What is found once the value of `p` is read. -/
def Walk.latest (found : Option (Nat × P)) (p : Nat) (v : Option P) : Option (Nat × P) :=
  match v with
  | some q => some (p, q)
  | none => found

/-- A bound on the reads that are left, each node being longer than the one before. -/
def Walk.left (g : Forest ι P) (bits : Nat) : Walk P → Nat
  | .start => 2 * bits + 4
  | .reached none _ => 1
  | .reached (some p) _ => 2 * (bits - g.cidr p) + 3
  | .passed p _ => 2 * (bits - g.cidr p) + 2
  | .done _ => 0

theorem Walk.left_reached_root (g : Forest ι P) (bits : Nat) (node : Option Nat) (found : Option (Nat × P)) :
    (Walk.reached node found).left g bits < 2 * bits + 4 := by
  rcases node with _ | p <;> simp only [Walk.left] <;> omega

theorem Walk.left_reached_child {bits : Nat} {node : Option Nat} (found : Option (Nat × P))
    (h : ∀ c, node = some c → g.cidr p < g.cidr c ∧ g.cidr c ≤ bits) :
    (Walk.reached node found).left g bits < 2 * (bits - g.cidr p) + 2 := by
  rcases node with _ | c
  · simp only [Walk.left]
    omega
  · obtain ⟨hlt, hle⟩ := h c rfl
    simp only [Walk.left]
    omega

/-- The walk has found a node at or below `a`. -/
def Covers (g : Forest ι P) (found : Option (Nat × P)) (a : Nat) : Prop :=
  ∃ r q, found = some (r, q) ∧ g.cidr a ≤ g.cidr r

/-- The node found contains `x`, and had a value that a reader may see there. -/
def FoundOk (w : ι → Nat) (g : Forest ι P) (x : Nat) (R : Set Nat) (seen : Nat → P → Prop)
    (found : Option (Nat × P)) : Prop :=
  ∀ r q, found = some (r, q) → r ∈ R ∧ g.Matches w r x ∧ seen r q

/-- The nodes of `K` are found or ahead. -/
def WalkOk (w : ι → Nat) (g : Forest ι P) (i : ι) (x : Nat) (R K : Set Nat) (seen : Nat → P → Prop) : Walk P → Prop
  | .start => True
  | .reached node found => FoundOk w g x R seen found ∧
      (∀ p, node = some p → p ∈ R ∧ ∀ r q, found = some (r, q) → g.cidr r < g.cidr p) ∧
      ∀ a ∈ K, Covers g found a ∨ ∃ p, node = some p ∧ g.Matches w p x ∧ g.cidr p ≤ g.cidr a
  | .passed p found => FoundOk w g x R seen found ∧ p ∈ R ∧ g.Matches w p x ∧ g.cidr p < w i ∧
      (∀ r q, found = some (r, q) → g.cidr r ≤ g.cidr p) ∧ ∀ a ∈ K, Covers g found a ∨ g.cidr p < g.cidr a
  | .done found => FoundOk w g x R seen found ∧ ∀ a ∈ K, Covers g found a

namespace WalkOk

variable {seen : Nat → P → Prop} {found : Option (Nat × P)} {node : Option Nat}

theorem reached_root (h : Guides w g i x R K) : WalkOk w g i x R K seen (.reached (g.root i) none) := by
  refine ⟨?_, ?_, fun a ha => .inr ?_⟩
  · rintro r q ⟨⟩
  · intro p hp
    refine ⟨h.root p hp, ?_⟩
    rintro r q ⟨⟩
  · obtain ⟨r, hr, hm, hle⟩ := h.first a ha
    exact ⟨r, hr, hm, hle⟩

theorem done_of_none (h : WalkOk w g i x R K seen (.reached none found)) : WalkOk w g i x R K seen (.done found) := by
  refine ⟨h.1, fun a ha => (h.2.2 a ha).resolve_right ?_⟩
  rintro ⟨p, ⟨⟩, -⟩

/-- The node reached does not contain `x`, so there is nothing ahead. -/
theorem done_of_not_matches (h : WalkOk w g i x R K seen (.reached (some p) found)) (hm : ¬ g.Matches w p x) :
    WalkOk w g i x R K seen (.done found) := by
  refine ⟨h.1, fun a ha => (h.2.2 a ha).resolve_right ?_⟩
  rintro ⟨_, ⟨⟩, hm', -⟩
  exact hm hm'

variable {v : Option P}

theorem found_read (h : WalkOk w g i x R K seen (.reached (some p) found)) (hg : Guides w g i x R K)
    (hm : g.Matches w p x) (hv : v = g.val p) (hseen : ∀ q, v = some q → seen p q) :
    FoundOk w g x R seen (Walk.latest found p v) ∧ p ∈ R ∧
      (∀ r q, Walk.latest found p v = some (r, q) → g.cidr r ≤ g.cidr p) ∧
      ∀ a ∈ K, Covers g (Walk.latest found p v) a ∨ g.cidr p < g.cidr a := by
  obtain ⟨hfound, hnode, hcover⟩ := h
  obtain ⟨hpR, hlow⟩ := hnode p rfl
  cases v with
  | some q =>
    refine ⟨?_, hpR, ?_, fun a ha => ?_⟩
    · rintro r q' ⟨⟩
      exact ⟨hpR, hm, hseen q rfl⟩
    · rintro r q' ⟨⟩
      exact le_rfl
    · rcases Nat.lt_or_ge (g.cidr p) (g.cidr a) with hlt | hge
      · exact .inr hlt
      · exact .inl ⟨p, q, rfl, hge⟩
  | none =>
    refine ⟨hfound, hpR, fun r q hr => (hlow r q hr).le, fun a ha => ?_⟩
    refine (hcover a ha).imp_right ?_
    rintro ⟨_, ⟨⟩, -, hle⟩
    -- `p` has no value, so it is not `a`
    refine lt_of_le_of_ne hle fun heq => ?_
    obtain rfl := hg.same p hpR hm a ha heq
    exact (hg.kept p ha).2.2 hv.symm

theorem done_of_full (h : WalkOk w g i x R K seen (.reached (some p) found)) (hg : Guides w g i x R K)
    (hm : g.Matches w p x) (hv : v = g.val p) (hseen : ∀ q, v = some q → seen p q) (hfull : g.cidr p = w i) :
    WalkOk w g i x R K seen (.done (Walk.latest found p v)) := by
  obtain ⟨hfound, -, -, hcover⟩ := h.found_read hg hm hv hseen
  refine ⟨hfound, fun a ha => (hcover a ha).resolve_right fun hlt => ?_⟩
  have hle := hg.le a (hg.kept a ha).1
  omega

theorem passed (h : WalkOk w g i x R K seen (.reached (some p) found)) (hg : Guides w g i x R K)
    (hm : g.Matches w p x) (hv : v = g.val p) (hseen : ∀ q, v = some q → seen p q) (hfull : g.cidr p ≠ w i) :
    WalkOk w g i x R K seen (.passed p (Walk.latest found p v)) := by
  obtain ⟨hfound, hpR, hlow, hcover⟩ := h.found_read hg hm hv hseen
  exact ⟨hfound, hpR, hm, lt_of_le_of_ne (hg.le p hpR) hfull, hlow, hcover⟩

theorem reached (h : WalkOk w g i x R K seen (.passed p found)) (hg : Guides w g i x R K) :
    WalkOk w g i x R K seen (.reached (g.bit p (msb (w i) x (g.cidr p))) found) := by
  obtain ⟨hfound, hpR, hm, -, hlow, hcover⟩ := h
  refine ⟨hfound, fun c hc => ?_, fun a ha => (hcover a ha).imp_right fun hlt => hg.next p hpR hm a ha hlt⟩
  obtain ⟨hcR, -, hlt, -⟩ := hg.child p hpR _ c hc
  exact ⟨hcR, fun r q hr => lt_of_le_of_lt (hlow r q hr) hlt⟩

/-- The forest has changed, but not the prefixes of the nodes that the reader may stand on. -/
theorem mono {walk : Walk P} (h : WalkOk w g i x R K seen walk) (hg : Guides w g i x R K) (hR : R ⊆ R')
    (hs : SamePrefix g g' R) : WalkOk w g' i x R' K seen walk := by
  have hcidr : ∀ p ∈ R, g'.cidr p = g.cidr p := fun p hp => (hs p hp).2.1
  have hmatch : ∀ p ∈ R, g.Matches w p x → g'.Matches w p x := fun p hp => (Guides.matches_congr hs hp).mpr
  have hfound : ∀ found, FoundOk w g x R seen found → FoundOk w g' x R' seen found := by
    intro found hf r q hr
    obtain ⟨hrR, hm, hq⟩ := hf r q hr
    exact ⟨hR hrR, hmatch r hrR hm, hq⟩
  have hcover : ∀ found, FoundOk w g x R seen found → ∀ a ∈ K, Covers g found a → Covers g' found a := by
    rintro found hf a ha ⟨r, q, hr, hle⟩
    refine ⟨r, q, hr, ?_⟩
    rw [hcidr a (hg.kept a ha).1, hcidr r (hf r q hr).1]
    exact hle
  cases walk with
  | start => trivial
  | done found => exact ⟨hfound found h.1, fun a ha => hcover found h.1 a ha (h.2 a ha)⟩
  | reached node found =>
    obtain ⟨hf, hnode, hcov⟩ := h
    refine ⟨hfound found hf, fun p hp => ?_, fun a ha => ?_⟩
    · obtain ⟨hpR, hlow⟩ := hnode p hp
      refine ⟨hR hpR, fun r q hr => ?_⟩
      rw [hcidr p hpR, hcidr r (hf r q hr).1]
      exact hlow r q hr
    · refine (hcov a ha).imp (hcover found hf a ha) ?_
      rintro ⟨p, hp, hm, hle⟩
      have hpR := (hnode p hp).1
      refine ⟨p, hp, hmatch p hpR hm, ?_⟩
      rw [hcidr p hpR, hcidr a (hg.kept a ha).1]
      exact hle
  | passed p found =>
    obtain ⟨hf, hpR, hm, hlt, hlow, hcov⟩ := h
    refine ⟨hfound found hf, hR hpR, hmatch p hpR hm, ?_, fun r q hr => ?_, fun a ha => ?_⟩
    · rw [hcidr p hpR]
      exact hlt
    · rw [hcidr p hpR, hcidr r (hf r q hr).1]
      exact hlow r q hr
    · refine (hcov a ha).imp (hcover found hf a ha) fun hlt => ?_
      rw [hcidr p hpR, hcidr a (hg.kept a ha).1]
      exact hlt

theorem left_eq {walk : Walk P} (h : WalkOk w g i x R K seen walk) (hs : SamePrefix g g' R) (bits : Nat) :
    walk.left g' bits = walk.left g bits := by
  rcases walk with _ | ⟨_ | p, found⟩ | ⟨p, found⟩ | found
  · rfl
  · rfl
  · simp only [Walk.left, (hs p (h.2.1 p rfl).1).2.1]
  · simp only [Walk.left, (hs p h.2.1).2.1]
  · rfl

end WalkOk

/-- A walk that has found a node at or below every node with a value has found the longest
prefix. -/
theorem Reads.longest_eq_found {T : PrefixTable ι P} {found : Option (Nat × P)} (hr : Reads w g L T)
    (hl : Linked w g L)
    (hfound : ∀ r q, found = some (r, q) → r ∈ L ∧ g.fam r = i ∧ g.Matches w r x ∧ g.val r = some q)
    (hcover : ∀ a ∈ L, g.fam a = i → g.Matches w a x → g.val a ≠ none → Covers g found a) :
    T.longest w i x = found.map Prod.snd := by
  rcases found with _ | ⟨r, q⟩
  · refine hr.longest_eq_none fun a ha hf hm => ?_
    by_contra hv
    obtain ⟨r, q, hr, -⟩ := hcover a ha hf hm hv
    cases hr
  · obtain ⟨hrL, hf, hm, hv⟩ := hfound r q rfl
    refine hr.longest_eq_some hl hrL hf hm hv fun a ha hfa hma hva => ?_
    obtain ⟨r', q', hr', hle⟩ := hcover a ha hfa hma hva
    cases hr'
    exact hle

/-- The nodes of `q` lose their values. -/
def Forest.forget [DecidableEq P] (g : Forest ι P) (q : P) : Forest ι P :=
  { g with val := fun p => (g.val p).filter (· ≠ q) }

theorem Reads.forget [DecidableEq P] {T : PrefixTable ι P} (hr : Reads w g L T) (q : P) :
    Reads w (g.forget q) L (T.forget q) := by
  intro i x c v
  rw [PrefixTable.forget_eq_some, hr i x c v]
  simp only [Forest.entries, Forest.forget, Set.mem_ofPred_eq, Option.filter_eq_some_iff, decide_eq_true_eq]
  constructor
  · rintro ⟨⟨p, hp, h1, h2, h3, h4⟩, hne⟩
    exact ⟨p, hp, h1, h2, h3, h4, hne⟩
  · rintro ⟨p, hp, h1, h2, h3, h4, hne⟩
    exact ⟨⟨p, hp, h1, h2, h3, h4⟩, hne⟩

theorem Linked.forget [DecidableEq P] (h : Linked w g L) (q : P) : Linked w (g.forget q) L :=
  h.congr (fun τ _ => by cases τ <;> rfl) (fun _ _ => rfl) fun _ _ => ⟨rfl, rfl, rfl⟩

/-- What hangs in a slot of the old trie is still there if the slot is: no node is lost. -/
theorem Linked.subset_of_slots {L' : Set Nat} (h : Linked w g L)
    (hstep : ∀ τ c, Live L τ → Live L' τ → g.slot τ = some c → c ∈ L') : L ⊆ L' := by
  intro p hp
  obtain ⟨r, hr, hb⟩ := h.below_root hp
  have hrL : r ∈ L := (h.down (.root _) r trivial hr).1
  have hrL' : r ∈ L' := hstep (.root _) r trivial trivial hr
  clear hp hr
  induction hb with
  | refl => exact hrL'
  | tail hb hc ih =>
    obtain ⟨b, hc⟩ := hc
    exact hstep (.bit _ b) _ (h.below hrL hb).1 ih hc

end PrefixForest
