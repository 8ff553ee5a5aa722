import WireguardAes.Lib.PrefixTable
import Mathlib.Logic.Relation
import Mathlib.Data.Set.Insert

/-!
# Path-compressed tries as a pointer graph

A forest of binary tries in one memory: `root i` is the trie of family `i`, a node has two child
slots and knows the slot it hangs in. Nodes carry a prefix (`key`, of which the first `cidr` bits
count) and possibly a value. `Linked w g L` is the representation invariant for the set `L` of
linked nodes: every slot of the forest points into `L` and is pointed back at, and along an edge
the prefix gets longer, agrees with the one above and takes the side its next bit says.

The invariant is stated slot by slot, so that the three rewrites a trie needs are local:
`Linked.attach` fills a free slot with a leaf, `Linked.splice` puts a node between a slot and what
hangs there, `Linked.unlink` takes a node with at most one child out. The reading of the trie is
`entries`; `Linked.below_next` (a node below `p` whose prefix contains `x` hangs on the side of `x`)
is what makes a walk from the root meet all the nodes whose prefix contains the query.
-/

open Function BitPrefix

namespace PrefixForest

variable {ι P : Type}

/-- A place that holds a pointer to a node. -/
inductive Slot (ι : Type) where
  | root (i : ι)
  | bit (p : Nat) (b : Bool)
deriving DecidableEq

@[ext]
structure Forest (ι P : Type) where
  root : ι → Option Nat
  bit : Nat → Bool → Option Nat
  up : Nat → Slot ι
  fam : Nat → ι
  cidr : Nat → Nat
  key : Nat → Nat
  val : Nat → Option P

namespace Forest

def slot (g : Forest ι P) : Slot ι → Option Nat
  | .root i => g.root i
  | .bit p b => g.bit p b

def setSlot [DecidableEq ι] (g : Forest ι P) (σ : Slot ι) (o : Option Nat) : Forest ι P :=
  match σ with
  | .root i => { g with root := update g.root i o }
  | .bit p b => { g with bit := update g.bit p (update (g.bit p) b o) }

def setUp (g : Forest ι P) (p : Nat) (σ : Slot ι) : Forest ι P := { g with up := update g.up p σ }

/-- The prefix of node `c` belongs in the slot. -/
def Fits (w : ι → Nat) (g : Forest ι P) (c : Nat) : Slot ι → Prop
  | .root i => g.fam c = i
  | .bit p b => g.fam c = g.fam p ∧ g.cidr p < g.cidr c ∧ Agree (w (g.fam p)) (g.cidr p) (g.key p) (g.key c) ∧
      msb (w (g.fam p)) (g.key c) (g.cidr p) = b

/-- The prefix of node `p` contains `x`. -/
def Matches (w : ι → Nat) (g : Forest ι P) (p x : Nat) : Prop :=
  Agree (w (g.fam p)) (g.cidr p) (g.key p) x

def Child (g : Forest ι P) (p c : Nat) : Prop := ∃ b, g.bit p b = some c

def Below (g : Forest ι P) : Nat → Nat → Prop := Relation.ReflTransGen g.Child

/-- The prefixes with a value, as a table would list them. -/
def entries (w : ι → Nat) (g : Forest ι P) (L : Set Nat) : Set (ι × Nat × Nat × P) :=
  {e | ∃ p ∈ L, g.fam p = e.1 ∧ mask (w (g.fam p)) (g.cidr p) (g.key p) = e.2.1 ∧ g.cidr p = e.2.2.1 ∧
    g.val p = some e.2.2.2}

end Forest

namespace Forest
variable [DecidableEq ι] (g : Forest ι P) (σ τ : Slot ι) (o : Option Nat)

theorem slot_setSlot : (g.setSlot σ o).slot τ = if τ = σ then o else g.slot τ := by
  cases σ with
  | root i =>
    cases τ with
    | root j => simp [setSlot, slot, update_apply]
    | bit p b => simp [setSlot, slot]
  | bit p b =>
    cases τ with
    | root j => simp [setSlot, slot]
    | bit q c =>
      by_cases hq : q = p
      · subst hq; simp [setSlot, slot, update_apply]
      · simp [setSlot, slot, hq]

@[simp] theorem up_setSlot : (g.setSlot σ o).up = g.up := by cases σ <;> rfl

end Forest

namespace Forest
variable (g : Forest ι P) (p : Nat) (σ τ : Slot ι)

@[simp] theorem up_setUp : (g.setUp p σ).up = update g.up p σ := rfl
@[simp] theorem slot_setUp : (g.setUp p σ).slot τ = g.slot τ := by cases τ <;> rfl

end Forest

/-- The slot belongs to a linked node or is a root. -/
def Live (L : Set Nat) : Slot ι → Prop
  | .root _ => True
  | .bit p _ => p ∈ L

structure Linked (w : ι → Nat) (g : Forest ι P) (L : Set Nat) : Prop where
  down : ∀ τ c, Live L τ → g.slot τ = some c → c ∈ L ∧ g.up c = τ ∧ g.Fits w c τ
  up : ∀ c ∈ L, Live L (g.up c) ∧ g.slot (g.up c) = some c
  le : ∀ c ∈ L, g.cidr c ≤ w (g.fam c)
  lt : ∀ c ∈ L, g.key c < 2 ^ w (g.fam c)

variable {w : ι → Nat} {g g' : Forest ι P} {L : Set Nat} {a p c n x : Nat} {σ τ : Slot ι}
variable {b : Bool}

theorem Live.mono {L' : Set Nat} (h : Live L τ) (hL : L ⊆ L') : Live L' τ := by
  cases τ with
  | root i => exact h
  | bit p b => exact hL h

/-- `g'` gives the nodes of `L` the prefixes they have in `g`. -/
def SamePrefix (g g' : Forest ι P) (L : Set Nat) : Prop :=
  ∀ c ∈ L, g'.fam c = g.fam c ∧ g'.cidr c = g.cidr c ∧ g'.key c = g.key c

namespace Linked

theorem child (h : Linked w g L) (hp : p ∈ L) (hc : g.bit p b = some c) :
    c ∈ L ∧ g.up c = .bit p b ∧ g.Fits w c (.bit p b) :=
  h.down (.bit p b) c hp hc

/-- What `p` shares with a node below it. -/
theorem below (h : Linked w g L) (hp : p ∈ L) (hb : g.Below p a) :
    a ∈ L ∧ g.fam a = g.fam p ∧ (a = p ∨ g.cidr p < g.cidr a) ∧
      Agree (w (g.fam p)) (g.cidr p) (g.key p) (g.key a) := by
  induction hb with
  | refl => exact ⟨hp, rfl, .inl rfl, .refl _ _ _⟩
  | @tail b c _ hbc ih =>
    obtain ⟨hbL, hfam, hlt, hag⟩ := ih
    obtain ⟨d, hd⟩ := hbc
    obtain ⟨hcL, -, hcf, hclt, hcag, -⟩ := h.child hbL hd
    have hle : g.cidr p ≤ g.cidr b := by rcases hlt with rfl | hlt <;> omega
    rw [hfam] at hcag
    exact ⟨hcL, hcf.trans hfam, .inr (by omega), hag.trans (hcag.mono hle)⟩

/-- If `p` does not contain `x`, nothing below it does. -/
theorem matches_of_below (h : Linked w g L) (hp : p ∈ L) (hb : g.Below p a) (hm : g.Matches w a x) :
    g.Matches w p x := by
  obtain ⟨-, hfam, hle, hag⟩ := h.below hp hb
  rw [Forest.Matches, hfam] at hm
  refine hag.trans (hm.mono ?_)
  rcases hle with rfl | hlt
  exacts [le_rfl, hlt.le]

/-- The prefixes below a child have the bit of its side. -/
theorem msb_below_child (h : Linked w g L) (hp : p ∈ L) (hc : g.bit p b = some c) (hb : g.Below c a) :
    msb (w (g.fam p)) (g.key a) (g.cidr p) = b := by
  obtain ⟨hcL, -, hcf, hlt, -, hside⟩ := h.child hp hc
  obtain ⟨-, -, -, hag⟩ := h.below hcL hb
  rw [hcf] at hag
  rw [← hag.msb_eq hlt, hside]

/-- A node below `p` hangs on the side its own prefix says. -/
theorem below_side (h : Linked w g L) (hp : p ∈ L) (hb : g.Below p a) (hne : a ≠ p) :
    ∃ c, g.bit p (msb (w (g.fam p)) (g.key a) (g.cidr p)) = some c ∧ g.Below c a := by
  rcases Relation.ReflTransGen.cases_head hb with heq | ⟨c, ⟨b, hc⟩, hca⟩
  · exact absurd heq.symm hne
  · exact ⟨c, by rw [h.msb_below_child hp hc hca]; exact hc, hca⟩

/-- A node is not below its own child. -/
theorem not_below_child (h : Linked w g L) (hp : p ∈ L) (hc : g.bit p b = some c) : ¬ g.Below c p := by
  intro hb
  obtain ⟨hcL, -, -, hlt, -⟩ := h.child hp hc
  rcases (h.below hcL hb).2.2.1 with rfl | hlt'
  · omega
  · omega

/-- A node below `p` whose prefix contains `x` hangs on the side of `x`. -/
theorem below_next (h : Linked w g L) (hp : p ∈ L) (hb : g.Below p a) (hne : a ≠ p) (hx : g.Matches w a x) :
    ∃ c, g.bit p (msb (w (g.fam p)) x (g.cidr p)) = some c ∧ g.Below c a := by
  obtain ⟨-, hfam, hlt, -⟩ := h.below hp hb
  rw [Forest.Matches, hfam] at hx
  rw [← hx.msb_eq (hlt.resolve_left hne)]
  exact h.below_side hp hb hne

/-- Every linked node hangs below the root of its family. -/
theorem below_root (h : Linked w g L) (ha : a ∈ L) : ∃ r, g.root (g.fam a) = some r ∧ g.Below r a := by
  -- upwards the prefixes get shorter
  induction hk : g.cidr a using Nat.strong_induction_on generalizing a with
  | _ k ih =>
    obtain ⟨hlive, hslot⟩ := h.up a ha
    obtain ⟨-, -, hfit⟩ := h.down _ _ hlive hslot
    cases hup : g.up a with
    | root i =>
      rw [hup] at hslot hfit
      exact ⟨a, by rw [show g.fam a = i from hfit]; exact hslot, .refl⟩
    | bit p b =>
      rw [hup] at hslot hfit hlive
      obtain ⟨hfam, hlt, -⟩ := hfit
      obtain ⟨r, hr, hra⟩ := ih (g.cidr p) (by omega) hlive rfl
      exact ⟨r, by rw [hfam]; exact hr, hra.tail ⟨b, hslot⟩⟩

/-- Two linked nodes of one family with the same prefix are the same node. -/
theorem eq_of_prefix_eq (h : Linked w g L) (ha : a ∈ L) (hp : p ∈ L) (hfam : g.fam a = g.fam p)
    (hc : g.cidr a = g.cidr p) (hx : g.Matches w a (g.key p)) : a = p := by
  obtain ⟨r, hr, hra⟩ := h.below_root ha
  obtain ⟨r', hr', hrp⟩ := h.below_root hp
  obtain rfl : r = r' := by rw [hfam, hr'] at hr; exact (Option.some.inj hr).symm
  have hrL : r ∈ L := (h.down (.root _) r trivial hr).1
  clear hr hr'
  -- walk down from the common root: both lie on the same side at every node
  induction hk : g.cidr a - g.cidr r using Nat.strong_induction_on generalizing r with
  | _ k ih =>
    by_cases har : a = r
    · rcases (h.below hrL hrp).2.2.1 with heq | hlt
      · rw [har, heq]
      · rw [← har] at hlt; omega
    by_cases hpr : p = r
    · rcases (h.below hrL hra).2.2.1 with heq | hlt
      · exact absurd heq har
      · rw [← hpr] at hlt; omega
    obtain ⟨c, hcr, hca⟩ := h.below_next hrL hra har hx
    obtain ⟨c', hcr', hcp⟩ := h.below_next hrL hrp hpr (x := g.key p) (.refl _ _ _)
    obtain rfl : c = c' := by rw [hcr] at hcr'; exact Option.some.inj hcr'
    obtain ⟨hcL, -, -, hlt, -⟩ := h.child hrL hcr
    have hac := (h.below hcL hca).2.2.1
    refine ih (g.cidr a - g.cidr c) ?_ c hca hcp hcL rfl
    rcases hac with rfl | hac <;> omega

theorem fits_congr (hs : SamePrefix g g' L) (hτ : Live L τ) (hc : c ∈ L) (hf : g.Fits w c τ) : g'.Fits w c τ := by
  obtain ⟨h1, h2, h3⟩ := hs c hc
  cases τ with
  | root i => rw [Forest.Fits, h1]; exact hf
  | bit p b =>
    obtain ⟨h4, h5, h6⟩ := hs p hτ
    simp only [Forest.Fits, h1, h2, h3, h4, h5, h6]
    exact hf

theorem bounds (h : Linked w g L) (hs : SamePrefix g g' L) (hc : c ∈ L) :
    g'.cidr c ≤ w (g'.fam c) ∧ g'.key c < 2 ^ w (g'.fam c) := by
  obtain ⟨h1, h2, h3⟩ := hs c hc
  rw [h1, h2, h3]
  exact ⟨h.le c hc, h.lt c hc⟩

theorem congr (h : Linked w g L) (hslot : ∀ τ, Live L τ → g'.slot τ = g.slot τ)
    (hup : ∀ c ∈ L, g'.up c = g.up c) (hs : SamePrefix g g' L) : Linked w g' L := by
  refine ⟨?_, ?_, fun c hc => (h.bounds hs hc).1, fun c hc => (h.bounds hs hc).2⟩
  · intro τ c hτ hc
    rw [hslot τ hτ] at hc
    obtain ⟨hcL, hcu, hcf⟩ := h.down τ c hτ hc
    exact ⟨hcL, (hup c hcL).trans hcu, fits_congr hs hτ hcL hcf⟩
  · intro c hc
    obtain ⟨h1, h2⟩ := h.up c hc
    rw [hup c hc]
    exact ⟨h1, (hslot _ h1).trans h2⟩

/-- Filling the free slot `σ` with the new leaf `n`. -/
theorem attach (h : Linked w g L) (hn : n ∉ L) (hσ : Live L σ) (hfree : g.slot σ = none)
    (hslot : g'.slot σ = some n) (hleaf : ∀ b, g'.bit n b = none)
    (hkeep : ∀ τ, Live L τ → τ ≠ σ → g'.slot τ = g.slot τ)
    (hup : g'.up n = σ) (hup' : ∀ c ∈ L, g'.up c = g.up c) (hs : SamePrefix g g' L)
    (hfit : g'.Fits w n σ) (hle : g'.cidr n ≤ w (g'.fam n)) (hlt : g'.key n < 2 ^ w (g'.fam n)) :
    Linked w g' (insert n L) := by
  have hlive : ∀ τ : Slot ι, Live (insert n L) τ → (∃ b, τ = .bit n b) ∨ Live L τ := by
    rintro (i | ⟨p, b⟩) hτ
    · exact .inr trivial
    · rcases Set.mem_insert_iff.1 hτ with rfl | hp
      exacts [.inl ⟨b, rfl⟩, .inr hp]
  have hold : ∀ τ c, Live L τ → τ ≠ σ → g'.slot τ = some c → c ∈ L ∧ g'.up c = τ ∧ g'.Fits w c τ := by
    intro τ c hτ hne hc
    rw [hkeep τ hτ hne] at hc
    obtain ⟨hcL, hcu, hcf⟩ := h.down τ c hτ hc
    exact ⟨hcL, (hup' c hcL).trans hcu, fits_congr hs hτ hcL hcf⟩
  refine ⟨?_, ?_, ?_, ?_⟩
  · intro τ c hτ hc
    rcases hlive τ hτ with ⟨b, rfl⟩ | hτ
    · rw [Forest.slot, hleaf] at hc; cases hc
    by_cases hne : τ = σ
    · subst hne
      rw [hslot] at hc
      obtain rfl := Option.some.inj hc
      exact ⟨Set.mem_insert .., hup, hfit⟩
    · obtain ⟨h1, h2, h3⟩ := hold τ c hτ hne hc
      exact ⟨Set.mem_insert_of_mem _ h1, h2, h3⟩
  · intro c hc
    rcases Set.mem_insert_iff.1 hc with rfl | hc
    · rw [hup]; exact ⟨hσ.mono (Set.subset_insert ..), hslot⟩
    · obtain ⟨h1, h2⟩ := h.up c hc
      rw [hup' c hc]
      have hne : g.up c ≠ σ := fun he => by rw [he, hfree] at h2; cases h2
      exact ⟨h1.mono (Set.subset_insert ..), by rw [hkeep _ h1 hne]; exact h2⟩
  · exact fun c hc => (Set.mem_insert_iff.1 hc).elim (fun he => by rw [he]; exact hle) fun hc => (h.bounds hs hc).1
  · exact fun c hc => (Set.mem_insert_iff.1 hc).elim (fun he => by rw [he]; exact hlt) fun hc => (h.bounds hs hc).2

/-- Putting the new node `n` between the slot `σ` and the node `d` that hangs there. -/
theorem splice {d : Nat} (h : Linked w g L) (hn : n ∉ L) (hσ : Live L σ) (hd : g.slot σ = some d)
    (hslot : g'.slot σ = some n) (hbit : g'.bit n b = some d) (hbit' : g'.bit n (!b) = none)
    (hkeep : ∀ τ, Live L τ → τ ≠ σ → g'.slot τ = g.slot τ)
    (hup : g'.up n = σ) (hupd : g'.up d = .bit n b) (hup' : ∀ c ∈ L, c ≠ d → g'.up c = g.up c)
    (hs : SamePrefix g g' L) (hfit : g'.Fits w n σ) (hfitd : g'.Fits w d (.bit n b))
    (hle : g'.cidr n ≤ w (g'.fam n)) (hlt : g'.key n < 2 ^ w (g'.fam n)) :
    Linked w g' (insert n L) := by
  obtain ⟨hdL, hdup, -⟩ := h.down σ d hσ hd
  have hsub : L ⊆ insert n L := Set.subset_insert ..
  refine ⟨?_, ?_, ?_, ?_⟩
  · intro τ c hτ hc
    -- the slots of the new node, the rewritten slot, and the others
    by_cases hτn : ∃ b', τ = .bit n b'
    · obtain ⟨b', rfl⟩ := hτn
      by_cases hb : b' = b
      · subst hb
        rw [Forest.slot, hbit] at hc
        obtain rfl := Option.some.inj hc
        exact ⟨hsub hdL, hupd, hfitd⟩
      · rw [Forest.slot, show b' = !b by cases b <;> cases b' <;> simp_all, hbit'] at hc; cases hc
    have hτL : Live L τ := by
      cases τ with
      | root i => trivial
      | bit p b' => exact (Set.mem_insert_iff.1 hτ).resolve_left fun hp => hτn ⟨b', by rw [hp]⟩
    by_cases hne : τ = σ
    · subst hne
      rw [hslot] at hc
      obtain rfl := Option.some.inj hc
      exact ⟨Set.mem_insert .., hup, hfit⟩
    · rw [hkeep τ hτL hne] at hc
      obtain ⟨hcL, hcu, hcf⟩ := h.down τ c hτL hc
      have hcd : c ≠ d := fun hcd => hne (by rw [← hcu, hcd, hdup])
      exact ⟨hsub hcL, (hup' c hcL hcd).trans hcu, fits_congr hs hτL hcL hcf⟩
  · intro c hc
    rcases Set.mem_insert_iff.1 hc with rfl | hc
    · rw [hup]; exact ⟨hσ.mono hsub, hslot⟩
    by_cases hcd : c = d
    · subst hcd; rw [hupd]; exact ⟨Set.mem_insert .., hbit⟩
    · obtain ⟨h1, h2⟩ := h.up c hc
      rw [hup' c hc hcd]
      have hne : g.up c ≠ σ := fun he => hcd (by rw [he, hd] at h2; exact (Option.some.inj h2).symm)
      exact ⟨h1.mono hsub, by rw [hkeep _ h1 hne]; exact h2⟩
  · exact fun c hc => (Set.mem_insert_iff.1 hc).elim (fun he => by rw [he]; exact hle) fun hc => (h.bounds hs hc).1
  · exact fun c hc => (Set.mem_insert_iff.1 hc).elim (fun he => by rw [he]; exact hlt) fun hc => (h.bounds hs hc).2

/-- A node that hangs below a node of the slot also fits the slot. -/
theorem Fits.up (hτ : g.Fits w p τ) (hc : g.Fits w c (.bit p b)) : g.Fits w c τ := by
  obtain ⟨hfam, hlt, hag, -⟩ := hc
  cases τ with
  | root i => exact hfam.trans hτ
  | bit q d =>
    obtain ⟨hpf, hplt, hpag, hside⟩ := hτ
    rw [hpf] at hag
    exact ⟨hfam.trans hpf, by omega, hpag.trans (hag.mono (by omega)), by rw [← hag.msb_eq hplt]; exact hside⟩

/-- Taking out a node `p` with at most one child, which takes its place. -/
theorem unlink (h : Linked w g L) (hp : p ∈ L) (o : Option Nat)
    (ho : ∀ c, o = some c → ∃ b, g.bit p b = some c) (hone : ∀ b c, g.bit p b = some c → o = some c)
    (hslot : g'.slot (g.up p) = o)
    (hkeep : ∀ τ, Live (L \ {p}) τ → τ ≠ g.up p → g'.slot τ = g.slot τ)
    (hupc : ∀ c, o = some c → g'.up c = g.up p)
    (hup' : ∀ c ∈ L, c ≠ p → o ≠ some c → g'.up c = g.up c) (hs : SamePrefix g g' L) :
    Linked w g' (L \ {p}) := by
  obtain ⟨hlive, hpslot⟩ := h.up p hp
  obtain ⟨-, -, hfit⟩ := h.down _ _ hlive hpslot
  have hsub : L \ {p} ⊆ L := fun _ hc => hc.1
  -- the slot of `p` is not one of `p` itself, the prefixes along it being shorter
  have hself : ∀ b, g.up p ≠ .bit p b := by
    intro b he
    rw [he] at hfit
    exact absurd hfit.2.1 (lt_irrefl _)
  have hlive' : Live (L \ {p}) (g.up p) := by
    cases hu : g.up p with
    | root i => trivial
    | bit q b =>
      rw [hu] at hlive
      exact ⟨hlive, fun he => hself b (by rw [hu, Set.mem_singleton_iff.1 he])⟩
  have hchild : ∀ c, o = some c → c ∈ L ∧ c ≠ p ∧ g.Fits w c (g.up p) := by
    intro c hc
    obtain ⟨b, hb⟩ := ho c hc
    obtain ⟨hcL, -, hcf⟩ := h.child hp hb
    exact ⟨hcL, fun he => by rw [he] at hcf; exact absurd hcf.2.1 (lt_irrefl _), Fits.up hfit hcf⟩
  refine ⟨?_, ?_, ?_, ?_⟩
  · intro τ c hτ hc
    have hτL := hτ.mono hsub
    by_cases hne : τ = g.up p
    · subst hne
      rw [hslot] at hc
      obtain ⟨hcL, hcp, hcf⟩ := hchild c hc
      exact ⟨⟨hcL, hcp⟩, hupc c hc, fits_congr hs hτL hcL hcf⟩
    · rw [hkeep τ hτ hne] at hc
      obtain ⟨hcL, hcu, hcf⟩ := h.down τ c hτL hc
      have hcp : c ≠ p := fun he => hne (by rw [← hcu, he])
      have hco : o ≠ some c := by
        intro he
        obtain ⟨b, hb⟩ := ho c he
        rw [(h.child hp hb).2.1] at hcu
        rw [← hcu] at hτ
        exact hτ.2 rfl
      exact ⟨⟨hcL, hcp⟩, (hup' c hcL hcp hco).trans hcu, fits_congr hs hτL hcL hcf⟩
  · rintro c ⟨hc, hcp⟩
    by_cases hco : o = some c
    · rw [hupc c hco]; exact ⟨hlive', hslot.trans hco⟩
    · obtain ⟨h1, h2⟩ := h.up c hc
      rw [hup' c hc hcp hco]
      have hne : g.up c ≠ g.up p := fun he => hcp (by rw [he, hpslot] at h2; exact (Option.some.inj h2).symm)
      have hl : Live (L \ {p}) (g.up c) := by
        cases hu : g.up c with
        | root i => trivial
        | bit q b =>
          rw [hu] at h1 h2
          refine ⟨h1, fun he => hco (hone b c ?_)⟩
          rw [← Set.mem_singleton_iff.1 he]; exact h2
      exact ⟨hl, by rw [hkeep _ hl hne]; exact h2⟩
  · exact fun c hc => (h.bounds hs hc.1).1
  · exact fun c hc => (h.bounds hs hc.1).2

end Linked

/-! ### Reading a walk -/

section Walk
variable {T : PrefixTable ι P}

/-- The forest lists the prefixes of the table. -/
def Reads (w : ι → Nat) (g : Forest ι P) (L : Set Nat) (T : PrefixTable ι P) : Prop :=
  ∀ i x c q, T i x c = some q ↔ (i, x, c, q) ∈ g.entries w L

variable {i : ι}

theorem Reads.none_of (hr : Reads w g L T) {k : Nat}
    (h : ∀ a ∈ L, g.fam a = i → g.cidr a = k → g.Matches w a x → g.val a = none) :
    T i (mask (w i) k x) k = none := by
  cases hT : T i (mask (w i) k x) k with
  | none => rfl
  | some q =>
    obtain ⟨a, ha, hf, hm, hc, hv⟩ := (hr ..).1 hT
    simp only at hf hm hc hv
    have hmatch : g.Matches w a x := by
      rw [Forest.Matches, ← mask_eq_iff, hm, hf, hc]
    rw [h a ha hf hc hmatch] at hv
    cases hv

/-- No linked node with a value contains `x`. -/
theorem Reads.longest_eq_none (hr : Reads w g L T)
    (h : ∀ a ∈ L, g.fam a = i → g.Matches w a x → g.val a = none) : T.longest w i x = none :=
  PrefixTable.search_eq_none fun _ _ => hr.none_of fun a ha hf _ hm => h a ha hf hm

/-- `p` has the longest prefix with a value among the linked nodes that contain `x`. -/
theorem Reads.longest_eq_some (hr : Reads w g L T) (hl : Linked w g L) (hp : p ∈ L) (hf : g.fam p = i)
    (hm : g.Matches w p x) {q : P} (hv : g.val p = some q)
    (h : ∀ a ∈ L, g.fam a = i → g.Matches w a x → g.val a ≠ none → g.cidr a ≤ g.cidr p) :
    T.longest w i x = some q := by
  refine PrefixTable.search_eq_some (by rw [← hf]; exact hl.le p hp) ((hr ..).2 ⟨p, hp, hf, ?_, rfl, hv⟩) ?_
  · show mask (w (g.fam p)) (g.cidr p) (g.key p) = mask (w i) (g.cidr p) x
    rw [hf, mask_eq_iff, ← hf]; exact hm
  · intro k hk _
    refine hr.none_of fun a ha hfa hc hma => ?_
    by_contra hne
    have hle := h a ha hfa hma hne
    rw [hc] at hle
    exact absurd hk (Nat.not_lt.2 hle)

theorem Reads.congr (hr : Reads w g L T) (hs : SamePrefix g g' L) (hv : ∀ c ∈ L, g'.val c = g.val c) :
    Reads w g' L T := by
  intro i x c q
  rw [hr i x c q]
  refine exists_congr fun p => and_congr_right fun hp => ?_
  obtain ⟨e1, e2, e3⟩ := hs p hp
  rw [e1, e2, e3, hv p hp]

/-- Nodes without a value make no difference. -/
theorem Reads.of_val (hr : Reads w g L T) {L' : Set Nat} (h : ∀ c, g.val c ≠ none → (c ∈ L' ↔ c ∈ L)) :
    Reads w g L' T := by
  intro i x c q
  rw [hr i x c q]
  refine exists_congr fun p => ⟨?_, ?_⟩
  · rintro ⟨hp, h1, h2, h3, h4⟩
    exact ⟨(h p (by rw [h4]; exact Option.some_ne_none _)).2 hp, h1, h2, h3, h4⟩
  · rintro ⟨hp, h1, h2, h3, h4⟩
    exact ⟨(h p (by rw [h4]; exact Option.some_ne_none _)).1 hp, h1, h2, h3, h4⟩

/-- Node `p`, new or not, gets the value `q`; no other node has its prefix. -/
theorem Reads.insert [DecidableEq ι] {q : P} {L' : Set Nat} (hr : Reads w g L T)
    (hL : ∀ a, a ≠ p → (a ∈ L' ↔ a ∈ L)) (hs : SamePrefix g g' L) (hv : ∀ a ∈ L, a ≠ p → g'.val a = g.val a)
    (hp : p ∈ L') (hpv : g'.val p = some q) (hf : g'.fam p = i)
    (huniq : ∀ a ∈ L', g'.val a ≠ none → g'.fam a = i → g'.cidr a = g'.cidr p → g'.Matches w a (g'.key p) →
      a = p) :
    Reads w g' L' (T.insert i (mask (w i) (g'.cidr p) (g'.key p)) (g'.cidr p) q) := by
  intro i' x c q'
  rw [PrefixTable.insert_eq_some, hr i' x c q']
  constructor
  · rintro (⟨rfl, rfl, rfl, rfl⟩ | ⟨hne, a, ha, h1, h2, h3, h4⟩)
    · exact ⟨p, hp, hf, by rw [hf], rfl, hpv⟩
    · simp only at h1 h2 h3 h4
      obtain ⟨e1, e2, e3⟩ := hs a ha
      rw [← e1] at h1 h2
      rw [← e2, ← e3] at h2
      rw [← e2] at h3
      have hap : a ≠ p := fun hap => hne (by
        subst hap
        rw [hf] at h1 h2
        exact ⟨h1.symm, h2.symm, h3.symm⟩)
      exact ⟨a, (hL a hap).2 ha, h1, h2, h3, (hv a ha hap).trans h4⟩
  · rintro ⟨a, ha, h1, h2, h3, h4⟩
    simp only at h1 h2 h3 h4
    by_cases hap : a = p
    · subst hap
      rw [hf] at h1 h2
      rw [hpv] at h4
      exact .inl ⟨h1.symm, by rw [← h2], h3.symm, (Option.some.inj h4).symm⟩
    · have haL := (hL a hap).1 ha
      refine .inr ⟨?_, a, haL, ?_⟩
      · rintro ⟨rfl, rfl, rfl⟩
        refine hap (huniq a ha (by rw [h4]; exact Option.some_ne_none _) h1 h3 ?_)
        rw [h1, h3] at h2
        rw [Forest.Matches, h1, h3]
        exact mask_eq_iff.1 h2
      · obtain ⟨e1, e2, e3⟩ := hs a haL
        simp only [← e1, ← e2, ← e3, ← hv a haL hap]
        exact ⟨h1, h2, h3, h4⟩

end Walk
end PrefixForest
