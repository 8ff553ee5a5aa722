import Mathlib.Data.List.Basic

/-!
# Read sections and grace periods

Sections of readers, numbered in the order in which they begin. A grace period that starts when
`mark` sections have begun is over once those among them that are still active have ended: the
sections that are active then have begun after its start.
-/

structure ReadSections (α : Type) where
  began : Nat
  /-- The sections in progress, with their numbers and what each of them does. -/
  active : List (Nat × α)
  lt_began : ∀ x ∈ active, x.1 < began

namespace ReadSections

variable {α : Type}

theorem forall_mem_modify {l : List (Nat × α)} {p : Nat × α → Prop} (h : ∀ x ∈ l, p x) (i : Nat) {f : α → α}
    (hf : ∀ x, p x → p (x.1, f x.2)) : ∀ x ∈ l.modify i fun x => (x.1, f x.2), p x := by
  intro x hx
  obtain ⟨j, hj⟩ := List.mem_iff_getElem?.mp hx
  rw [List.getElem?_modify, Option.map_eq_map, Option.map_eq_some_iff] at hj
  obtain ⟨y, hy, rfl⟩ := hj
  have hpy := h y (List.mem_of_getElem? hy)
  split
  · exact hf y hpy
  · exact hpy

def empty : ReadSections α := ⟨0, [], fun _ hx => absurd hx List.not_mem_nil⟩

def enter (r : ReadSections α) (a : α) : ReadSections α :=
  ⟨r.began + 1, (r.began, a) :: r.active, by
    intro x hx
    rcases List.mem_cons.mp hx with rfl | hx
    · exact Nat.lt_succ_self _
    · exact Nat.lt_succ_of_lt (r.lt_began x hx)⟩

/-- The `i`-th active section goes on. -/
def modify (r : ReadSections α) (i : Nat) (f : α → α) : ReadSections α :=
  ⟨r.began, r.active.modify i fun x => (x.1, f x.2), forall_mem_modify r.lt_began i fun _ => id⟩

def leave (r : ReadSections α) (i : Nat) : ReadSections α :=
  ⟨r.began, r.active.eraseIdx i, fun x hx => r.lt_began x (List.mem_of_mem_eraseIdx hx)⟩

/-- The sections numbered below `mark` have ended. -/
def GraceOver (r : ReadSections α) (mark : Nat) : Prop := ∀ x ∈ r.active, mark ≤ x.1

instance (r : ReadSections α) (mark : Nat) : Decidable (r.GraceOver mark) :=
  inferInstanceAs (Decidable (∀ x ∈ r.active, mark ≤ x.1))

variable {r : ReadSections α} {p : Nat × α → Prop}

theorem forall_enter (h : ∀ x ∈ r.active, p x) {a : α} (ha : p (r.began, a)) : ∀ x ∈ (r.enter a).active, p x := by
  intro x hx
  rcases List.mem_cons.mp hx with rfl | hx
  · exact ha
  · exact h x hx

theorem forall_leave (h : ∀ x ∈ r.active, p x) (i : Nat) : ∀ x ∈ (r.leave i).active, p x :=
  fun x hx => h x (List.mem_of_mem_eraseIdx hx)

theorem forall_modify (h : ∀ x ∈ r.active, p x) (i : Nat) {f : α → α} (hf : ∀ x, p x → p (x.1, f x.2)) :
    ∀ x ∈ (r.modify i f).active, p x := forall_mem_modify h i hf

end ReadSections
