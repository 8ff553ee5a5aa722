import Mathlib.Data.List.Perm.Basic
import Mathlib.Data.List.Nodup

/-!
# What a function has acquired and released

A ledger lists what was acquired and what was released. `Holds rank l b held`: nothing was acquired
twice, and what was acquired is what is held and what was released. A function that acquires in the
order of some rank is followed step by step with `Holds.acquire` and `Holds.release`; nothing is
left over when the list that is held is empty.
-/

structure Ledger (α : Type) where
  acquired : List α
  released : List α

namespace Ledger

variable {α : Type} {rank : α → Nat} {l : Ledger α} {b : Nat} {r : α} {held held' : List α}

def empty : Ledger α := ⟨[], []⟩

def acquire (l : Ledger α) (r : α) : Ledger α := ⟨r :: l.acquired, l.released⟩

def release (l : Ledger α) (r : α) : Ledger α := ⟨l.acquired, r :: l.released⟩

structure Holds (rank : α → Nat) (l : Ledger α) (b : Nat) (held : List α) : Prop where
  below : ∀ r ∈ l.acquired, rank r < b
  nodup : l.acquired.Nodup
  perm : l.acquired.Perm (held ++ l.released)

namespace Holds

theorem empty : Holds rank (empty : Ledger α) 0 [] := by
  refine ⟨?_, List.nodup_nil, .nil⟩
  rintro r ⟨⟩

theorem mono (h : Holds rank l b held) {b' : Nat} (hb : b ≤ b') : Holds rank l b' held :=
  ⟨fun r hr => Nat.lt_of_lt_of_le (h.below r hr) hb, h.nodup, h.perm⟩

theorem congr (h : Holds rank l b held) (hp : held.Perm held') : Holds rank l b held' :=
  ⟨h.below, h.nodup, h.perm.trans (hp.append_right _)⟩

/-- Something of a higher rank than all before it. -/
theorem acquire (h : Holds rank l b held) (hr : b ≤ rank r) : Holds rank (l.acquire r) (rank r + 1) (r :: held) := by
  refine ⟨fun x hx => ?_, List.nodup_cons.mpr ⟨fun hmem => ?_, h.nodup⟩, h.perm.cons r⟩
  · rcases List.mem_cons.mp hx with rfl | hx
    · exact Nat.lt_succ_self _
    · exact Nat.lt_succ_of_lt (Nat.lt_of_lt_of_le (h.below x hx) hr)
  · exact absurd (h.below r hmem) (Nat.not_lt.mpr hr)

theorem release (h : Holds rank l b (r :: held)) : Holds rank (l.release r) b held :=
  ⟨h.below, h.nodup, h.perm.trans List.perm_middle.symm⟩

/-- Everything has been released, once. -/
theorem settled (h : Holds rank l b []) : l.acquired.Nodup ∧ l.released.Perm l.acquired := ⟨h.nodup, h.perm.symm⟩

/-- Something is left over. -/
theorem not_settled (h : Holds rank l b held) (hne : held ≠ []) : ¬ l.released.Perm l.acquired := by
  intro hp
  have hlen := hp.length_eq.trans h.perm.length_eq
  rw [List.length_append] at hlen
  exact hne (List.length_eq_zero_iff.mp (by omega))

end Holds
end Ledger
