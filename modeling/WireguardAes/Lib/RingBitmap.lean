import Mathlib.Data.Nat.ModEq
import Mathlib.Data.Set.Insert
import Mathlib.Tactic.Ring
import Mathlib.Tactic.Linarith

/-!
# Sets on a moving window, stored in a ring of words

`Holds N B bit top T`: among the numbers lying in the `N` consecutive words (of `B` numbers each)
that end with the word of `top`, the set bits of the ring are exactly the members of `T`. The word
`t / B` of a number lives in slot `t / B % N` of the ring, so a slot is reused every `N` words.

Nothing is said about numbers outside the window: their slots may hold stale bits. `Holds.advance`
is the reason a moving `top` needs to clear only the slots of the words it passes, `Holds.insert`
records a new member.
-/

namespace RingBitmap

variable {N B : Nat} {bit bit' : Nat → Nat → Bool} {top top' t₀ : Nat} {T : Set Nat}

def Holds (N B : Nat) (bit : Nat → Nat → Bool) (top : Nat) (T : Set Nat) : Prop :=
  ∀ t, t / B ≤ top / B → top / B < t / B + N → (bit (t / B % N) (t % B) = true ↔ t ∈ T)

/-- Two words less than `N` apart do not share a slot. -/
theorem word_eq_of_slot_eq {a b : Nat} (hab : a ≤ b) (hlt : b < a + N) (h : a % N = b % N) : a = b := by
  obtain ⟨d, rfl⟩ := Nat.exists_eq_add_of_le hab
  have hd : d % N = 0 % N := Nat.ModEq.add_left_cancel' a (by simpa [Nat.ModEq] using h.symm)
  rw [Nat.zero_mod, Nat.mod_eq_of_lt (by omega)] at hd
  omega

/-- A number of the window is at most `(N - 1) * B` below `top`. -/
theorem in_window {t : Nat} (hB : 0 < B) (hN : 0 < N) (h : top ≤ t + (N - 1) * B) : top / B < t / B + N := by
  have hdiv : top / B ≤ (t + (N - 1) * B) / B := Nat.div_le_div_right h
  rw [Nat.add_mul_div_right _ _ hB] at hdiv
  omega

/-- Moving `top` up to `top'`: the slots of the words passed (all of them, once `N` words are
passed) are cleared, the others kept. -/
theorem Holds.advance (h : Holds N B bit top T) (hN : 0 < N) (hle : top ≤ top')
    (hT : ∀ t ∈ T, t ≤ top)
    (hclear : ∀ k, 1 ≤ k → k ≤ min (top' / B - top / B) N → ∀ j, bit' ((top / B + k) % N) j = false)
    (hkeep : ∀ i < N, (∀ k, 1 ≤ k → k ≤ min (top' / B - top / B) N → i ≠ (top / B + k) % N) →
      ∀ j, bit' i j = bit i j) :
    Holds N B bit' top' T := by
  intro t htop hwin
  have hdiv : top / B ≤ top' / B := Nat.div_le_div_right hle
  by_cases hold : t / B ≤ top / B
  · -- a word that was already there: no word passed shares its slot
    rw [hkeep _ (Nat.mod_lt _ hN)]
    · exact h t hold (by omega)
    · intro k hk1 hk heq
      have hk2 : k ≤ top' / B - top / B := le_trans hk (min_le_left ..)
      have := word_eq_of_slot_eq (N := N) (a := t / B) (b := top / B + k) (by omega) (by omega) heq
      omega
  · have hnot : t ∉ T := fun ht => hold (Nat.div_le_div_right (hT t ht))
    -- a word passed: its slot is the one of the first pass over it
    set k := (t / B - top / B - 1) % N + 1 with hkdef
    have hkN : k ≤ N := Nat.mod_lt _ hN
    have hk : k ≤ t / B - top / B := by
      have := Nat.mod_le (t / B - top / B - 1) N
      omega
    have hslot : (top / B + k) % N = t / B % N := by
      have hsum : t / B = top / B + 1 + (t / B - top / B - 1) := by omega
      rw [hkdef, ← add_assoc, add_right_comm, Nat.add_mod_mod, ← hsum]
    rw [← hslot, hclear k (by omega) (by omega)]
    simp [hnot]

/-- Setting the bit of a number of the window. -/
theorem Holds.insert (h : Holds N B bit top T) (hle : t₀ / B ≤ top / B) (hwin : top / B < t₀ / B + N)
    (hset : bit' (t₀ / B % N) (t₀ % B) = true)
    (hkeep : ∀ i < N, ∀ j, ¬ (i = t₀ / B % N ∧ j = t₀ % B) → bit' i j = bit i j) :
    Holds N B bit' top (insert t₀ T) := by
  intro t ht hwt
  by_cases heq : t = t₀
  · subst heq; simp [hset]
  rw [hkeep _ (Nat.mod_lt _ (by omega)) _ ?_, h t ht hwt, Set.mem_insert_iff, or_iff_right heq]
  rintro ⟨hslot, hoff⟩
  have hword : t / B = t₀ / B := by
    rcases le_total (t / B) (t₀ / B) with hl | hl
    · exact word_eq_of_slot_eq hl (by omega) hslot
    · exact (word_eq_of_slot_eq hl (by omega) hslot.symm).symm
  exact heq (by rw [← Nat.div_add_mod t B, ← Nat.div_add_mod t₀ B, hword, hoff])

end RingBitmap
