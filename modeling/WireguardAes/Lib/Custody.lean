import Mathlib.Data.List.Nodup
import Mathlib.Logic.Function.Basic

/-!
# Things that are in one place at a time

`f k` lists what is held at the place `k`. `Exclusive f`: nothing is held twice, at one place or at
two. `Custody f all`: besides, the things that are held are those of `all`. Each change to such a
state is a move between two places, or something enters or leaves (`Custody.move`, `Custody.enter`,
`Custody.leave`). Numbers that are given out in order are new when they enter (`Numbered`).
-/

open Function (update update_self update_of_ne)

variable {κ α : Type}

structure Exclusive (f : κ → List α) : Prop where
  nodup : ∀ k, (f k).Nodup
  eq_of_mem : ∀ k k' x, x ∈ f k → x ∈ f k' → k = k'

structure Custody (f : κ → List α) (all : α → Prop) : Prop extends Exclusive f where
  covers : ∀ x, all x ↔ ∃ k, x ∈ f k

variable {f : κ → List α} {all all' : α → Prop} {a b : κ} {xs xa xb : List α}

theorem Exclusive.of_nil (h : ∀ k, f k = []) : Exclusive f := by
  refine ⟨fun k => ?_, fun k k' x hx => ?_⟩
  · rw [h]
    exact List.nodup_nil
  · rw [h] at hx
    cases hx

namespace Custody

theorem of_nil (h : ∀ k, f k = []) (hall : ∀ x, ¬ all x) : Custody f all := by
  refine ⟨.of_nil h, fun x => iff_of_false (hall x) ?_⟩
  rintro ⟨k, hk⟩
  rw [h] at hk
  cases hk

theorem existsUnique (h : Custody f all) {x : α} (hx : all x) : ∃! k, x ∈ f k := by
  obtain ⟨k, hk⟩ := (h.covers x).mp hx
  exact ⟨k, hk, fun k' hk' => h.eq_of_mem k' k x hk' hk⟩

theorem mem (h : Custody f all) {k : κ} {x : α} (hx : x ∈ f k) : all x := (h.covers x).mpr ⟨k, hx⟩

theorem all_congr (h : Custody f all) (hall : ∀ x, all' x ↔ all x) : Custody f all' :=
  ⟨h.toExclusive, fun x => (hall x).trans (h.covers x)⟩

end Custody

theorem Exclusive.nodup_append (h : Exclusive f) (hab : a ≠ b) : (f a ++ f b).Nodup := by
  refine List.nodup_append'.mpr ⟨h.nodup a, h.nodup b, fun x ha hb => ?_⟩
  exact hab (h.eq_of_mem a b x ha hb)

variable [DecidableEq κ]

/-- What is held after `a` holds `xa` is held at `a`, or elsewhere and unchanged. -/
theorem mem_update_iff {k : κ} {x : α} : x ∈ update f a xa k ↔ k = a ∧ x ∈ xa ∨ k ≠ a ∧ x ∈ f k := by
  by_cases hk : k = a
  · subst hk
    rw [update_self]
    simp only [true_and, ne_eq, not_true_eq_false, false_and, or_false]
  · rw [update_of_ne hk]
    simp only [hk, false_and, false_or, ne_eq, not_false_eq_true, true_and]

namespace Exclusive

/-- The place `a` holds other things, which no other place holds. -/
theorem update (h : Exclusive f) (hxa : xa.Nodup) (hnew : ∀ x ∈ xa, ∀ k, k ≠ a → x ∉ f k) :
    Exclusive (update f a xa) := by
  refine ⟨fun k => ?_, fun k k' x hx hx' => ?_⟩
  · by_cases hk : k = a
    · subst hk
      rw [update_self]
      exact hxa
    · rw [update_of_ne hk]
      exact h.nodup k
  · rw [mem_update_iff] at hx hx'
    rcases hx with ⟨hk, hx⟩ | ⟨hk, hx⟩ <;> rcases hx' with ⟨hk', hx'⟩ | ⟨hk', hx'⟩
    · exact hk.trans hk'.symm
    · exact absurd hx' (hnew x hx k' hk')
    · exact absurd hx (hnew x hx' k hk)
    · exact h.eq_of_mem k k' x hx hx'

/-- The place `a` holds less. -/
theorem sublist (h : Exclusive f) (hsub : xa.Sublist (f a)) : Exclusive (Function.update f a xa) :=
  h.update (hsub.nodup (h.nodup a)) fun x hx k hk hxk => hk (h.eq_of_mem k a x hxk (hsub.subset hx))

/-- New things come to `a`. -/
theorem enter (h : Exclusive f) (hxs : xs.Nodup) (hnew : ∀ x ∈ xs, ∀ k, x ∉ f k) (hperm : xa.Perm (xs ++ f a)) :
    Exclusive (Function.update f a xa) := by
  refine h.update ?_ fun x hx k hk hxk => ?_
  · exact hperm.nodup_iff.mpr (List.nodup_append'.mpr ⟨hxs, h.nodup a, fun x hx => hnew x hx a⟩)
  · rcases List.mem_append.mp (hperm.mem_iff.mp hx) with hx | hx
    · exact hnew x hx k hxk
    · exact hk (h.eq_of_mem k a x hxk hx)

/-- The things at `a` and `b` are distributed anew between the two. -/
theorem move (h : Exclusive f) (hab : a ≠ b) (hperm : (xa ++ xb).Perm (f a ++ f b)) :
    Exclusive (Function.update (Function.update f a xa) b xb) := by
  obtain ⟨hna, hnb, hdis⟩ := List.nodup_append'.mp (hperm.nodup_iff.mpr (h.nodup_append hab))
  have hback : ∀ x, x ∈ xa ∨ x ∈ xb → ∀ k, k ≠ a → k ≠ b → x ∉ f k := by
    intro x hx k hka hkb hxk
    rw [← List.mem_append, hperm.mem_iff, List.mem_append] at hx
    rcases hx with hx | hx
    · exact hka (h.eq_of_mem k a x hxk hx)
    · exact hkb (h.eq_of_mem k b x hxk hx)
  -- with `b` emptied first, what comes to `a` is new to the others
  have hempty : Exclusive (Function.update (Function.update f b []) a xa) := by
    refine (h.sublist (List.nil_sublist _)).update hna fun x hx k hka hxk => ?_
    rcases mem_update_iff.mp hxk with ⟨-, hxk⟩ | ⟨hkb, hxk⟩
    · cases hxk
    · exact hback x (.inl hx) k hka hkb hxk
  rw [Function.update_comm hab.symm] at hempty
  have hfull := hempty.update (a := b) hnb fun x hx k hkb hxk => by
    rw [update_of_ne hkb] at hxk
    rcases mem_update_iff.mp hxk with ⟨-, hxk⟩ | ⟨hka, hxk⟩
    · exact hdis hxk hx
    · exact hback x (.inr hx) k hka hkb hxk
  rwa [Function.update_idem] at hfull

end Exclusive

namespace Custody

theorem move (h : Custody f all) (hab : a ≠ b) (hperm : (xa ++ xb).Perm (f a ++ f b)) :
    Custody (update (update f a xa) b xb) all := by
  refine ⟨h.toExclusive.move hab hperm, fun x => (h.covers x).trans ?_⟩
  have hmem : x ∈ xa ∨ x ∈ xb ↔ x ∈ f a ∨ x ∈ f b := by
    rw [← List.mem_append, hperm.mem_iff, List.mem_append]
  constructor
  · rintro ⟨k, hk⟩
    by_cases hkab : k = a ∨ k = b
    · have hx : x ∈ f a ∨ x ∈ f b := by
        rcases hkab with rfl | rfl
        exacts [.inl hk, .inr hk]
      rcases hmem.mpr hx with hx | hx
      · exact ⟨a, mem_update_iff.mpr (.inr ⟨hab, mem_update_iff.mpr (.inl ⟨rfl, hx⟩)⟩)⟩
      · exact ⟨b, mem_update_iff.mpr (.inl ⟨rfl, hx⟩)⟩
    · rw [not_or] at hkab
      exact ⟨k, mem_update_iff.mpr (.inr ⟨hkab.2, mem_update_iff.mpr (.inr ⟨hkab.1, hk⟩)⟩)⟩
  · rintro ⟨k, hk⟩
    rcases mem_update_iff.mp hk with ⟨-, hx⟩ | ⟨-, hk⟩
    · rcases hmem.mp (.inr hx) with hx | hx
      exacts [⟨a, hx⟩, ⟨b, hx⟩]
    · rcases mem_update_iff.mp hk with ⟨-, hx⟩ | ⟨-, hk⟩
      · rcases hmem.mp (.inl hx) with hx | hx
        exacts [⟨a, hx⟩, ⟨b, hx⟩]
      · exact ⟨k, hk⟩

theorem perm (h : Custody f all) (hperm : xa.Perm (f a)) : Custody (update f a xa) all := by
  refine ⟨h.update (hperm.nodup_iff.mpr (h.nodup a)) fun x hx k hk hxk => ?_, fun x => (h.covers x).trans ?_⟩
  · exact hk (h.eq_of_mem k a x hxk (hperm.mem_iff.mp hx))
  · refine exists_congr fun k => ?_
    rw [mem_update_iff, hperm.mem_iff]
    by_cases hk : k = a
    · simp only [hk, true_and, ne_eq, not_true_eq_false, false_and, or_false]
    · simp only [hk, false_and, false_or, ne_eq, not_false_eq_true, true_and]

theorem enter (h : Custody f all) (hxs : xs.Nodup) (hnew : ∀ x ∈ xs, ¬ all x) (hperm : xa.Perm (xs ++ f a))
    (hall : ∀ x, all' x ↔ all x ∨ x ∈ xs) : Custody (update f a xa) all' := by
  refine ⟨h.toExclusive.enter hxs (fun x hx k hk => hnew x hx (h.mem hk)) hperm, fun x => ?_⟩
  have hmem : x ∈ xa ↔ x ∈ xs ∨ x ∈ f a := hperm.mem_iff.trans List.mem_append
  rw [hall, h.covers]
  constructor
  · rintro (⟨k, hk⟩ | hx)
    · by_cases hka : k = a
      · subst hka
        exact ⟨k, mem_update_iff.mpr (.inl ⟨rfl, hmem.mpr (.inr hk)⟩)⟩
      · exact ⟨k, mem_update_iff.mpr (.inr ⟨hka, hk⟩)⟩
    · exact ⟨a, mem_update_iff.mpr (.inl ⟨rfl, hmem.mpr (.inl hx)⟩)⟩
  · rintro ⟨k, hk⟩
    rcases mem_update_iff.mp hk with ⟨-, hx⟩ | ⟨-, hk⟩
    · rcases hmem.mp hx with hx | hx
      exacts [.inr hx, .inl ⟨a, hx⟩]
    · exact .inl ⟨k, hk⟩

/-- The things of `xs`, which were at `a`, are gone. -/
theorem leave (h : Custody f all) (hperm : (f a).Perm (xs ++ xa)) (hall : ∀ x, all' x ↔ all x ∧ x ∉ xs) :
    Custody (update f a xa) all' := by
  have hmem : ∀ x, x ∈ f a ↔ x ∈ xs ∨ x ∈ xa := fun x => hperm.mem_iff.trans List.mem_append
  obtain ⟨-, hna, hdis⟩ := List.nodup_append'.mp (hperm.nodup_iff.mp (h.nodup a))
  refine ⟨h.update hna fun x hx k hk hxk => ?_, fun x => ?_⟩
  · exact hk (h.eq_of_mem k a x hxk ((hmem x).mpr (.inr hx)))
  rw [hall, h.covers]
  constructor
  · rintro ⟨⟨k, hk⟩, hx⟩
    by_cases hka : k = a
    · subst hka
      exact ⟨k, mem_update_iff.mpr (.inl ⟨rfl, ((hmem x).mp hk).resolve_left hx⟩)⟩
    · exact ⟨k, mem_update_iff.mpr (.inr ⟨hka, hk⟩)⟩
  · rintro ⟨k, hk⟩
    rcases mem_update_iff.mp hk with ⟨rfl, hxa⟩ | ⟨hka, hk⟩
    · exact ⟨⟨k, (hmem x).mpr (.inr hxa)⟩, fun hx => hdis hx hxa⟩
    · exact ⟨⟨k, hk⟩, fun hx => hka (h.eq_of_mem k a x hk ((hmem x).mpr (.inl hx)))⟩

end Custody

/-- The numbers held are below the next one. -/
structure Numbered (f : κ → List Nat) (next : Nat) : Prop extends Exclusive f where
  lt : ∀ k, ∀ n ∈ f k, n < next

namespace Numbered

variable {f : κ → List Nat} {next : Nat} {xa xb : List Nat}

omit [DecidableEq κ] in
theorem of_nil (h : ∀ k, f k = []) : Numbered f next := by
  refine ⟨.of_nil h, fun k n hn => ?_⟩
  rw [h] at hn
  cases hn

theorem sublist (h : Numbered f next) (hsub : xa.Sublist (f a)) : Numbered (update f a xa) next := by
  refine ⟨h.toExclusive.sublist hsub, fun k n hk => ?_⟩
  rcases mem_update_iff.mp hk with ⟨-, hn⟩ | ⟨-, hk⟩
  · exact h.lt a n (hsub.subset hn)
  · exact h.lt k n hk

theorem enter (h : Numbered f next) (hnil : f a = []) : Numbered (update f a [next]) (next + 1) := by
  refine ⟨h.toExclusive.enter (List.nodup_singleton next) ?_ (by rw [hnil]; exact .refl _), fun k n hk => ?_⟩
  · intro n hn k hk
    rw [List.mem_singleton.mp hn] at hk
    exact Nat.lt_irrefl _ (h.lt k _ hk)
  · rcases mem_update_iff.mp hk with ⟨-, hn⟩ | ⟨-, hk⟩
    · rw [List.mem_singleton.mp hn]
      exact Nat.lt_succ_self next
    · exact Nat.lt_succ_of_lt (h.lt k n hk)

theorem move (h : Numbered f next) (hab : a ≠ b) (hperm : (xa ++ xb).Perm (f a ++ f b)) :
    Numbered (update (update f a xa) b xb) next := by
  refine ⟨h.toExclusive.move hab hperm, fun k n hk => ?_⟩
  have hnew : ∀ n, n ∈ xa ∨ n ∈ xb → n < next := by
    intro n hn
    rw [← List.mem_append, hperm.mem_iff, List.mem_append] at hn
    rcases hn with hn | hn
    · exact h.lt a n hn
    · exact h.lt b n hn
  rcases mem_update_iff.mp hk with ⟨-, hn⟩ | ⟨-, hk⟩
  · exact hnew n (.inr hn)
  · rcases mem_update_iff.mp hk with ⟨-, hn⟩ | ⟨-, hk⟩
    · exact hnew n (.inl hn)
    · exact h.lt k n hk

end Numbered
