import Mathlib.Data.List.Nodup

/-!
# Cursors into a list

A walk over a list that is left and taken up again behind the last element it has finished, or at an
element it has not finished, while elements are appended to the list and taken out of it.
-/

namespace ListCursor

variable {α : Type} {c p q : α} {pre post l : List α}

/-- A walk whose last finished element is `cur` goes on with `p`. -/
def Follows (l : List α) (cur : Option α) (p : α) : Prop := ∃ pre post, l = pre ++ p :: post ∧ pre.getLast? = cur

theorem Follows.append {cur : Option α} (h : Follows l cur p) (ext : List α) : Follows (l ++ ext) cur p := by
  obtain ⟨pre, post, rfl, hc⟩ := h
  exact ⟨pre, post ++ ext, by rw [List.append_assoc, List.cons_append], hc⟩

variable [DecidableEq α]

/-- What comes behind `c`. -/
def after (c : α) : List α → List α
  | [] => []
  | a :: l => if a = c then l else after c l

/-- The list from `c` on. -/
def startingAt (c : α) : List α → List α
  | [] => []
  | a :: l => if a = c then a :: l else startingAt c l

/-- What is left of a walk whose last finished element is `c`. -/
def resume (c : Option α) (l : List α) : List α :=
  match c with
  | none => l
  | some c => after c l

theorem after_append (h : c ∉ pre) : after c (pre ++ c :: post) = post := by
  induction pre with
  | nil => simp only [List.nil_append, after, if_pos]
  | cons a pre ih =>
    simp only [List.mem_cons, not_or] at h
    simp only [List.cons_append, after, if_neg (Ne.symm h.1), ih h.2]

theorem startingAt_append (h : c ∉ pre) : startingAt c (pre ++ c :: post) = c :: post := by
  induction pre with
  | nil => simp only [List.nil_append, startingAt, if_pos]
  | cons a pre ih =>
    simp only [List.mem_cons, not_or] at h
    simp only [List.cons_append, startingAt, if_neg (Ne.symm h.1), ih h.2]

/-- An element of a list without duplicates is found again. -/
theorem startingAt_of_nodup (h : (pre ++ c :: post).Nodup) : startingAt c (pre ++ c :: post) = c :: post := by
  refine startingAt_append fun hc => ?_
  exact (List.nodup_append.mp h).2.2 c hc c List.mem_cons_self rfl

theorem startingAt_split (h : c ∈ l) : ∃ pre post, l = pre ++ c :: post ∧ startingAt c l = c :: post := by
  induction l with
  | nil => cases h
  | cons a l ih =>
    by_cases ha : a = c
    · subst ha
      exact ⟨[], l, rfl, if_pos rfl⟩
    · obtain ⟨pre, post, hl, hs⟩ := ih (List.mem_of_ne_of_mem (Ne.symm ha) h)
      refine ⟨a :: pre, post, by rw [hl, List.cons_append], ?_⟩
      rw [startingAt, if_neg ha, hs]

theorem mem_of_mem_startingAt (h : p ∈ startingAt c l) : p ∈ l := by
  induction l with
  | nil => cases h
  | cons a l ih =>
    unfold startingAt at h
    split at h
    · exact h
    · exact List.mem_cons_of_mem a (ih h)

theorem resume_append (h : (pre ++ post).Nodup) : resume pre.getLast? (pre ++ post) = post := by
  rcases pre.eq_nil_or_concat with rfl | ⟨pre, c, rfl⟩
  · rfl
  · rw [List.concat_eq_append] at h ⊢
    rw [List.getLast?_concat, List.append_assoc, List.singleton_append]
    rw [List.append_assoc, List.singleton_append] at h
    exact after_append fun hc => (List.nodup_append.mp h).2.2 c hc c List.mem_cons_self rfl

/-- A cursor into the list splits it. -/
theorem exists_split {cur : Option α} (hl : l.Nodup) (h : ∀ c, cur = some c → c ∈ l) :
    ∃ pre post, l = pre ++ post ∧ pre.getLast? = cur ∧ resume cur l = post := by
  rcases cur with - | c
  · exact ⟨[], l, rfl, rfl, rfl⟩
  · obtain ⟨pre, post, rfl⟩ := List.append_of_mem (h c rfl)
    have hsplit : pre ++ c :: post = (pre ++ [c]) ++ post := by rw [List.append_assoc, List.singleton_append]
    have hlast : (pre ++ [c]).getLast? = some c := List.getLast?_concat
    rw [hsplit] at hl ⊢
    exact ⟨pre ++ [c], post, rfl, hlast, hlast ▸ resume_append hl⟩

namespace Follows

variable {cur : Option α}

/-- Taking out another element than the two at the cursor. -/
theorem erase (h : Follows l cur p) (hp : q ≠ p) (hc : cur ≠ some q) : Follows (l.erase q) cur p := by
  obtain ⟨pre, post, rfl, rfl⟩ := h
  by_cases hq : q ∈ pre
  · refine ⟨pre.erase q, post, List.erase_append_left _ hq, ?_⟩
    rcases pre.eq_nil_or_concat with rfl | ⟨pre, c, rfl⟩
    · rfl
    · rw [List.concat_eq_append] at hq hc ⊢
      rw [List.getLast?_concat] at hc ⊢
      have hne : q ≠ c := fun h => hc (by rw [h])
      have hin : q ∈ pre := by
        rcases List.mem_append.mp hq with hq | hq
        · exact hq
        · exact absurd (List.mem_singleton.mp hq) hne
      rw [List.erase_append_left _ hin, List.getLast?_concat]
  · refine ⟨pre, post.erase q, ?_, rfl⟩
    rw [List.erase_append_right _ hq, List.erase_cons_tail (by simpa using Ne.symm hp)]

theorem resume (h : Follows l cur p) (hl : l.Nodup) : ∃ post, ListCursor.resume cur l = p :: post := by
  obtain ⟨pre, post, rfl, rfl⟩ := h
  exact ⟨post, resume_append hl⟩

end Follows
end ListCursor
