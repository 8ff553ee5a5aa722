import Mathlib.Data.List.Nodup
import Mathlib.Logic.Function.Basic

/-!
# Chains of nodes whose links may be missing

`Linked next missing l`: the nodes `l` stand in a row, each points to the one after it or, as long
as that link is missing, to nothing, and the last one points to nothing. Nodes are appended at the
end before they are linked, links are made in any order, and nodes are taken off the front along
links that are there.
-/

namespace LinkedChain

open Function

variable {ν : Type}

def Adjacent (a b : ν) : List ν → Prop
  | x :: y :: l => (x = a ∧ y = b) ∨ Adjacent a b (y :: l)
  | _ => False

def Linked (next : ν → Option ν) (missing : ν → ν → Prop) : List ν → Prop
  | x :: y :: l => (next x = some y ∨ (next x = none ∧ missing x y)) ∧ Linked next missing (y :: l)
  | [x] => next x = none
  | [] => True

namespace Adjacent

variable {a b b' x : ν} {l : List ν}

theorem mem_tail (h : Adjacent a b (x :: l)) : b ∈ l := by
  induction l generalizing x with
  | nil => exact h.elim
  | cons y l ih =>
    rcases h with ⟨-, rfl⟩ | h
    · exact List.mem_cons_self
    · exact List.mem_cons_of_mem _ (ih h)

theorem mem_left (h : Adjacent a b l) : a ∈ l := by
  induction l with
  | nil => exact h.elim
  | cons x l ih =>
    cases l with
    | nil => exact h.elim
    | cons y l =>
      rcases h with ⟨rfl, -⟩ | h
      · exact List.mem_cons_self
      · exact List.mem_cons_of_mem _ (ih h)

theorem mem_right (h : Adjacent a b l) : b ∈ l := by
  cases l with
  | nil => exact h.elim
  | cons x l => exact List.mem_cons_of_mem _ h.mem_tail

theorem cons (h : Adjacent a b l) (x : ν) : Adjacent a b (x :: l) := by
  cases l with
  | nil => exact h.elim
  | cons y l => exact .inr h

/-- A pair that does not begin with the first node is still there without it. -/
theorem of_cons (h : Adjacent a b (x :: l)) (hx : a ≠ x) : Adjacent a b l := by
  cases l with
  | nil => exact h.elim
  | cons y l =>
    rcases h with ⟨rfl, -⟩ | h
    · exact absurd rfl hx
    · exact h

theorem append (h : Adjacent a b l) (x : ν) : Adjacent a b (l ++ [x]) := by
  induction l with
  | nil => exact h.elim
  | cons y l ih =>
    cases l with
    | nil => exact h.elim
    | cons z l => exact h.imp id ih

theorem last (h : l.getLast? = some a) (x : ν) : Adjacent a x (l ++ [x]) := by
  induction l with
  | nil => cases h
  | cons y l ih =>
    cases l with
    | nil =>
      cases h
      exact .inl ⟨rfl, rfl⟩
    | cons z l => exact .inr (ih (by rwa [List.getLast?_cons_cons] at h))

theorem right_unique (h : Adjacent a b l) (h' : Adjacent a b' l) (hl : l.Nodup) : b = b' := by
  induction l with
  | nil => exact h.elim
  | cons x l ih =>
    cases l with
    | nil => exact h.elim
    | cons y l =>
      obtain ⟨hx, hl'⟩ := List.nodup_cons.mp hl
      rcases h with ⟨rfl, rfl⟩ | h
      · rcases h' with ⟨-, rfl⟩ | h'
        · rfl
        · exact absurd h'.mem_left hx
      · rcases h' with ⟨rfl, -⟩ | h'
        · exact absurd h.mem_left hx
        · exact ih h h' hl'

end Adjacent

namespace Linked

variable {next next' : ν → Option ν} {missing missing' : ν → ν → Prop} {a b x : ν} {l : List ν}

theorem tail (h : Linked next missing (x :: l)) : Linked next missing l := by
  cases l with
  | nil => trivial
  | cons y l => exact h.2

theorem next_first {n : ν} (h : Linked next missing (x :: l)) (hn : next x = some n) : ∃ l', l = n :: l' := by
  cases l with
  | nil => exact absurd (hn.symm.trans h) (by rintro ⟨⟩)
  | cons y l =>
    rcases h.1 with hy | ⟨hy, -⟩
    · rw [hn] at hy
      exact ⟨l, by rw [Option.some.inj hy]⟩
    · exact absurd (hn.symm.trans hy) (by rintro ⟨⟩)

theorem next_last (h : Linked next missing l) (ha : l.getLast? = some a) : next a = none := by
  induction l with
  | nil => cases ha
  | cons x l ih =>
    cases l with
    | nil =>
      cases ha
      exact h
    | cons y l => exact ih h.2 (by rwa [List.getLast?_cons_cons] at ha)

theorem congr (h : Linked next missing l) (hn : ∀ a ∈ l, next' a = next a)
    (hm : ∀ a b, Adjacent a b l → missing a b → missing' a b) : Linked next' missing' l := by
  induction l with
  | nil => trivial
  | cons x l ih =>
    have hx : next' x = next x := hn x List.mem_cons_self
    cases l with
    | nil => exact hx.trans h
    | cons y l =>
      refine ⟨?_, ih h.2 (fun a ha => hn a (List.mem_cons_of_mem _ ha)) fun a b hab => hm a b (hab.cons x)⟩
      rw [hx]
      exact h.1.imp id fun hxy => ⟨hxy.1, hm x y (.inl ⟨rfl, rfl⟩) hxy.2⟩

/-- A node is appended before it is linked. -/
theorem append (h : Linked next missing l) (ha : l.getLast? = some a) (hx : next x = none) (hm : missing a x) :
    Linked next missing (l ++ [x]) := by
  induction l with
  | nil => exact hx
  | cons y l ih =>
    cases l with
    | nil =>
      cases ha
      exact ⟨.inr ⟨h, hm⟩, hx⟩
    | cons z l => exact ⟨h.1, ih h.2 (by rwa [List.getLast?_cons_cons] at ha)⟩

/-- A missing link is made. -/
theorem link [DecidableEq ν] (h : Linked next missing l) (hab : Adjacent a b l) (hl : l.Nodup)
    (hm : ∀ c d, Adjacent c d l → c ≠ a → missing c d → missing' c d) :
    Linked (update next a (some b)) missing' l := by
  induction l with
  | nil => exact hab.elim
  | cons x l ih =>
    cases l with
    | nil => exact hab.elim
    | cons y l =>
      obtain ⟨hx, hl'⟩ := List.nodup_cons.mp hl
      rcases hab with ⟨rfl, rfl⟩ | hab
      · refine ⟨.inl (update_self ..), h.2.congr (fun c hc => ?_) fun c d hcd => ?_⟩
        · exact update_of_ne (ne_of_mem_of_not_mem hc hx) ..
        · exact hm c d (hcd.cons x) (ne_of_mem_of_not_mem hcd.mem_left hx)
      · have hxa : x ≠ a := fun heq => hx (heq ▸ hab.mem_left)
        refine ⟨?_, ih h.2 hab hl' fun c d hcd => hm c d (hcd.cons x)⟩
        rw [update_of_ne hxa]
        exact h.1.imp id fun hxy => ⟨hxy.1, hm x y (.inl ⟨rfl, rfl⟩) hxa hxy.2⟩

end Linked
end LinkedChain
