import WireguardAes.Lib.BitPrefix
import Mathlib.Data.Set.Basic

/-!
# Prefix tables and longest-prefix match

A table maps a family, a masked address and a length to a value; `w i` is the address width of
family `i`. `longest` answers a query with the value of the longest prefix that contains it.
-/

open BitPrefix

/-- The value of each prefix: family, masked address, length. -/
def PrefixTable (ι P : Type) : Type := ι → Nat → Nat → Option P

namespace PrefixTable

variable {ι P : Type} {w : ι → Nat} {T : PrefixTable ι P}
variable {i : ι} {x c : Nat} {q : P}

def empty : PrefixTable ι P := fun _ _ _ => none

def insert [DecidableEq ι] (T : PrefixTable ι P) (i : ι) (x c : Nat) (q : P) : PrefixTable ι P :=
  fun i' x' c' => if i' = i ∧ x' = x ∧ c' = c then some q else T i' x' c'

/-- The table without the prefixes of `q`. -/
def forget [DecidableEq P] (T : PrefixTable ι P) (q : P) : PrefixTable ι P :=
  fun i x c => (T i x c).filter (· ≠ q)

/-- The value of the longest prefix of length at most `c` that contains `x`. -/
def search (w : ι → Nat) (T : PrefixTable ι P) (i : ι) (x : Nat) : Nat → Option P
  | 0 => T i (mask (w i) 0 x) 0
  | c + 1 => (T i (mask (w i) (c + 1) x) (c + 1)).or (search w T i x c)

def longest (w : ι → Nat) (T : PrefixTable ι P) (i : ι) (x : Nat) : Option P := search w T i x (w i)

theorem search_eq_none (h : ∀ c' ≤ c, T i (mask (w i) c' x) c' = none) :
    search w T i x c = none := by
  induction c with
  | zero => exact h 0 le_rfl
  | succ c ih => rw [search, h (c + 1) le_rfl, Option.none_or, ih fun c' hc' => h c' (by omega)]

theorem search_eq_some {n : Nat} (hcn : c ≤ n) (hc : T i (mask (w i) c x) c = some q)
    (h : ∀ c', c < c' → c' ≤ n → T i (mask (w i) c' x) c' = none) : search w T i x n = some q := by
  induction n with
  | zero =>
    obtain rfl : c = 0 := by omega
    exact hc
  | succ n ih =>
    rw [search]
    rcases Nat.lt_or_ge n c with hlt | hge
    · obtain rfl : c = n + 1 := by omega
      rw [hc, Option.some_or]
    · rw [h (n + 1) (by omega) le_rfl, Option.none_or]
      exact ih hge fun c' h1 h2 => h c' h1 (by omega)

/-- Tables whose values stand for the same thing answer with the same thing. -/
theorem map_longest {P' Q : Type} {T' : PrefixTable ι P'} {g : P → Q} {g' : P' → Q}
    (h : ∀ x c, (T i x c).map g = (T' i x c).map g') (x : Nat) :
    (T.longest w i x).map g = (T'.longest w i x).map g' := by
  have hsearch : ∀ c, (T.search w i x c).map g = (T'.search w i x c).map g' := by
    intro c
    induction c with
    | zero => exact h _ 0
    | succ c ih => rw [search, search, Option.map_or, Option.map_or, h, ih]
  exact hsearch (w i)

theorem forget_eq_some [DecidableEq P] {r : P} :
    T.forget q i x c = some r ↔ T i x c = some r ∧ r ≠ q := by
  simp [forget, Option.filter_eq_some_iff]

theorem insert_eq_some [DecidableEq ι] {i' : ι} {x' c' : Nat} {r : P} :
    T.insert i x c q i' x' c' = some r ↔
      (i' = i ∧ x' = x ∧ c' = c ∧ r = q) ∨ (¬ (i' = i ∧ x' = x ∧ c' = c) ∧ T i' x' c' = some r) := by
  by_cases h : i' = i ∧ x' = x ∧ c' = c
  · obtain ⟨rfl, rfl, rfl⟩ := h
    simp [insert, eq_comm]
  · simp only [insert, if_neg h]
    tauto

/-! ### Tables from lists -/

section OfList
variable [DecidableEq ι] {l : List (ι × Nat × Nat × P)}

/-- The entries are inserted one after the other. -/
def insertAll (T : PrefixTable ι P) (l : List (ι × Nat × Nat × P)) : PrefixTable ι P :=
  l.foldl (fun T e => T.insert e.1 e.2.1 e.2.2.1 e.2.2.2) T

/-- A prefix keeps its value, or gets that of one of the entries. -/
theorem insertAll_cases (T : PrefixTable ι P) (l : List (ι × Nat × Nat × P)) (i : ι) (x c : Nat) :
    (T.insertAll l i x c = T i x c ∧ ∀ q, (i, x, c, q) ∉ l) ∨ ∃ q, (i, x, c, q) ∈ l ∧ T.insertAll l i x c = some q := by
  induction l generalizing T with
  | nil => exact .inl ⟨rfl, fun q => List.not_mem_nil⟩
  | cons e l ih =>
    obtain ⟨j, y, d, r⟩ := e
    rcases ih (T.insert j y d r) with ⟨hval, hnot⟩ | ⟨q, hq, hval⟩
    · by_cases hkey : i = j ∧ x = y ∧ c = d
      · obtain ⟨rfl, rfl, rfl⟩ := hkey
        exact .inr ⟨r, List.mem_cons_self, hval.trans (if_pos ⟨rfl, rfl, rfl⟩)⟩
      · refine .inl ⟨hval.trans (if_neg hkey), fun q hq => ?_⟩
        rcases List.mem_cons.mp hq with heq | hq
        · cases heq
          exact hkey ⟨rfl, rfl, rfl⟩
        · exact hnot q hq
    · exact .inr ⟨q, List.mem_cons_of_mem _ hq, hval⟩

/-- A table is what its entries make of the empty one, in whatever order they are inserted. -/
theorem insertAll_empty (h : ∀ i x c q, (i, x, c, q) ∈ l ↔ T i x c = some q) : insertAll empty l = T := by
  funext i x c
  rcases insertAll_cases empty l i x c with ⟨hval, hnot⟩ | ⟨q, hq, hval⟩
  · rw [hval]
    refine (Option.eq_none_iff_forall_ne_some.mpr fun q hq => ?_).symm
    exact hnot q ((h i x c q).mpr hq)
  · rw [hval, (h i x c q).mp hq]

end OfList

end PrefixTable
