import Mathlib.Data.List.Basic

/-!
# A memory of byte objects

A pointer is null or names an object and an offset in it, and an access that leaves the object
fails; an access to no bytes asks nothing of its pointer. The local arrays of a call are objects
behind those that exist (`enter`), and are gone when it returns (`leave`). What is read and written
through a pointer to an older object does not depend on them.
-/

structure Address where
  object : Nat
  offset : Nat
deriving DecidableEq

/-- `none` is the null pointer. -/
abbrev Pointer : Type := Option Address

structure ByteMemory where
  objects : List (List UInt8)

namespace ByteMemory

/-- `bs` in place of what `o` has from `k` on. -/
def overwrite (o : List UInt8) (k : Nat) (bs : List UInt8) : List UInt8 := o.take k ++ bs ++ o.drop (k + bs.length)

def read (m : ByteMemory) (p : Pointer) (n : Nat) : Option (List UInt8) :=
  if n = 0 then some []
  else p.bind fun a => m.objects[a.object]?.bind fun o =>
    if a.offset + n ≤ o.length then some ((o.drop a.offset).take n) else none

def write (m : ByteMemory) (p : Pointer) (bs : List UInt8) : Option ByteMemory :=
  if bs = [] then some m
  else p.bind fun a => m.objects[a.object]?.bind fun o =>
    if a.offset + bs.length ≤ o.length then some ⟨m.objects.set a.object (overwrite o a.offset bs)⟩ else none

def memcpy (m : ByteMemory) (dst src : Pointer) (n : Nat) : Option ByteMemory := (m.read src n).bind (m.write dst)

/-- The memory in a call with these local arrays. -/
def enter (m : ByteMemory) (locals : List (List UInt8)) : ByteMemory := ⟨m.objects ++ locals⟩

/-- The memory when only the first `n` objects are left. -/
def leave (m : ByteMemory) (n : Nat) : ByteMemory := ⟨m.objects.take n⟩

/-- The pointer does not point behind the objects of `m`. -/
def Outer (m : ByteMemory) (p : Pointer) : Prop := ∀ a, p = some a → a.object < m.objects.length

variable {m m' : ByteMemory} {p : Pointer} {n : Nat} {bs o : List UInt8}

@[simp] theorem length_overwrite {k : Nat} (h : k + bs.length ≤ o.length) : (overwrite o k bs).length = o.length := by
  simp only [overwrite, List.length_append, List.length_take, List.length_drop]
  omega

theorem overwrite_zero (o bs : List UInt8) : overwrite o 0 bs = bs ++ o.drop bs.length := by
  rw [overwrite, List.take_zero, List.nil_append, Nat.zero_add]

theorem take_overwrite {k : Nat} (h : k ≤ o.length) : (overwrite o k bs).take (k + bs.length) = o.take k ++ bs := by
  have hlen : (o.take k ++ bs).length = k + bs.length := by
    rw [List.length_append, List.length_take_of_le h]
  rw [overwrite, ← hlen, List.take_left]

theorem length_read (h : m.read p n = some bs) : bs.length = n := by
  unfold read at h
  split_ifs at h with h0
  · cases h
    exact h0.symm
  · obtain ⟨a, -, ha⟩ := Option.bind_eq_some_iff.mp h
    obtain ⟨o, -, ho⟩ := Option.bind_eq_some_iff.mp ha
    split at ho
    · cases ho
      rw [List.length_take, List.length_drop]
      omega
    · cases ho

theorem length_write (h : m.write p bs = some m') : m'.objects.length = m.objects.length := by
  unfold write at h
  split at h
  · cases h
    rfl
  · obtain ⟨a, -, ha⟩ := Option.bind_eq_some_iff.mp h
    obtain ⟨o, -, ho⟩ := Option.bind_eq_some_iff.mp ha
    obtain ⟨-, ⟨⟩⟩ := Option.ite_none_right_eq_some.mp ho
    exact List.length_set

theorem outer_of_read (h : m.read p n = some bs) (hn : n ≠ 0) : m.Outer p := by
  rintro a rfl
  rw [read, if_neg hn, Option.bind_some] at h
  obtain ⟨o, ho, -⟩ := Option.bind_eq_some_iff.mp h
  exact (List.getElem?_eq_some_iff.mp ho).1

theorem write_of_read {old : List UInt8} (h : m.read p bs.length = some old) : ∃ m', m.write p bs = some m' := by
  unfold write
  split_ifs with h0
  · exact ⟨m, rfl⟩
  · rw [read, if_neg (fun h => h0 (List.length_eq_zero_iff.mp h))] at h
    obtain ⟨a, ha, hobject⟩ := Option.bind_eq_some_iff.mp h
    obtain ⟨o, ho, hread⟩ := Option.bind_eq_some_iff.mp hobject
    split at hread
    case isTrue hfit =>
      exact ⟨_, by rw [ha, Option.bind_some, ho, Option.bind_some, if_pos hfit]⟩
    · cases hread

theorem ne_none_of_read (h : m.read p n = some bs) (hn : n ≠ 0) : p ≠ none := by
  rintro rfl
  rw [read, if_neg hn] at h
  cases h

theorem read_write_self (h : m.write p bs = some m') : m'.read p bs.length = some bs := by
  unfold write at h
  split_ifs at h with h0
  · rw [h0]
    rfl
  · obtain ⟨a, ha, h⟩ := Option.bind_eq_some_iff.mp h
    obtain ⟨o, ho, h⟩ := Option.bind_eq_some_iff.mp h
    obtain ⟨hfit, ⟨⟩⟩ := Option.ite_none_right_eq_some.mp h
    have hlt := (List.getElem?_eq_some_iff.mp ho).1
    rw [read, if_neg (fun h => h0 (List.length_eq_zero_iff.mp h)), ha, Option.bind_some]
    simp only [List.getElem?_set_self hlt, Option.bind_some, length_overwrite hfit]
    rw [if_pos hfit, overwrite, List.append_assoc, List.drop_append_of_le_length (by rw [List.length_take]; omega),
      List.drop_of_length_le (by rw [List.length_take]; omega), List.nil_append, List.take_left]

/-- The two ranges have no byte in common. -/
def Separate (p : Pointer) (n : Nat) (q : Pointer) (k : Nat) : Prop :=
  ∀ a b, p = some a → q = some b → a.object ≠ b.object ∨ a.offset + n ≤ b.offset ∨ b.offset + k ≤ a.offset

theorem Separate.symm {q : Pointer} {k : Nat} (h : Separate p n q k) : Separate q k p n := by
  intro a b ha hb
  rcases h b a hb ha with hne | hlt | hlt
  · exact .inl hne.symm
  · exact .inr (.inr hlt)
  · exact .inr (.inl hlt)

theorem getElem?_overwrite_of_outside {k x : Nat} (hfit : k + bs.length ≤ o.length) (hx : x < k ∨ k + bs.length ≤ x) :
    (overwrite o k bs)[x]? = o[x]? := by
  have htake : (o.take k).length = k := List.length_take_of_le (by omega)
  rw [overwrite, List.append_assoc]
  rcases hx with hx | hx
  · rw [List.getElem?_append_left (by omega), List.getElem?_take_of_lt hx]
  · rw [List.getElem?_append_right (by omega), List.getElem?_append_right (by omega), List.getElem?_drop, htake]
    congr 1
    omega

theorem take_drop_overwrite {j k : Nat} (hfit : k + bs.length ≤ o.length) (h : k + bs.length ≤ j ∨ j + n ≤ k) :
    ((overwrite o k bs).drop j).take n = (o.drop j).take n := by
  refine List.ext_getElem? fun i => ?_
  rw [List.getElem?_take, List.getElem?_take]
  split
  · rw [List.getElem?_drop, List.getElem?_drop, getElem?_overwrite_of_outside hfit (by omega)]
  · rfl

/-- A write leaves what it does not reach. -/
theorem read_write_of_separate {q : Pointer} (h : m.write p bs = some m') (hd : Separate p bs.length q n) :
    m'.read q n = m.read q n := by
  unfold write at h
  split at h
  · cases h
    rfl
  · obtain ⟨a, ha, h⟩ := Option.bind_eq_some_iff.mp h
    obtain ⟨o, ho, h⟩ := Option.bind_eq_some_iff.mp h
    obtain ⟨hfit, ⟨⟩⟩ := Option.ite_none_right_eq_some.mp h
    cases q with
    | none => rfl
    | some b =>
      have hlt := (List.getElem?_eq_some_iff.mp ho).1
      simp only [read, Option.bind_some]
      by_cases hob : a.object = b.object
      · rw [← hob, List.getElem?_set_self hlt, ho, Option.bind_some, Option.bind_some, length_overwrite hfit,
          take_drop_overwrite hfit ((hd a b ha rfl).resolve_left (fun hne => hne hob))]
      · rw [List.getElem?_set_ne hob]

/-! ### Inside a call -/

theorem leave_enter (m : ByteMemory) (locals : List (List UInt8)) : (m.enter locals).leave m.objects.length = m := by
  rw [leave, enter, List.take_left]

theorem read_enter (hp : m.Outer p) (locals : List (List UInt8)) : (m.enter locals).read p n = m.read p n := by
  cases p with
  | none => rfl
  | some a => simp only [read, enter, Option.bind_some, List.getElem?_append_left (hp a rfl)]

theorem write_enter (hp : m.Outer p) (locals : List (List UInt8)) :
    (m.enter locals).write p bs = (m.write p bs).map (·.enter locals) := by
  unfold write
  split
  · rfl
  cases p with
  | none => rfl
  | some a =>
    have ha := hp a rfl
    simp only [enter, Option.bind_some, List.getElem?_append_left ha]
    cases m.objects[a.object]? with
    | none => rfl
    | some o =>
      simp only [Option.bind_some]
      split
      · rw [Option.map_some, List.set_append_left _ _ ha]
      · rfl

theorem read_local (m : ByteMemory) {locals : List (List UInt8)} {i k : Nat}
    (hi : locals[i]? = some o) (hn : k + n ≤ o.length) :
    (m.enter locals).read (some ⟨m.objects.length + i, k⟩) n = some ((o.drop k).take n) := by
  unfold read
  split_ifs with h0
  · rw [h0, List.take_zero]
  · simp only [enter, Option.bind_some, List.getElem?_append_right (Nat.le_add_right ..), Nat.add_sub_cancel_left, hi]
    rw [if_pos hn]

theorem write_local (m : ByteMemory) {locals : List (List UInt8)} {i k : Nat} (hi : locals[i]? = some o) (hbs : bs ≠ [])
    (hn : k + bs.length ≤ o.length) :
    (m.enter locals).write (some ⟨m.objects.length + i, k⟩) bs = some (m.enter (locals.set i (overwrite o k bs))) := by
  rw [write, if_neg hbs]
  simp only [enter, Option.bind_some, List.getElem?_append_right (Nat.le_add_right ..), Nat.add_sub_cancel_left, hi]
  rw [if_pos hn, List.set_append_right _ _ (Nat.le_add_right ..), Nat.add_sub_cancel_left]

end ByteMemory
