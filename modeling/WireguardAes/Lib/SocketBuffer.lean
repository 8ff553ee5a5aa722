import Mathlib.Data.List.TakeDrop

/-!
# Buffers that hold a packet

A packet lies in one block of memory behind some headroom, and goes on in pages that cannot be
addressed from there. The front of the packet is moved (`push`, `pull`), its end is cut off
(`trim`), and bytes are brought from the pages into the block (`mayPull`).
-/

structure SocketBuffer (α : Type) where
  headroom : List α
  linear : List α
  paged : List α

namespace SocketBuffer

variable {α : Type}

def bytes (b : SocketBuffer α) : List α := b.linear ++ b.paged

def len (b : SocketBuffer α) : Nat := b.linear.length + b.paged.length

/-- The offset of the end of the block. -/
def tail (b : SocketBuffer α) : Nat := b.headroom.length + b.linear.length

/-- The block. -/
def memory (b : SocketBuffer α) : List α := b.headroom ++ b.linear

/-- `none` if there is not so much headroom. -/
def push (b : SocketBuffer α) (n : Nat) : Option (SocketBuffer α) :=
  if n ≤ b.headroom.length then
    some ⟨b.headroom.take (b.headroom.length - n), b.headroom.drop (b.headroom.length - n) ++ b.linear, b.paged⟩
  else none

/-- `none` if the front would leave the block. -/
def pull (b : SocketBuffer α) (n : Nat) : Option (SocketBuffer α) :=
  if n ≤ b.linear.length then some ⟨b.headroom ++ b.linear.take n, b.linear.drop n, b.paged⟩ else none

/-- `none` if the packet is shorter. -/
def mayPull (b : SocketBuffer α) (n : Nat) : Option (SocketBuffer α) :=
  if n ≤ b.linear.length then some b
  else if b.len < n then none
  else
    let k := n - b.linear.length
    some ⟨b.headroom, b.linear ++ b.paged.take k, b.paged.drop k⟩

def trim (b : SocketBuffer α) (n : Nat) : SocketBuffer α :=
  if b.len ≤ n then b
  else if n ≤ b.linear.length then ⟨b.headroom, b.linear.take n, []⟩
  else ⟨b.headroom, b.linear, b.paged.take (n - b.linear.length)⟩

variable {b c : SocketBuffer α} {n : Nat}

@[simp] theorem length_bytes (b : SocketBuffer α) : b.bytes.length = b.len := List.length_append

theorem linear_le_len (b : SocketBuffer α) : b.linear.length ≤ b.len := Nat.le_add_right ..

theorem take_bytes (h : n ≤ b.linear.length) : b.bytes.take n = b.linear.take n := List.take_append_of_le_length h

/-- Bringing bytes into the block does not change the packet. -/
structure Pulled (n : Nat) (b c : SocketBuffer α) : Prop where
  headroom : c.headroom = b.headroom
  bytes : c.bytes = b.bytes
  linear : n ≤ c.linear.length

theorem mayPull_of_le (h : n ≤ b.len) : ∃ c, b.mayPull n = some c ∧ Pulled n b c := by
  unfold mayPull
  split
  · exact ⟨b, rfl, rfl, rfl, ‹_›⟩
  rw [if_neg (Nat.not_lt.mpr h)]
  refine ⟨_, rfl, rfl, ?_, ?_⟩
  · simp only [bytes, List.append_assoc, List.take_append_drop]
  · simp only [len] at h
    simp only [List.length_append, List.length_take]
    omega

theorem mayPull_of_lt (h : b.len < n) : b.mayPull n = none := by
  have hlin := b.linear_le_len
  unfold mayPull
  rw [if_neg (by omega), if_pos h]

theorem len_eq_of_bytes (h : c.bytes = b.bytes) : c.len = b.len := by
  rw [← length_bytes, ← length_bytes, h]

theorem headroom_trim (b : SocketBuffer α) (n : Nat) : (b.trim n).headroom = b.headroom := by
  unfold trim
  split
  · rfl
  split <;> rfl

theorem bytes_trim (b : SocketBuffer α) (n : Nat) : (b.trim n).bytes = b.bytes.take n := by
  unfold trim
  split
  · exact (List.take_of_length_le (by rwa [length_bytes])).symm
  split_ifs with h
  · rw [take_bytes ‹_›]
    simp only [bytes, List.append_nil]
  · simp only [bytes]
    rw [List.take_append, List.take_of_length_le (Nat.le_of_not_le h)]

theorem len_trim (b : SocketBuffer α) (n : Nat) : (b.trim n).len = min n b.len := by
  rw [← length_bytes, bytes_trim, List.length_take, length_bytes]

theorem linear_trim (b : SocketBuffer α) (n : Nat) : min n b.linear.length ≤ (b.trim n).linear.length := by
  unfold trim
  split
  · exact Nat.min_le_right ..
  split
  · exact Nat.le_of_eq List.length_take.symm
  · exact Nat.min_le_right ..

/-- What moving the front of the packet by `n` bytes does to it. -/
structure Moved (n : Nat) (b c : SocketBuffer α) : Prop where
  headroom : c.headroom.length = b.headroom.length + n
  bytes : c.bytes = b.bytes.drop n
  linear : c.linear.length + n = b.linear.length

theorem Moved.len (h : Moved n b c) : c.len + n = b.len := by
  have hb := congrArg List.length h.bytes
  have hlin := h.linear
  have hle := b.linear_le_len
  rw [length_bytes, List.length_drop, length_bytes] at hb
  omega

theorem pull_of_le (h : n ≤ b.linear.length) : ∃ c, b.pull n = some c ∧ Moved n b c := by
  unfold pull
  rw [if_pos h]
  refine ⟨_, rfl, ?_, ?_, ?_⟩
  · simp only [List.length_append, List.length_take, Nat.min_eq_left h]
  · simp only [bytes, List.drop_append_of_le_length h]
  · simp only [List.length_drop]
    omega

/-- Pushing is pulling backwards. -/
theorem push_of_le (h : n ≤ b.headroom.length) : ∃ c, b.push n = some c ∧ Moved n c b := by
  unfold push
  rw [if_pos h]
  refine ⟨_, rfl, ?_, ?_, ?_⟩
  · simp only [List.length_take]
    omega
  · have hlen : (b.headroom.drop (b.headroom.length - n)).length = n := by
      rw [List.length_drop]
      omega
    simp only [bytes, List.append_assoc]
    rw [List.drop_append, hlen, Nat.sub_self, List.drop_zero, List.drop_of_length_le
      (Nat.le_of_eq hlen), List.nil_append]
  · simp only [List.length_append, List.length_drop]
    omega

theorem memory_drop (b : SocketBuffer α) {i : Nat} (hi : b.headroom.length ≤ i) (k : Nat) (hk : i + k ≤ b.tail) :
    (b.memory.drop i).take k = (b.bytes.drop (i - b.headroom.length)).take k := by
  simp only [tail] at hk
  simp only [memory, bytes]
  rw [List.drop_append, List.drop_of_length_le hi, List.nil_append,
    List.drop_append_of_le_length (by omega), List.take_append_of_le_length]
  rw [List.length_drop]
  omega

end SocketBuffer
