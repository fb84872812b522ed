import Mathlib

namespace Xv6.Lib
open Function

/-! ## Bounded queues with free-running counters

`n` cells are used in turn. The counters have `w` bits and wrap around; they are reduced modulo `n`
only to find a cell, which is sound because `n` divides `2 ^ w`. -/

structure Fifo (α : Type*) (w n : Nat) where
  data : Fin n → α
  head : BitVec w
  tail : BitVec w

namespace Fifo
variable {α : Type*} {w n : Nat}

def count (q : Fifo α w n) : Nat := (q.tail - q.head).toNat

def take (q : Fifo α w n) : Fifo α w n := { q with head := q.head + 1 }

def drop (q : Fifo α w n) : Fifo α w n := { q with tail := q.tail - 1 }

variable [NeZero n]

def cell (n : Nat) [NeZero n] (c : BitVec w) : Fin n := Fin.ofNat n c.toNat

def contents (q : Fifo α w n) : List α :=
  (List.range q.count).map fun k => q.data (cell n (q.head + BitVec.ofNat w k))

def put (q : Fifo α w n) (x : α) : Fifo α w n :=
  { q with data := update q.data (cell n q.tail) x, tail := q.tail + 1 }

section
variable {q : Fifo α w n} {x : α} {k : Nat}

omit [NeZero n] in
theorem tail_eq (q : Fifo α w n) : q.tail = q.head + BitVec.ofNat w q.count := by
  rw [count, BitVec.ofNat_toNat, BitVec.setWidth_eq, BitVec.add_comm, BitVec.sub_add_cancel]

omit [NeZero n] in
theorem empty_iff : q.head = q.tail ↔ q.count = 0 := by
  constructor
  · intro same
    rw [count, same, BitVec.sub_self]
    rfl
  · intro none
    have reach := q.tail_eq
    rw [none] at reach
    simpa using reach.symm

theorem length_contents (q : Fifo α w n) : q.contents.length = q.count := by simp [contents]

theorem contents_of_empty (same : q.head = q.tail) : q.contents = [] := by
  rw [← List.length_eq_zero_iff, length_contents, ← empty_iff]
  exact same

omit [NeZero n] in
theorem count_of_tail {head tail : BitVec w} (data : Fin n → α) (small : k < 2 ^ w)
    (reach : tail = head + BitVec.ofNat w k) : (⟨data, head, tail⟩ : Fifo α w n).count = k := by
  rw [count, reach, BitVec.add_comm, BitVec.add_sub_cancel, BitVec.toNat_ofNat, Nat.mod_eq_of_lt small]

omit [NeZero n] in
theorem tail_sub_one (more : q.count = k + 1) : q.tail - 1 = q.head + BitVec.ofNat w k := by
  grind [q.tail_eq, BitVec.ofNat_add]

omit [NeZero n] in
theorem count_drop (more : q.count = k + 1) : q.drop.count = k := by
  have below : q.count < 2 ^ w := (q.tail - q.head).isLt
  exact count_of_tail _ (by omega) (tail_sub_one more)

theorem contents_drop (some : q.head ≠ q.tail) : q.contents = q.drop.contents ++ [q.data (cell n (q.tail - 1))] := by
  obtain ⟨k, more⟩ := Nat.exists_eq_succ_of_ne_zero fun none => some (empty_iff.mpr none)
  rw [contents, contents, count_drop more, more, List.range_succ, List.map_append, List.map_singleton, tail_sub_one more]
  rfl

variable (divides : n ∣ 2 ^ w) (small : n < 2 ^ w)
include divides small

omit small in
theorem cell_add (c : BitVec w) (k : Nat) : (cell n (c + BitVec.ofNat w k)).val = (c.toNat + k) % n := by
  rw [cell, Fin.val_ofNat, BitVec.toNat_add, BitVec.toNat_ofNat, Nat.add_mod_mod, Nat.mod_mod_of_dvd _ divides]

omit small in
theorem cell_ne {c : BitVec w} {j : Nat} (below : j < k) (near : k < n) :
    cell n (c + BitVec.ofNat w j) ≠ cell n (c + BitVec.ofNat w k) := by
  intro same
  have values := congrArg Fin.val same
  rw [cell_add divides, cell_add divides] at values
  have gap : c.toNat + j ≡ c.toNat + k [MOD n] := values
  have gap := Nat.ModEq.add_left_cancel' _ gap
  rw [Nat.ModEq, Nat.mod_eq_of_lt (by omega), Nat.mod_eq_of_lt near] at gap
  omega

omit [NeZero n] divides in
theorem full_iff (bounded : q.count ≤ n) : q.tail = q.head + BitVec.ofNat w n ↔ q.count = n := by
  constructor
  · intro full
    obtain ⟨data, head, tail⟩ := q
    exact count_of_tail _ small full
  · intro full
    rw [q.tail_eq, full]

omit divides in
theorem count_put (room : q.count < n) : (q.put x).count = q.count + 1 := by
  refine count_of_tail _ (by omega) ?_
  rw [q.tail_eq, BitVec.add_assoc, BitVec.ofNat_add]
  rfl

omit small in
theorem contents_store (room : q.count < n) :
    ({ q with data := update q.data (cell n q.tail) x } : Fifo α w n).contents = q.contents := by
  refine List.map_congr_left fun k member => ?_
  have below : k < q.count := List.mem_range.mp member
  have apart := cell_ne divides (c := q.head) below room
  rw [← q.tail_eq] at apart
  exact update_of_ne apart ..

theorem contents_put (room : q.count < n) : (q.put x).contents = q.contents ++ [x] := by
  rw [← contents_store divides (x := x) room, contents, count_put small room, List.range_succ, List.map_append,
    List.map_singleton, contents]
  congr 2
  change update q.data (cell n q.tail) x (cell n (q.head + BitVec.ofNat w q.count)) = x
  rw [← q.tail_eq, update_self]

omit divides small in
theorem put_stored : q.put (q.data (cell n q.tail)) = { q with tail := q.tail + 1 } := by
  rw [put, update_eq_self]

omit [NeZero n] divides in
theorem count_take (bounded : q.count ≤ n) (some : q.head ≠ q.tail) : q.take.count + 1 = q.count := by
  have positive : q.count ≠ 0 := fun none => some (empty_iff.mpr none)
  obtain ⟨k, isK⟩ := Nat.exists_eq_succ_of_ne_zero positive
  rw [isK]
  refine congrArg Nat.succ (count_of_tail _ (by omega) ?_)
  rw [q.tail_eq, isK, Nat.succ_eq_one_add, BitVec.ofNat_add, ← BitVec.add_assoc]
  rfl

omit divides in
theorem contents_take (bounded : q.count ≤ n) (some : q.head ≠ q.tail) :
    q.contents = q.data (cell n q.head) :: q.take.contents := by
  rw [contents, ← count_take small bounded some, List.range_succ_eq_map, List.map_cons, List.map_map, contents]
  congr 1
  · simp
  · refine List.map_congr_left fun k _ => ?_
    simp only [comp, take]
    rw [Nat.succ_eq_one_add, BitVec.ofNat_add, ← BitVec.add_assoc]
    rfl

end

end Fifo

end Xv6.Lib
