import Mathlib

namespace Xv6.Lib

/-! ## Records of `w` elements in a list -/

section
variable {α : Type} {w : Nat}

def record (w : Nat) (l : List α) (k : Nat) : List α := (l.drop (w * k)).take w

def putRecord (w : Nat) (l : List α) (k : Nat) (r : List α) : List α := l.take (w * k) ++ r ++ l.drop (w * k + w)

theorem record_length {l : List α} {k n : Nat} (full : l.length = w * n) (below : k < n) : (record w l k).length = w := by
  have room : w * (k + 1) ≤ w * n := Nat.mul_le_mul_left w below
  rw [Nat.mul_add, Nat.mul_one] at room
  rw [record, List.length_take, List.length_drop]
  omega

variable {l r : List α} {k n : Nat}

section

variable (full : l.length = w * n) (within : k ≤ n)

include full within

theorem take_length_eq : (l.take (w * k)).length = w * k := by
  grind [Nat.mul_le_mul_left]

theorem record_putRecord_self (size : r.length = w) : record w (putRecord w l k r) k = r := by
  rw [record, putRecord, List.append_assoc, List.drop_left' (take_length_eq full within), List.take_left' size]

theorem record_putRecord_of_ne (size : r.length = w) {j : Nat} (other : j ≠ k) :
    record w (putRecord w l k r) j = record w l j := by
  have front := take_length_eq full within
  have frontRecord : (l.take (w * k) ++ r).length = w * (k + 1) := by
    rw [List.length_append, front, size, Nat.mul_add, Nat.mul_one]
  rcases Nat.lt_or_gt_of_ne other with before | after
  · have room : w * (j + 1) ≤ w * k := Nat.mul_le_mul_left w before
    rw [Nat.mul_add, Nat.mul_one] at room
    have inFront : w ≤ ((l.take (w * k)).drop (w * j)).length := by
      rw [List.length_drop, front]
      omega
    rw [record, record, putRecord, List.append_assoc, List.drop_append_of_le_length (by omega),
      List.take_append_of_le_length inFront, List.drop_take, List.take_take, Nat.min_eq_left (by omega)]
  · have room : w * (k + 1) ≤ w * j := Nat.mul_le_mul_left w after
    have far : w * k + w + (w * j - (w * k + w)) = w * j := by
      rw [Nat.mul_add, Nat.mul_one] at room
      omega
    rw [record, record, putRecord, List.drop_append, List.drop_of_length_le (frontRecord ▸ room), List.nil_append, frontRecord,
      List.drop_drop, Nat.mul_add, Nat.mul_one, far]

end

end

/-! ## The record with a key -/

theorem find_range_iff {p : Nat → Bool} {n : Nat} (unique : ∀ j < n, ∀ k < n, p j = true → p k = true → j = k) (k : Nat) :
    (List.range n).find? p = some k ↔ k < n ∧ p k = true := by
  constructor
  · grind
  · rintro ⟨below, holds⟩
    cases found : (List.range n).find? p with
    | none => exact absurd holds (List.find?_eq_none.mp found k (List.mem_range.mpr below))
    | some j => grind

end Xv6.Lib
