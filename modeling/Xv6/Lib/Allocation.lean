import Mathlib

namespace Xv6.Lib
open Function

/-! ## Ownership of numbered units

Places hold units, `0` standing for none. The units from `lo` up to `hi` are handed out, and a unit
is marked as used exactly when a place holds it. -/

section
variable {P : Type*}

structure Assigned (held : P → Nat) (used : Nat → Bool) (lo hi : Nat) : Prop where
  range : ∀ x, held x ≠ 0 → lo ≤ held x ∧ held x < hi
  once : ∀ x y, held x ≠ 0 → held x = held y → x = y
  marked : ∀ b, lo ≤ b → b < hi → (used b = true ↔ ∃ x, held x = b)

variable {held : P → Nat} {used : Nat → Bool} {lo hi b : Nat} {x : P}

theorem Assigned.used_of_held (assigned : Assigned held used lo hi) (full : held x ≠ 0) : used (held x) = true :=
  (assigned.marked _ (assigned.range x full).1 (assigned.range x full).2).mpr ⟨x, rfl⟩

theorem Assigned.not_held (assigned : Assigned held used lo hi) (unused : used b = false) (positive : b ≠ 0) (x : P) :
    held x ≠ b := by
  rintro rfl
  exact Bool.false_ne_true (unused.symm.trans (assigned.used_of_held positive))

variable [DecidableEq P]

theorem Assigned.take (assigned : Assigned held used lo hi) (empty : held x = 0) (unused : used b = false) (low : lo ≤ b)
    (high : b < hi) (positive : 0 < lo) :
    Assigned (update held x b) (update used b true) lo hi where
  range y full := by
    by_cases same : y = x
    · subst same
      simpa using ⟨low, high⟩
    · rw [update_of_ne same] at full ⊢
      exact assigned.range y full
  once y z full equal := by grind [assigned.not_held, assigned.once]
  marked c from_lo to_hi := by
    by_cases same : c = b
    · subst same
      simp only [update_self, true_iff]
      exact ⟨x, update_self ..⟩
    · rw [update_of_ne same, assigned.marked c from_lo to_hi]
      constructor
      · rintro ⟨y, rfl⟩
        have notX : y ≠ x := by
          rintro rfl
          omega
        exact ⟨y, update_of_ne notX ..⟩
      · grind

theorem Assigned.give (assigned : Assigned held used lo hi) (full : held x ≠ 0) (positive : 0 < lo) :
    Assigned (update held x 0) (update used (held x) false) lo hi where
  range y filled := by
    have notX : y ≠ x := by
      rintro rfl
      exact filled (update_self ..)
    rw [update_of_ne notX] at filled ⊢
    exact assigned.range y filled
  once y z filled equal := by
    have notY : y ≠ x := by
      rintro rfl
      exact filled (update_self ..)
    have notZ : z ≠ x := by
      rintro rfl
      exact filled (equal.trans (update_self ..))
    simp only [update_of_ne notY, update_of_ne notZ] at filled equal
    exact assigned.once y z filled equal
  marked c from_lo to_hi := by
    by_cases same : c = held x
    · subst same
      simp only [update_self, Bool.false_eq_true, false_iff, not_exists]
      intro y holds
      by_cases isX : y = x
      · simp [isX] at holds
        omega
      · grind [assigned.once]
    · rw [update_of_ne same, assigned.marked c from_lo to_hi]
      constructor
      · rintro ⟨y, rfl⟩
        have notX : y ≠ x := by
          rintro rfl
          exact same rfl
        exact ⟨y, update_of_ne notX ..⟩
      · grind

end

end Xv6.Lib
