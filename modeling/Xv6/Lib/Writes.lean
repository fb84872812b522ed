import Mathlib

namespace Xv6.Lib

/-! ## Overwriting a stretch of an array -/

section
variable {α : Type*}

def overlay (f : Nat → α) (o : Nat) (xs : List α) : Nat → α := fun k =>
  if o ≤ k then (xs[k - o]?).getD (f k) else f k

@[simp] theorem overlay_nil (f : Nat → α) (o : Nat) : overlay f o [] = f := by
  funext k
  simp [overlay]

theorem overlay_append (f : Nat → α) (o : Nat) (xs ys : List α) :
    overlay (overlay f o xs) (o + xs.length) ys = overlay f o (xs ++ ys) := by
  funext k
  simp only [overlay]
  by_cases before : o ≤ k
  · grind
  · rw [if_neg (by omega), if_neg before, if_neg before]

end

open Function

/-! ## Stores changed by a sequence of atomic writes -/

section
variable {α β : Type*} [DecidableEq α] {ws : List (α × β)} {d : α → β}

def applyWrites (d : α → β) (ws : List (α × β)) : α → β :=
  ws.foldl (fun d w => update d w.1 w.2) d

@[simp] theorem applyWrites_nil (d : α → β) : applyWrites d [] = d := rfl

@[simp] theorem applyWrites_cons (d : α → β) (w : α × β) (ws : List (α × β)) :
    applyWrites d (w :: ws) = applyWrites (update d w.1 w.2) ws := rfl

theorem applyWrites_append (d : α → β) (ws vs : List (α × β)) :
    applyWrites d (ws ++ vs) = applyWrites (applyWrites d ws) vs :=
  List.foldl_append

theorem applyWrites_of_not_mem {a : α} (untouched : ∀ w ∈ ws, w.1 ≠ a) : applyWrites d ws a = d a := by
  induction ws generalizing d with
  | nil => rfl
  | cons w ws ih =>
    rw [applyWrites_cons, ih fun v member => untouched v (by simp [member])]
    exact update_of_ne (untouched w (by simp)).symm _ _

theorem applyWrites_of_mem {a : α} {v : β} (hit : ∃ w ∈ ws, w.1 = a)
    (agree : ∀ w ∈ ws, w.1 = a → w.2 = v) : applyWrites d ws a = v := by
  induction ws generalizing d with
  | nil => simp at hit
  | cons w ws ih =>
    have agreeTail : ∀ u ∈ ws, u.1 = a → u.2 = v := fun u member => agree u (by simp [member])
    by_cases later : ∃ u ∈ ws, u.1 = a
    · exact ih later agreeTail
    · push Not at later
      have first : w.1 = a := by grind
      rw [applyWrites_cons, applyWrites_of_not_mem later, ← first]
      simp [agree w (by simp) first]

theorem applyWrites_take_invariant {inv : (α → β) → Prop}
    (preserved : ∀ d, ∀ w ∈ ws, inv d → inv (update d w.1 w.2)) (initially : inv d) (k : Nat) :
    inv (applyWrites d (ws.take k)) := by
  induction ws generalizing d k with
  | nil => simpa using initially
  | cons w ws ih =>
    cases k with
    | zero => simpa using initially
    | succ k =>
      exact ih (fun d u member => preserved d u (by simp [member])) (preserved d w (by simp) initially) k

theorem applyWrites_take_append (d : α → β) (ws vs : List (α × β)) (k : Nat) :
    (∃ j, applyWrites d ((ws ++ vs).take k) = applyWrites d (ws.take j)) ∨
      ∃ j, applyWrites d ((ws ++ vs).take k) = applyWrites (applyWrites d ws) (vs.take j) := by
  rcases Nat.le_total k ws.length with early | late
  · exact .inl ⟨k, by rw [List.take_append_of_le_length early]⟩
  · refine .inr ⟨k - ws.length, ?_⟩
    rw [← applyWrites_append, List.take_append, List.take_of_length_le late]

end

end Xv6.Lib
