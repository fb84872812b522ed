import Mathlib

namespace Xv6.Lib

/-! ## Runs of a partial step function

An event that is not enabled in a state has no successor, so a run is a list of events each of
which was enabled when its turn came. -/

section
variable {σ α : Type*} (step : σ → α → Option σ)

def run (s : σ) : List α → Option σ
  | [] => some s
  | e :: es => (step s e).bind fun t => run t es

/-- Every step that the run takes from `s` meets the condition `ok` in the state it starts from. -/
def Meets (ok : σ → α → Prop) (s : σ) : List α → Prop
  | [] => True
  | e :: es => ok s e ∧ ∀ t, step s e = some t → Meets ok t es

variable {step} {ok ok' : σ → α → Prop} {es fs : List α} {s t u : σ} {inv : σ → Prop} {e : α}

@[simp] theorem run_nil (s : σ) : run step s [] = some s := rfl

@[simp] theorem run_cons (s : σ) (e : α) (es : List α) :
    run step s (e :: es) = (step s e).bind fun t => run step t es := rfl

/-- What a closed computation reaches is found by evaluating a test on it. -/
theorem exists_some {o : Option σ} {P : σ → Prop} [DecidablePred P] (passes : o.any P = true) : ∃ t, o = some t ∧ P t := by
  simpa using (Option.any_eq_true _ _).mp passes

theorem exists_some_of {o : Option σ} {P : σ → Prop} (test : σ → Prop) [DecidablePred test] (passes : o.any test = true)
    (rest : ∀ t, o = some t → test t → P t) : ∃ t, o = some t ∧ P t := by
  obtain ⟨t, reached, passed⟩ := exists_some passes
  exact ⟨t, reached, rest t reached passed⟩

theorem run_append (s : σ) (es fs : List α) : run step s (es ++ fs) = (run step s es).bind fun t => run step t fs := by
  induction es generalizing s with
  | nil => rfl
  | cons e es ih =>
    simp only [List.cons_append, run_cons, ih]
    cases step s e <;> rfl

theorem run_append_some (h : run step s (es ++ fs) = some u) : ∃ t, run step s es = some t ∧ run step t fs = some u := by
  rw [run_append] at h
  exact Option.bind_eq_some_iff.mp h

theorem run_snoc_some (h : run step s (es ++ [e]) = some u) : ∃ t, run step s es = some t ∧ step t e = some u := by
  obtain ⟨t, before, last⟩ := run_append_some h
  refine ⟨t, before, ?_⟩
  cases taken : step t e <;> simp_all

theorem run_trans (before : run step s es = some t) (after : run step t fs = some u) :
    run step s (es ++ fs) = some u := by
  rw [run_append, before, Option.bind_some, after]

theorem run_invariant (preserved : ∀ s e t, ok s e → step s e = some t → inv s → inv t) {s t : σ} {es : List α}
    (meets : Meets step ok s es) (initially : inv s) (taken : run step s es = some t) : inv t := by
  induction es generalizing s with
  | nil =>
    obtain rfl : s = t := by simpa using taken
    exact initially
  | cons e es ih =>
    obtain ⟨u, first, rest⟩ := Option.bind_eq_some_iff.mp taken
    exact ih (meets.2 u first) (preserved s e u meets.1 first initially) rest

theorem meets_true (s : σ) (es : List α) : Meets step (fun _ _ => True) s es := by
  induction es generalizing s with
  | nil => trivial
  | cons e es ih => exact ⟨trivial, fun t _ => ih t⟩

theorem run_inductive (preserved : ∀ s e t, step s e = some t → inv s → inv t) {s t : σ} {es : List α}
    (initially : inv s) (taken : run step s es = some t) : inv t :=
  run_invariant (fun s e t _ => preserved s e t) (meets_true s es) initially taken

theorem meets_cons_none (stuck : step s e = none) : ok s e ↔ Meets step ok s (e :: es) := by
  simp [Meets, stuck]

theorem meets_cons_some (taken : step s e = some t) : ok s e ∧ Meets step ok t es ↔ Meets step ok s (e :: es) := by
  simp [Meets, taken]

instance decidableMeets {ok : σ → α → Prop} [∀ s e, Decidable (ok s e)] :
    (s : σ) → (es : List α) → Decidable (Meets step ok s es)
  | _, [] => isTrue trivial
  | s, e :: es => match taken : step s e with
      | none => decidable_of_iff _ (meets_cons_none taken)
      | some t =>
        have _rest : Decidable (Meets step ok t es) := decidableMeets t es
        decidable_of_iff _ (meets_cons_some taken)

theorem Meets.mono (meets : Meets step ok s es) (weaker : ∀ s, ∀ e ∈ es, ok s e → ok' s e) : Meets step ok' s es := by
  induction es generalizing s with
  | nil => trivial
  | cons e es ih =>
    refine ⟨weaker s e (by simp) meets.1, fun t taken => ih (meets.2 t taken) ?_⟩
    intro s e' member
    exact weaker s e' (List.mem_cons_of_mem e member)

theorem Meets.of_invariant (meets : Meets step ok s es)
    (preserved : ∀ s e t, ok s e → step s e = some t → inv s → inv t) (holds : ∀ s e, inv s → ok s e → ok' s e)
    (initially : inv s) : Meets step ok' s es := by
  induction es generalizing s with
  | nil => trivial
  | cons e es ih =>
    refine ⟨holds s e initially meets.1, fun t taken => ih (meets.2 t taken) ?_⟩
    exact preserved s e t meets.1 taken initially

theorem meets_congr (preserved : ∀ s e t, ok s e → step s e = some t → inv s → inv t)
    (same : ∀ s e, inv s → (ok s e ↔ ok' s e)) {s : σ} {es : List α} (initially : inv s) :
    Meets step ok s es ↔ Meets step ok' s es := by
  induction es generalizing s with
  | nil => exact Iff.rfl
  | cons e es ih =>
    have rest (here : ok s e) (t : σ) (taken : step s e = some t) := ih (preserved s e t here taken initially)
    exact (and_congr_right fun here => forall₂_congr (rest here)).trans (and_congr_left' (same s e initially))

theorem meets_append : Meets step ok s (es ++ fs) ↔
      Meets step ok s es ∧ ∀ t, run step s es = some t → Meets step ok t fs := by
  induction es generalizing s with
  | nil => simp [Meets]
  | cons e es ih =>
    simp only [List.cons_append, Meets, ih, run_cons, Option.bind_eq_some_iff]
    constructor
    · grind
    · grind

end

end Xv6.Lib
