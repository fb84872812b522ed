import Mathlib

namespace Xv6.Lib

universe u v

/-! ## Computations that can stop -/

theorem bind_eq_ok {ε : Type u} {α β : Type v} {x : Except ε α} {f : α → Except ε β} {b : β} :
    x >>= f = .ok b ↔ ∃ a, x = .ok a ∧ f a = .ok b := by
  cases x with
  | error stop | ok a => simp [bind, Except.bind]

/-! ## Weakest preconditions

`wp f Q s`: from the state `s` the computation `f` does not stop, and it ends with a result and a
state that meet `Q`. -/

abbrev Comp (σ ε α : Type) := StateT σ (Except ε) α

section
variable {σ τ ε α β : Type} {Q R : α → σ → Prop} {f : Comp σ ε α} {E : ε → Prop} {s : σ} {I : List α → σ → Prop} {a : α}
  {xs : List α}

def wp (f : Comp σ ε α) (Q : α → σ → Prop) (s : σ) : Prop :=
  match f.run s with
  | .ok (a, t) => Q a t
  | .error _ => False

@[simp] theorem wp_pure (a : α) (Q : α → σ → Prop) (s : σ) : wp (pure a : Comp σ ε α) Q s ↔ Q a s := Iff.rfl

@[simp] theorem wp_bind (f : Comp σ ε α) (g : α → Comp σ ε β) (Q : β → σ → Prop) (s : σ) :
    wp (f >>= g) Q s ↔ wp f (fun a => wp (g a) Q) s := by
  unfold wp
  rw [StateT.run_bind]
  cases f.run s with
  | error stop => exact Iff.rfl
  | ok outcome => exact Iff.rfl

@[simp] theorem wp_get (Q : σ → σ → Prop) (s : σ) : wp (get : Comp σ ε σ) Q s ↔ Q s s := Iff.rfl

@[simp] theorem wp_modify (h : σ → σ) (Q : PUnit → σ → Prop) (s : σ) :
    wp (modify h : Comp σ ε PUnit) Q s ↔ Q ⟨⟩ (h s) := Iff.rfl

@[simp] theorem wp_throw (e : ε) (Q : α → σ → Prop) (s : σ) : wp (throw e : Comp σ ε α) Q s ↔ False := Iff.rfl

@[simp] theorem wp_map (f : Comp σ ε α) (g : α → β) (Q : β → σ → Prop) (s : σ) :
    wp (g <$> f) Q s ↔ wp f (fun a => Q (g a)) s := by
  rw [← bind_pure_comp, wp_bind]
  exact Iff.rfl

theorem wp.mono (h : wp f Q s) (weaker : ∀ a t, Q a t → R a t) : wp f R s := by grind [wp]

theorem wp.bind {g : α → Comp σ ε β} {R : β → σ → Prop} (first : wp f Q s) (rest : ∀ a t, Q a t → wp (g a) R t) :
    wp (f >>= g) R s :=
  (wp_bind ..).mpr (first.mono rest)

theorem wp.and (one : wp f Q s) (other : wp f R s) : wp f (fun a t => Q a t ∧ R a t) s := by grind [wp]

theorem wp.run_eq (h : wp f Q s) : ∃ a t, f.run s = .ok (a, t) ∧ Q a t := by grind [wp]

theorem wp_of_run {t : σ} (ran : f.run s = .ok (a, t)) : wp f Q s ↔ Q a t := by
  simp only [wp, ran]

theorem toOption_eq_some {result : Except ε α} : result.toOption = some a ↔ result = .ok a := by
  cases result <;> simp [Except.toOption]

theorem wp_forM {f : α → Comp σ ε PUnit}
    (body : ∀ x rest s, I (x :: rest) s → wp (f x) (fun _ => I rest) s) (start : I xs s) :
    wp (xs.forM f) (fun _ => I []) s := by
  induction xs generalizing s with
  | nil => exact start
  | cons x rest ih =>
    change wp (f x >>= fun _ => rest.forM f) _ s
    exact (body x rest s start).bind fun _ t after => ih after

def zoom (part : σ → τ) (put : τ → σ → σ) (f : Comp τ ε α) : Comp σ ε α := fun s =>
  match f.run (part s) with
  | .ok (a, t) => .ok (a, put t s)
  | .error stop => .error stop

@[simp] theorem wp_zoom (part : σ → τ) (put : τ → σ → σ) (f : Comp τ ε α) (Q : α → σ → Prop) (s : σ) :
    wp (zoom part put f) Q s ↔ wp f (fun a t => Q a (put t s)) (part s) := by
  unfold wp
  simp only [zoom, StateT.run]
  cases f (part s) with
  | error stop => exact Iff.rfl
  | ok outcome => exact Iff.rfl

attribute [irreducible] wp

/-! ## Computations that may stop in some ways only -/

def ends (f : Comp σ ε α) (E : ε → Prop) (Q : α → σ → Prop) (s : σ) : Prop :=
  match f.run s with
  | .ok (a, t) => Q a t
  | .error stop => E stop

theorem wp.ends (h : wp f Q s) : ends f E Q s := by
  obtain ⟨a, t, outcome, after⟩ := h.run_eq
  simpa only [Lib.ends, outcome] using after

theorem ends.total (h : ends f E Q s) (never : ∀ e, ¬ E e) : wp f Q s := by grind [wp, ends]

theorem wp_of_ends (h : ends f (fun _ => False) Q s) : wp f Q s :=
  h.total fun _ => id

theorem ends.mono_run (h : ends f E Q s)
    (weaker : ∀ a t, f.run s = .ok (a, t) → Q a t → R a t) : ends f E R s := by grind [ends]

theorem ends.mono (h : ends f E Q s) (weaker : ∀ a t, Q a t → R a t) : ends f E R s := h.mono_run fun a t _ => weaker a t

theorem ends.mono_stop {F : ε → Prop} (h : ends f E Q s) (weaker : ∀ e, E e → F e) : ends f F Q s := by grind [ends]

@[simp] theorem ends_pure (a : α) (Q : α → σ → Prop) (s : σ) : ends (pure a : Comp σ ε α) E Q s ↔ Q a s := Iff.rfl

@[simp] theorem ends_get (Q : σ → σ → Prop) (s : σ) : ends (get : Comp σ ε σ) E Q s ↔ Q s s := Iff.rfl

@[simp] theorem ends_modify (h : σ → σ) (Q : PUnit → σ → Prop) (s : σ) :
    ends (modify h : Comp σ ε PUnit) E Q s ↔ Q ⟨⟩ (h s) := Iff.rfl

@[simp] theorem ends_throw (e : ε) (Q : α → σ → Prop) (s : σ) : ends (throw e : Comp σ ε α) E Q s ↔ E e := Iff.rfl

theorem ends_bind {g : α → Comp σ ε β} {Q : β → σ → Prop} :
    ends (f >>= g) E Q s ↔ ends f E (fun a => ends (g a) E Q) s := by
  unfold ends
  rw [StateT.run_bind]
  cases f.run s with
  | error stop => exact Iff.rfl
  | ok outcome => exact Iff.rfl

theorem ends.bind {g : α → Comp σ ε β} {R : β → σ → Prop} (first : ends f E Q s)
    (rest : ∀ a t, Q a t → ends (g a) E R t) : ends (f >>= g) E R s :=
  ends_bind.mpr (first.mono rest)

theorem ends_forM {f : α → Comp σ ε PUnit}
    (body : ∀ x rest s, I (x :: rest) s → ends (f x) E (fun _ => I rest) s) (start : I xs s) :
    ends (xs.forM f) E (fun _ => I []) s := by
  induction xs generalizing s with
  | nil => exact start
  | cons x rest ih =>
    change ends (f x >>= fun _ => rest.forM f) E _ s
    exact (body x rest s start).bind fun _ t after => ih after

theorem ends.and (one : ends f E Q s) (other : ends f E R s) : ends f E (fun a t => Q a t ∧ R a t) s := by grind [ends]

theorem wp.and_ends (one : wp f Q s) (other : Lib.ends f E R s) : wp f (fun a t => Q a t ∧ R a t) s := by
  obtain ⟨a, t, ran, after⟩ := one.run_eq
  unfold wp
  unfold Lib.ends at other
  simp only [ran] at other ⊢
  exact ⟨after, other⟩

theorem ends.of_run {t : σ} (h : ends f E Q s) (ran : f.run s = .ok (a, t)) : Q a t := by
  unfold ends at h
  simpa only [ran] using h

theorem ends.of_stop {e : ε} (h : ends f E Q s) (ran : f.run s = .error e) : E e := by
  unfold ends at h
  rwa [ran] at h

theorem ends_true (f : Comp σ ε α) (s : σ) : ends f (fun _ => True) (fun _ _ => True) s := by
  unfold ends
  split <;> trivial

variable {f : Comp τ ε α} {put : τ → σ → σ}

theorem ends_zoom {part : σ → τ} : ends (zoom part put f) E Q s ↔ ends f E (fun a t => Q a (put t s)) (part s) := by
  unfold ends
  simp only [zoom, StateT.run]
  cases f (part s) with
  | error stop => exact Iff.rfl
  | ok outcome => exact Iff.rfl

attribute [irreducible] ends

/-! ## Computations that do what another does on a part of the state -/

def Projects (part : σ → τ) (g : Comp σ ε α) (f : Comp τ ε α) : Prop :=
  ∀ E Q s, ends f E Q (part s) → ends g E (fun a t => Q a (part t)) s

section
variable {part : σ → τ} {g : Comp σ ε α}

theorem Projects.pure (a : α) : Projects part (pure a : Comp σ ε α) (pure a : Comp τ ε α) :=
  fun _ _ _ after => (ends_pure ..).mpr ((ends_pure ..).mp after)

theorem Projects.throw (e : ε) : Projects part (throw e : Comp σ ε α) (throw e : Comp τ ε α) :=
  fun _ _ _ after => (ends_throw ..).mpr ((ends_throw ..).mp after)

theorem Projects.bind {k : α → Comp σ ε β} {h : α → Comp τ ε β} (first : Projects part g f)
    (next : ∀ a, Projects part (k a) (h a)) : Projects part (g >>= k) (f >>= h) := by
  intro E Q s whole
  rw [ends_bind] at whole ⊢
  exact (first _ _ _ whole).mono fun a t after => next a _ _ _ after

theorem Projects.zoom (same : ∀ t s, part (put t s) = t) (f : Comp τ ε α) : Projects part (zoom part put f) f := by
  intro E Q s whole
  rw [ends_zoom]
  simpa only [same] using whole

theorem Projects.skip {h : σ → σ} (same : ∀ s, part (h s) = part s)
    (next : Projects part g f) : Projects part (modify h >>= fun _ => g) f := by
  intro E Q s whole
  rw [ends_bind, ends_modify]
  refine next E Q _ ?_
  rwa [same]

theorem Projects.run_part (projects : Projects part g f) (s : σ) :
    ends g (fun e => f.run (part s) = .error e) (fun a t => f.run (part s) = .ok (a, part t)) s := by
  refine projects _ (fun a t => f.run (part s) = .ok (a, t)) s ?_
  unfold ends
  cases outcome : f.run (part s) with
  | error stop => rfl
  | ok result => rfl

theorem Projects.ite {c : Prop} [Decidable c] {g' : Comp σ ε α} {f' : Comp τ ε α} (yes : Projects part g f)
    (no : Projects part g' f') : Projects part (if c then g else g') (if c then f else f') := by
  split
  · exact yes
  · exact no

end

end

end Xv6.Lib
