import Xv6.Lib.Prog
import Xv6.Lib.Run

namespace Xv6.Lib

/-! ## Threads that interleave

Each thread is idle or has the rest of a program to run. A thread whose next operation is not possible
waits. -/

section
variable {σ ε ι C E R : Type} {A : R → Type} {α : Type}

structure Machine (σ ε ι C E : Type) {R : Type} (A : R → Type) (α : Type) where
  perform : ι → (r : R) → Comp σ ε (A r)
  program : ι → C → Prog A α
  enabled : σ → ι → Bool
  outside : σ → E → Option σ

structure Threads (σ ι : Type) {R : Type} (A : R → Type) (α : Type) where
  shared : σ
  thread : ι → Option (Prog A α)

inductive Turn (ι C E : Type) where
  | call (p : ι) (c : C)
  | next (p : ι)
  | outside (e : E)

def Prog.rest : Prog A α → Option (Prog A α)
  | .ret _ => none
  | m => some m

variable [DecidableEq ι] (m : Machine σ ε ι C E A α)

def Machine.step (s : Threads σ ι A α) : Turn ι C E → Option (Threads σ ι A α)
  | .call p c =>
    if (s.thread p).isNone && m.enabled s.shared p then
      some { s with thread := Function.update s.thread p (m.program p c).rest }
    else none
  | .next p => match s.thread p with
      | some (.ask r k) => match (m.perform p r).run s.shared with
          | .ok (x, t) => some ⟨t, Function.update s.thread p (k x).rest⟩
          | .error _ => none
      | _ => none
  | .outside e => (m.outside s.shared e).map fun t => { s with shared := t }

/-! ## Invariants from contracts -/

variable {m} {H : Type} {c : Contract A H} {atRest : H → Prop} {inv : σ → (ι → H) → Prop}
  {meets : Threads σ ι A α → Turn ι C E → Prop} {turns : List (Turn ι C E)}

/-- What a change of the shared state by `p`, or from outside, may do to a thread: nothing, or give
something else to one that can ask for nothing. -/
def Untouched (c : Contract A H) (atRest : H → Prop) (held held' : ι → H) (q : ι) : Prop :=
  held' q = held q ∨ (∀ r, ¬ c.pre r (held q)) ∧ atRest (held' q)

structure Starts (m : Machine σ ε ι C E A α) (c : Contract A H) (atRest : H → Prop)
    (inv : σ → (ι → H) → Prop) : Prop where
  call : ∀ s held p k, inv s held → m.enabled s p → atRest (held p) → Safe c (fun _ => atRest) (m.program p k) (held p)
  outside : ∀ s held e t, inv s held → m.outside s e = some t →
    ∃ held', inv t held' ∧ ∀ q, Untouched c atRest held held' q

structure Sound (m : Machine σ ε ι C E A α) (c : Contract A H) (atRest : H → Prop)
    (inv : σ → (ι → H) → Prop) : Prop extends Starts m c atRest inv where
  perform : ∀ s held p r x t, inv s held → c.pre r (held p) → (m.perform p r).run s = .ok (x, t) →
    ∃ held', inv t held' ∧ c.post r (held p) x (held' p) ∧ ∀ q, q ≠ p → Untouched c atRest held held' q

def Owns (c : Contract A H) (atRest : H → Prop) (h : H) : Option (Prog A α) → Prop
  | none => atRest h
  | some m => Safe c (fun _ => atRest) m h

theorem owns_rest {h : H} {m : Prog A α} (safe : Safe c (fun _ => atRest) m h) : Owns c atRest h m.rest := by
  cases m with
  | ret a => exact safe
  | ask r k => exact safe

def Threads.Inv (c : Contract A H) (atRest : H → Prop) (inv : σ → (ι → H) → Prop) (s : Threads σ ι A α) : Prop :=
  ∃ held, inv s.shared held ∧ ∀ p, Owns c atRest (held p) (s.thread p)

omit [DecidableEq ι] in
theorem Untouched.owns {held held' : ι → H} {q : ι} {t : Option (Prog A α)}
    (untouched : Untouched c atRest held held' q) (owns : Owns c atRest (held q) t) : Owns c atRest (held' q) t := by
  rcases untouched with same | ⟨silent, rested⟩
  · rwa [same]
  · cases t with
    | none => exact rested
    | some m =>
      cases m with
      | ret a => exact rested
      | ask r k => exact absurd owns.1 (silent r)

/-- As `Sound`, for the turns that meet a condition. -/
structure SoundIf (m : Machine σ ε ι C E A α) (meets : Threads σ ι A α → Turn ι C E → Prop) (c : Contract A H)
    (atRest : H → Prop) (inv : σ → (ι → H) → Prop) : Prop extends Starts m c atRest inv where
  perform : ∀ (s : Threads σ ι A α) held p r k x t, inv s.shared held → (∀ q, Owns c atRest (held q) (s.thread q)) →
    s.thread p = some (.ask r k) → meets s (.next p) → (m.perform p r).run s.shared = .ok (x, t) →
    ∃ held', inv t held' ∧ c.post r (held p) x (held' p) ∧ ∀ q, q ≠ p → Untouched c atRest held held' q

omit [DecidableEq ι] in
theorem Sound.soundIf (sound : Sound m c atRest inv) : SoundIf m (fun _ _ => True) c atRest inv where
  toStarts := sound.toStarts
  perform s held p r k x t kept owns running _ taken := by
    have safe := owns p
    rw [running] at safe
    exact sound.perform s.shared held p r x t kept safe.1 taken

theorem Threads.Inv.step (sound : SoundIf m meets c atRest inv)
    {s t : Threads σ ι A α} {turn : Turn ι C E} (met : meets s turn) (before : s.Inv c atRest inv)
    (taken : m.step s turn = some t) : t.Inv c atRest inv := by
  obtain ⟨held, kept, owns⟩ := before
  cases turn with
  | call p k =>
    simp only [Machine.step] at taken
    split_ifs at taken with starts
    cases taken
    simp only [Bool.and_eq_true, Option.isNone_iff_eq_none] at starts
    have rested := owns p
    rw [starts.1] at rested
    refine ⟨held, kept, fun q => ?_⟩
    by_cases own : q = p
    · subst own
      simpa using owns_rest (sound.call s.shared held q k kept starts.2 rested)
    · simpa [own] using owns q
  | next p =>
    simp only [Machine.step] at taken
    cases running : s.thread p with
    | none => simp [running] at taken
    | some prog =>
      cases prog with
      | ret a => simp [running] at taken
      | ask r k =>
        simp only [running] at taken
        have safe := owns p
        rw [running] at safe
        cases outcome : (m.perform p r).run s.shared with
        | error stop => simp [outcome] at taken
        | ok result =>
          obtain ⟨x, u⟩ := result
          simp only [outcome, Option.some.injEq] at taken
          subst taken
          obtain ⟨held', after, post, others⟩ := sound.perform s held p r k x u kept owns running met outcome
          refine ⟨held', after, fun q => ?_⟩
          by_cases own : q = p
          · subst own
            simpa using owns_rest (safe.2 x _ post)
          · simpa [own] using (others q own).owns (owns q)
  | outside e =>
    obtain ⟨u, changed, rfl⟩ := Option.map_eq_some_iff.mp taken
    obtain ⟨held', after, others⟩ := sound.outside s.shared held e u kept changed
    exact ⟨held', after, fun q => (others q).owns (owns q)⟩

theorem Threads.Inv.runIf (sound : SoundIf m meets c atRest inv)
    {s t : Threads σ ι A α} (met : Meets m.step meets s turns) (before : s.Inv c atRest inv)
    (taken : run m.step s turns = some t) : t.Inv c atRest inv :=
  run_invariant (fun _ _ _ met taken before => before.step sound met taken) met before taken

theorem Threads.Inv.run (sound : Sound m c atRest inv) {s t : Threads σ ι A α}
    (before : s.Inv c atRest inv) (taken : run m.step s turns = some t) : t.Inv c atRest inv :=
  before.runIf sound.soundIf (meets_true s turns) taken

end

end Xv6.Lib
