import Xv6.Lib.Fault

namespace Xv6.Lib

/-! ## Programs

A program asks for one operation after the other and goes on with the answers. Code that other threads
may interrupt between two operations is a program; what is atomic is one operation. -/

section
variable {R : Type} {A : R → Type} {α β γ : Type}

inductive Prog {R : Type} (A : R → Type) (α : Type) where
  | ret (a : α)
  | ask (r : R) (k : A r → Prog A α)

namespace Prog

def bind : Prog A α → (α → Prog A β) → Prog A β
  | .ret a, f => f a
  | .ask r k, f => .ask r fun x => (k x).bind f

instance : Monad (Prog A) where
  pure := .ret
  bind := bind

def request (r : R) : Prog A (A r) := .ask r .ret

@[simp] theorem ret_bind (a : α) (f : α → Prog A β) : (pure a >>= f : Prog A β) = f a := rfl

@[simp] theorem ask_bind (r : R) (k : A r → Prog A α) (f : α → Prog A β) :
    ((.ask r k : Prog A α) >>= f) = .ask r fun x => k x >>= f := rfl

theorem bind_assoc (m : Prog A α) (f : α → Prog A β) (g : β → Prog A γ) : m >>= f >>= g = m >>= fun a => f a >>= g := by
  induction m with
  | ret a => rfl
  | ask r k ih => exact congrArg (Prog.ask r) (funext ih)

theorem bind_congr {f g : α → Prog A β} (m : Prog A α) (same : ∀ a, f a = g a) : m >>= f = m >>= g :=
  congrArg (m >>= ·) (funext same)

end Prog

/-! ## Two kinds of requests -/

section
variable {S : Type} {B : S → Type}

def Prog.left : Prog A α → Prog (Sum.elim A B) α
  | .ret a => .ret a
  | .ask r k => .ask (.inl r) fun x => (k x).left

end

/-! ## Execution without interference -/

section
variable {σ ε : Type}

def Prog.exec (perform : (r : R) → Comp σ ε (A r)) : Prog A α → Comp σ ε α
  | .ret a => pure a
  | .ask r k => do
    let x ← perform r
    (k x).exec perform

/-- Run alone from `s`, the program ends as `Q` says or stops as `E` allows. -/
def Goes (perform : (r : R) → Comp σ ε (A r)) (E : ε → Prop) (Q : α → σ → Prop) : Prog A α → σ → Prop
  | .ret a, s => Q a s
  | .ask r k, s => ends (perform r) E (fun x => Goes perform E Q (k x)) s

variable {perform : (r : R) → Comp σ ε (A r)} {E : ε → Prop} {s : σ} {m : Prog A α} {Q : β → σ → Prop} {r : R}
  {Q' : α → σ → Prop}

theorem goes_bind (m : Prog A α) (f : α → Prog A β) :
    Goes perform E Q (m >>= f) = Goes perform E (fun a => Goes perform E Q (f a)) m := by
  induction m with
  | ret a => rfl
  | ask r k ih =>
    funext s
    simp only [Prog.ask_bind, Goes, ih]

theorem goes_ok {Q : A r → σ → Prop} {x : A r} {t : σ} (taken : (perform r).run s = .ok (x, t)) (after : Q x t) :
    Goes perform E Q (Prog.request r) s := by
  change ends (perform r) E Q s
  simpa only [ends, taken] using after

theorem goes_stop {Q : A r → σ → Prop} {stop : ε} (taken : (perform r).run s = .error stop) (allowed : E stop) :
    Goes perform E Q (Prog.request r) s := by
  change ends (perform r) E Q s
  simpa only [ends, taken] using allowed

theorem goes_next {f : A r → Prog A β} {x : A r} {t : σ} (taken : (perform r).run s = .ok (x, t))
    (rest : Goes perform E Q (f x) t) : Goes perform E Q (Prog.request r >>= f) s := by
  exact goes_ok taken rest

theorem Goes.mono {Q : α → σ → Prop} (goes : Goes perform E Q m s) (weaker : ∀ a t, Q a t → Q' a t) :
    Goes perform E Q' m s := by
  induction m generalizing s with
  | ret a => exact weaker a s goes
  | ask r k ih => exact ends.mono goes fun x t after => ih x after

theorem Goes.bind {f : α → Prog A β} (first : Goes perform E Q' m s)
    (rest : ∀ a t, Q' a t → Goes perform E Q (f a) t) : Goes perform E Q (m >>= f) s := by
  rw [goes_bind]
  exact first.mono rest

theorem Goes.exec {Q : α → σ → Prop} (goes : Goes perform E Q m s) : ends (m.exec perform) E Q s := by
  induction m generalizing s with
  | ret a => exact (ends_pure ..).mpr goes
  | ask r k ih =>
    rw [Prog.exec, ends_bind]
    exact ends.mono goes fun a t next => ih a next

end

/-! ## Contracts

What a thread owns is a value of `H`. A contract says when a thread may ask for an operation and what
it may own afterwards; a program is safe if it keeps to the contract whatever the answers are. -/

structure Contract {R : Type} (A : R → Type) (H : Type) where
  pre : R → H → Prop
  post : (r : R) → H → A r → H → Prop

variable {H : Type} (c : Contract A H)

def Safe (Q : α → H → Prop) : Prog A α → H → Prop
  | .ret a, h => Q a h
  | .ask r k, h => c.pre r h ∧ ∀ x h', c.post r h x h' → Safe Q (k x) h'

variable {c} {Q Q' : α → H → Prop} {h : H}

@[simp] theorem safe_pure (a : α) : Safe c Q (pure a) h ↔ Q a h := Iff.rfl

@[simp] theorem safe_bind {Q : β → H → Prop} (m : Prog A α) (f : α → Prog A β) :
    Safe c Q (m >>= f) = Safe c (fun a => Safe c Q (f a)) m := by
  induction m with
  | ret a => rfl
  | ask r k ih =>
    funext h
    simp only [Prog.ask_bind, Safe, ih]

theorem Safe.mono (safe : Safe c Q m h) (weaker : ∀ a h', Q a h' → Q' a h') : Safe c Q' m h := by
  induction m generalizing h with
  | ret a => exact weaker a h safe
  | ask r k ih => exact ⟨safe.1, fun x h' post => ih x (safe.2 x h' post)⟩

/-! ### Contracts together -/

def Contract.prod {K : Type} (c : Contract A H) (d : Contract A K) : Contract A (H × K) where
  pre r h := c.pre r h.1 ∧ d.pre r h.2
  post r h x h' := c.post r h.1 x h'.1 ∧ d.post r h.2 x h'.2

theorem Safe.prod {K : Type} {d : Contract A K} {P : α → K → Prop} {k : K} (first : Safe c Q m h)
    (second : Safe d P m k) : Safe (c.prod d) (fun a h => Q a h.1 ∧ P a h.2) m (h, k) := by
  induction m generalizing h k with
  | ret a => exact ⟨first, second⟩
  | ask r next ih =>
    refine ⟨⟨first.1, second.1⟩, ?_⟩
    rintro x ⟨h', k'⟩ ⟨post, post'⟩
    exact ih x (first.2 x h' post) (second.2 x k' post')

section
variable {S : Type} {B : S → Type}

def Contract.sum (c : Contract A H) (d : Contract B H) : Contract (Sum.elim A B) H where
  pre
    | .inl r => c.pre r
    | .inr r => d.pre r
  post
    | .inl r => c.post r
    | .inr r => d.post r

theorem Safe.left {d : Contract B H} (safe : Safe c Q m h) : Safe (c.sum d) Q m.left h := by
  induction m generalizing h with
  | ret a => exact safe
  | ask r k ih => exact ⟨safe.1, fun x h' post => ih x (safe.2 x h' post)⟩

end

end

end Xv6.Lib
