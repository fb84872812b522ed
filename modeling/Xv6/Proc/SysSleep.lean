import Xv6.Lib.Run

namespace Xv6.Ticks
open Lib

/-! ## `sys_sleep`

A process in `sys_sleep`, the clock interrupts that count `ticks`, and whatever else wakes it. Only
the process at the test of its loop holds `tickslock` at a boundary between two steps. -/

inductive Pc where
  | enter
  | test
  | asleep
  | woken
  | returned (r : Int)
deriving DecidableEq

/-- `elapsed` is history: the clock interrupts since `ticks0` was read. -/
structure State where
  ticks : BitVec 32
  ticks0 : BitVec 32
  n : BitVec 32
  killed : Bool
  pc : Pc
  elapsed : Nat

inductive Event where
  | next
  | clockintr
  | wakeup
  | kill

def wakeup (s : State) : State := if s.pc = .asleep then { s with pc := .woken } else s

def sysSleep (s : State) : Option State :=
  match s.pc with
  | .enter => some { s with ticks0 := s.ticks, elapsed := 0, pc := .test }
  | .test =>
    -- `ticks - ticks0 < n` compares a `uint` with an `int`: both sides are unsigned
    if (s.ticks - s.ticks0).ult s.n then
      some { s with pc := if s.killed then .returned (-1) else .asleep }
    else some { s with pc := .returned 0 }
  | .woken => some { s with pc := .test }
  | .asleep | .returned _ => none

def step (s : State) : Event → Option State
  | .next => sysSleep s
  | .clockintr =>
    if s.pc = .test then none
    else some (wakeup { s with ticks := s.ticks + 1, elapsed := s.elapsed + 1 })
  | .wakeup => some (wakeup s)
  | .kill => some (wakeup { s with killed := true })

def start (ticks n : BitVec 32) : State := ⟨ticks, 0, n, false, .enter, 0⟩

def Punctual (s : State) : Event → Prop
  | .next => s.pc = .test → s.killed = false → ∀ t, step s .next = some t →
      (t.pc = .returned 0 ↔ max s.n.toInt 0 ≤ s.elapsed)
  | _ => True

/-- The argument is not negative, and the test does not come after a whole turn of the counter with
fewer than `n` ticks on the next. -/
def InTurn (s : State) : Event → Prop
  | .next => s.pc = .test → s.killed = false →
      0 ≤ s.n.toInt ∧ ((s.elapsed : Int) < s.n.toInt ∨ s.n.toInt ≤ (s.elapsed % 2 ^ 32 : Nat))
  | _ => True

structure Inv (s : State) : Prop where
  counted : s.pc ≠ .enter → s.ticks = s.ticks0 + BitVec.ofNat 32 s.elapsed
  negative : s.n.toInt < 0 → s.killed = true ∨ s.pc = .enter ∨ s.pc = .test ∧ s.elapsed = 0

section
variable {s t : State} {e : Event}

theorem sysSleep_test (test : s.pc = .test) (alive : s.killed = false) (taken : step s .next = some t) :
    t.pc = .returned 0 ↔ s.n.toNat ≤ (s.ticks - s.ticks0).toNat := by
  by_cases less : (s.ticks - s.ticks0).ult s.n
  · simp only [step, sysSleep, test, if_pos less, alive] at taken
    cases taken
    rw [BitVec.ult_iff_lt, BitVec.lt_def] at less
    exact iff_of_false (by simp) (Nat.not_le.mpr less)
  · simp only [step, sysSleep, test, if_neg less] at taken
    cases taken
    rw [BitVec.ult_iff_lt, BitVec.lt_def] at less
    exact iff_of_true rfl (Nat.not_lt.mp less)

theorem Inv.test_elapsed (inv : Inv s) (test : s.pc = .test) : (s.ticks - s.ticks0).toNat = s.elapsed % 2 ^ 32 := by
  have counted := inv.counted (by rw [test]; nofun)
  rw [counted, BitVec.add_comm, BitVec.add_sub_cancel, BitVec.toNat_ofNat]

theorem punctual_iff (inv : Inv s) : Punctual s e ↔ InTurn s e := by
  cases e with
  | next =>
    refine forall₂_congr fun test alive => ?_
    have value := BitVec.toInt_eq_toNat_cond s.n
    have elapsed := inv.test_elapsed test
    have negative := inv.negative
    have enabled : ∃ t, step s .next = some t := by
      simp only [step, sysSleep, test]
      split_ifs <;> exact ⟨_, rfl⟩
    have ends : (∀ t, step s .next = some t → (t.pc = .returned 0 ↔ max s.n.toInt 0 ≤ s.elapsed)) ↔
        (s.n.toNat ≤ s.elapsed % 2 ^ 32 ↔ max s.n.toInt 0 ≤ s.elapsed) := by
      rw [← elapsed]
      constructor
      · intro all
        obtain ⟨t, taken⟩ := enabled
        rw [← sysSleep_test test alive taken]
        exact all t taken
      · intro same t taken
        rw [sysSleep_test test alive taken]
        exact same
    rw [ends]
    rw [test, alive] at negative
    simp only [Bool.false_eq_true, reduceCtorEq, true_and, false_or] at negative
    split_ifs at value <;> omega
  | _ => exact Iff.rfl

theorem wakeup_inv (inv : Inv s) : Inv (wakeup s) := by
  unfold wakeup
  split_ifs with asleep
  · refine ⟨fun _ => inv.counted (by rw [asleep]; nofun), fun low => .inl ?_⟩
    have early := inv.negative low
    rw [asleep] at early
    simpa using early
  · exact inv

theorem step_inv (punctual : Punctual s e) (taken : step s e = some t) (inv : Inv s) : Inv t := by
  cases e with
  | next =>
    cases place : s.pc with
    | enter =>
      simp only [step, sysSleep, place] at taken
      cases taken
      exact ⟨fun _ => by simp, fun _ => .inr (.inr ⟨rfl, rfl⟩)⟩
    | test =>
      have counted := inv.counted (by rw [place]; nofun)
      have dead (low : s.n.toInt < 0) : s.killed = true := by
        by_contra alive
        have inTurn := (punctual_iff inv).mp punctual place (by simpa using alive)
        omega
      simp only [step, sysSleep, place] at taken
      split_ifs at taken
      all_goals
        cases taken
        exact ⟨fun _ => counted, fun low => .inl (dead low)⟩
    | woken =>
      simp only [step, sysSleep, place] at taken
      cases taken
      refine ⟨fun _ => inv.counted (by rw [place]; nofun), fun low => .inl ?_⟩
      have early := inv.negative low
      rw [place] at early
      simpa using early
    | asleep | returned r =>
      simp only [step, sysSleep, place] at taken
      cases taken
  | clockintr =>
    simp only [step] at taken
    split_ifs at taken with test
    cases taken
    refine wakeup_inv ⟨fun running => ?_, fun low => ?_⟩
    · rw [inv.counted running, BitVec.ofNat_add, BitVec.add_assoc]
      rfl
    · exact (inv.negative low).imp id fun early => .inl (early.resolve_right fun both => test both.1)
  | wakeup =>
    cases taken
    exact wakeup_inv inv
  | kill =>
    cases taken
    exact wakeup_inv ⟨inv.counted, fun _ => .inl rfl⟩

theorem sleep_punctual_iff (ticks n : BitVec 32) (es : List Event) :
    Meets step Punctual (start ticks n) es ↔ Meets step InTurn (start ticks n) es := by
  have start : Inv (start ticks n) := ⟨fun running => absurd rfl running, fun _ => .inr (.inl rfl)⟩
  exact meets_congr (fun _ _ _ => step_inv) (fun _ _ => punctual_iff) start

end

-- `sleep(-1)` goes to sleep at its first test.
theorem sleep_negative_late : ∃ s t, run step (start 0 (-1)) [.next] = some s ∧ step s .next = some t ∧
    s.pc = .test ∧ s.killed = false ∧ max s.n.toInt 0 ≤ s.elapsed ∧ t.pc = .asleep :=
  ⟨_, _, rfl, rfl, rfl, rfl, by decide, by decide⟩

end Xv6.Ticks
