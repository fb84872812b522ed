import Xv6.Lib.Run

namespace Xv6.Lock
open Lib Function

/-! ## Sleep-locks

One sleep-lock and any processes. A process stands at one of these places; the flag of the last
three tells whether it called `holdingsleep` as the holder of the lock. -/

inductive Pc where
  | out
  | acquireSpin
  | test
  | asleep
  | woken
  | setLocked
  | setPid
  | acquireReturn
  | inside
  | releaseSpin
  | clearLocked
  | clearPid
  | wakeup
  | releaseReturn
  | holdingSpin (holder : Bool)
  | holdingTest (holder : Bool)
  | holdingReturn (holder r : Bool)
  deriving DecidableEq

/-- `spin` is the holder of the spinlock `lk->lk`. -/
structure Sleeplock (P : Type) where
  locked : Bool
  pid : Nat
  spin : Option P
  pc : P → Pc

inductive SleepEvent (P : Type) where
  | acquiresleep (p : P)
  | releasesleep (p : P)
  | holdingsleep (p : P)
  | next (p : P)
  | wake (p : P)

section
variable {P : Type} [DecidableEq P]

def initsleeplock : Sleeplock P := ⟨false, 0, none, fun _ => .out⟩

namespace Sleeplock

def goto (s : Sleeplock P) (p : P) (c : Pc) : Sleeplock P := { s with pc := update s.pc p c }

def acquire (s : Sleeplock P) (p : P) (c : Pc) : Option (Sleeplock P) :=
  if s.spin = none then some { s.goto p c with spin := some p } else none

def release (s : Sleeplock P) (p : P) (c : Pc) : Sleeplock P := { s.goto p c with spin := none }

def wakeupAll (s : Sleeplock P) : Sleeplock P :=
  { s with pc := fun q => if s.pc q = .asleep then .woken else s.pc q }

end Sleeplock

/-- `sleep` gives up the spinlock in one step with going to sleep, and takes it again when it runs. -/
def sleepNext (pidOf : P → Nat) (s : Sleeplock P) (p : P) : Option (Sleeplock P) :=
  match s.pc p with
  | .out | .asleep | .inside => none
  | .acquireSpin => s.acquire p .test
  | .woken => s.acquire p .test
  | .test => if s.locked then some (s.release p .asleep) else some (s.goto p .setLocked)
  | .setLocked => some { s.goto p .setPid with locked := true }
  | .setPid => some { s.goto p .acquireReturn with pid := pidOf p }
  | .acquireReturn => some (s.release p .inside)
  | .releaseSpin => s.acquire p .clearLocked
  | .clearLocked => some { s.goto p .clearPid with locked := false }
  | .clearPid => some { s.goto p .wakeup with pid := 0 }
  | .wakeup => some (s.wakeupAll.goto p .releaseReturn)
  | .releaseReturn => some (s.release p .out)
  | .holdingSpin holder => s.acquire p (.holdingTest holder)
  | .holdingTest holder => some (s.goto p (.holdingReturn holder (s.locked && s.pid == pidOf p)))
  | .holdingReturn holder _ => some (s.release p (if holder then .inside else .out))

/-- `wake` stands for `kill` and for a `wakeup` meant for others. -/
def sleepStep (pidOf : P → Nat) (s : Sleeplock P) : SleepEvent P → Option (Sleeplock P)
  | .acquiresleep p => if s.pc p = .out then some (s.goto p .acquireSpin) else none
  | .releasesleep p => if s.pc p = .inside then some (s.goto p .releaseSpin) else none
  | .holdingsleep p =>
    if s.pc p = .out then some (s.goto p (.holdingSpin false))
    else if s.pc p = .inside then some (s.goto p (.holdingSpin true))
    else none
  | .next p => sleepNext pidOf s p
  | .wake p => if s.pc p = .asleep then some (s.goto p .woken) else none

end

/-! ## Who has what -/

section
variable {P : Type} {pidOf : P → Nat} {s t : Sleeplock P} {p q : P} {c start : Pc}

/-- The process is between the return of `acquiresleep` and its `releasesleep`. -/
def Pc.Holds : Pc → Bool
  | .inside | .holdingSpin true | .holdingTest true | .holdingReturn true _ => true
  | _ => false

/-- From the store to `lk->locked` in `acquiresleep` to the one in `releasesleep`. -/
def Pc.Owns : Pc → Bool
  | .setPid | .acquireReturn | .releaseSpin | .clearLocked => true
  | c => c.Holds

def Pc.Spins : Pc → Bool
  | .test | .setLocked | .setPid | .acquireReturn | .clearLocked | .clearPid | .wakeup | .releaseReturn
  | .holdingTest _ | .holdingReturn _ _ => true
  | _ => false

def Pc.SawFree (c : Pc) : Prop := c = .setLocked ∨ c = .clearPid

attribute [local simp] Pc.SawFree

structure Exclusive (pidOf : P → Nat) (s : Sleeplock P) : Prop where
  spin : ∀ p, s.spin = some p ↔ (s.pc p).Spins = true
  owner : s.locked = true ↔ ∃ p, (s.pc p).Owns = true
  one : ∀ p q, (s.pc p).Owns = true → (s.pc q).Owns = true → p = q
  pid : ∀ p, (s.pc p).Owns = true → s.pc p ≠ .setPid → s.pid = pidOf p
  free : ∀ p, (s.pc p).SawFree → s.locked = false
  answer : ∀ p holder r, s.pc p = .holdingReturn holder r → r = holder

/-- Process `p` goes to `c`, and some sleepers may wake. -/
structure Moved (s : Sleeplock P) (p : P) (c : Pc) (t : Sleeplock P) : Prop where
  here : t.pc p = c
  others : ∀ q ≠ p, t.pc q = s.pc q ∨ s.pc q = .asleep ∧ t.pc q = .woken

theorem Moved.others_same (went : Moved s p c t) (other : q ≠ p) :
    (t.pc q).Owns = (s.pc q).Owns ∧ (t.pc q).Spins = (s.pc q).Spins ∧ (t.pc q = .setPid ↔ s.pc q = .setPid) ∧
      ((t.pc q).SawFree ↔ (s.pc q).SawFree) ∧ ∀ holder r, t.pc q = .holdingReturn holder r → s.pc q = t.pc q := by
  rcases went.others q other with same | ⟨was, is⟩
  · simp [same]
  · simp [was, is, Pc.Owns, Pc.Holds, Pc.Spins]

section

variable (inv : Exclusive pidOf s)

include inv

theorem Exclusive.alone (one : (s.pc p).Spins = true) (other : (s.pc q).Spins = true) : q = p := by
  have held := (inv.spin q).mpr other
  rw [(inv.spin p).mpr one] at held
  exact (Option.some.inj held).symm

theorem Exclusive.locked_iff (p : P) :
    s.locked = true ↔ (s.pc p).Owns = true ∨ ∃ q ≠ p, (s.pc q).Owns = true := by grind [inv.owner]

theorem Exclusive.others_free (owns : (s.pc p).Owns = true) (other : q ≠ p) : (s.pc q).Owns = false := by grind [inv.one]

theorem Exclusive.spinning (place : s.pc p = start) (before : start.Spins = true) (after : c.Spins = true) :
    s.spin = some p ↔ c.Spins = true := by
  rw [inv.spin p, place, before, after]

end

theorem exclusive_initially : Exclusive pidOf (initsleeplock : Sleeplock P) where
  spin p := by simp [initsleeplock, Pc.Spins]
  owner := by simp [initsleeplock, Pc.Owns, Pc.Holds]
  one p q owns := by simp [initsleeplock, Pc.Owns, Pc.Holds] at owns
  pid p owns := by simp [initsleeplock, Pc.Owns, Pc.Holds] at owns
  free p _ := rfl
  answer p holder r is := by simp [initsleeplock] at is

theorem Pc.owns_of_holds (c : Pc) (holds : c.Holds = true) : c.Owns = true := by
  cases c <;> first | exact holds | rfl

variable [DecidableEq P]

theorem Moved.goto (s : Sleeplock P) (p : P) (c : Pc) : Moved s p c (s.goto p c) :=
  ⟨update_self .., fun _ other => .inl (update_of_ne other ..)⟩

section

variable (inv : Exclusive pidOf s)

include inv

theorem Exclusive.moved (went : Moved s p c t) (spinHere : t.spin = some p ↔ c.Spins = true)
    (spinOthers : ∀ q ≠ p, t.spin = some q ↔ s.spin = some q)
    (locked : t.locked = true ↔ c.Owns = true ∨ ∃ q ≠ p, (s.pc q).Owns = true)
    (alone : c.Owns = true → ∀ q ≠ p, (s.pc q).Owns = false) (pidHere : c.Owns = true → c ≠ .setPid → t.pid = pidOf p)
    (pidOthers : ∀ q ≠ p, (s.pc q).Owns = true → t.pid = s.pid) (freeHere : c.SawFree → t.locked = false)
    (freeOthers : ∀ q ≠ p, (s.pc q).SawFree → t.locked = false)
    (answer : ∀ holder r, c = .holdingReturn holder r → r = holder) : Exclusive pidOf t where
  spin q := by
    by_cases isP : q = p
    · rw [isP, went.here]
      exact spinHere
    · rw [spinOthers q isP, (went.others_same isP).2.1]
      exact inv.spin q
  owner := by
    rw [locked]
    constructor
    · rintro (mine | ⟨q, other, owns⟩)
      · exact ⟨p, went.here ▸ mine⟩
      · exact ⟨q, (went.others_same other).1 ▸ owns⟩
    · grind [went.here, went.others_same]
  one q r first second := by
    by_cases isQ : q = p <;> by_cases isR : r = p
    · rw [isQ, isR]
    · grind [went.here, went.others_same]
    · grind [went.here, went.others_same]
    · grind [went.others_same, inv.one]
  pid q owns past := by
    by_cases isP : q = p
    · grind [went.here]
    · grind [went.others_same, inv.pid]
  free q saw := by
    by_cases isP : q = p
    · rw [isP, went.here] at saw
      exact freeHere saw
    · rw [(went.others_same isP).2.2.2.1] at saw
      exact freeOthers q isP saw
  answer q holder r returns := by
    by_cases isP : q = p
    · rw [isP, went.here] at returns
      exact answer holder r returns
    · have before := (went.others_same isP).2.2.2.2 holder r returns
      exact inv.answer q holder r (before.trans returns)

theorem Exclusive.quiet (went : Moved s p c t) (flag : t.locked = s.locked) (pid : t.pid = s.pid)
    (spinHere : t.spin = some p ↔ c.Spins = true) (spinOthers : ∀ q ≠ p, t.spin = some q ↔ s.spin = some q)
    (owns : c.Owns = (s.pc p).Owns) (past : c.Owns = true → s.pc p ≠ .setPid) (freeHere : c.SawFree → s.locked = false)
    (answer : ∀ holder r, c = .holdingReturn holder r → r = holder) : Exclusive pidOf t := by
  refine inv.moved went spinHere spinOthers ?_ ?_ ?_ (fun _ _ _ => pid) (fun saw => flag.trans (freeHere saw)) ?_ answer
  · rw [flag, owns]
    exact inv.locked_iff p
  · rw [owns]
    exact fun mine q other => inv.others_free mine other
  · grind [inv.pid]
  · intro q _ saw
    rw [flag]
    exact inv.free q saw

theorem Exclusive.acquire (taken : s.acquire p c = some t) (place : s.pc p = start) (spins : c.Spins = true)
    (owns : c.Owns = start.Owns) (past : start ≠ .setPid) (notFree : ¬ c.SawFree)
    (answer : ∀ holder r, c ≠ .holdingReturn holder r) : Exclusive pidOf t := by
  subst place
  rw [Sleeplock.acquire] at taken
  split at taken
  next unheld =>
    cases taken
    have went := Moved.goto s p c
    refine inv.quiet (t := { s.goto p c with spin := some p }) ⟨went.here, went.others⟩ rfl rfl ?_ ?_ owns
      (fun _ => past) (fun saw => absurd saw notFree) (fun holder r is => absurd is (answer holder r))
    · exact ⟨fun _ => spins, fun _ => rfl⟩
    · intro q other
      simp [unheld, Ne.symm other]
  next => exact nomatch taken

theorem Exclusive.release (place : s.pc p = start) (spins : start.Spins = true) (rests : c.Spins = false)
    (owns : c.Owns = start.Owns) (past : start ≠ .setPid) (notFree : ¬ c.SawFree)
    (answer : ∀ holder r, c ≠ .holdingReturn holder r) : Exclusive pidOf (s.release p c) := by
  subst place
  have held := (inv.spin p).mpr spins
  have went := Moved.goto s p c
  refine inv.quiet (t := s.release p c) ⟨went.here, went.others⟩ rfl rfl ?_ ?_ owns (fun _ => past)
    (fun saw => absurd saw notFree) (fun holder r is => absurd is (answer holder r))
  · simp [Sleeplock.release, rests]
  · intro q other
    simp [Sleeplock.release, held, Ne.symm other]

theorem Exclusive.stay (went : Moved s p c t) (spin : t.spin = s.spin) (flag : t.locked = s.locked) (pid : t.pid = s.pid)
    (place : s.pc p = start) (spins : c.Spins = start.Spins) (owns : c.Owns = start.Owns) (past : start ≠ .setPid)
    (freeHere : c.SawFree → s.locked = false)
    (answer : ∀ holder r, c = .holdingReturn holder r → r = holder) : Exclusive pidOf t := by
  grind [inv.quiet, inv.spin]

end

/-! ## One lemma for each store -/

section

variable (inv : Exclusive pidOf s)

include inv

theorem Exclusive.setLocked (place : s.pc p = .setLocked) : Exclusive pidOf { s.goto p .setPid with locked := true } := by
  have unlocked := inv.free p (.inl place)
  have unowned (q : P) : (s.pc q).Owns = false := by grind [inv.owner.mpr]
  have went := Moved.goto s p .setPid
  refine inv.moved (t := { s.goto p .setPid with locked := true }) ⟨went.here, went.others⟩
    (inv.spinning place rfl rfl) (fun _ _ => Iff.rfl) ?_ (fun _ q _ => unowned q) (fun _ past => absurd rfl past)
    (fun _ _ _ => rfl) ?_ ?_ nofun
  · exact ⟨fun _ => .inl rfl, fun _ => rfl⟩
  · rintro (is | is) <;> exact nomatch is
  · intro q other saw
    have spins : (s.pc q).Spins = true := by
      rcases saw with is | is <;> rw [is] <;> rfl
    exact absurd (inv.alone (by rw [place]; rfl) spins) other

theorem Exclusive.setPid (place : s.pc p = .setPid) :
    Exclusive pidOf { s.goto p .acquireReturn with pid := pidOf p } := by
  have owns : (s.pc p).Owns = true := by rw [place]; rfl
  have went := Moved.goto s p .acquireReturn
  refine inv.moved (t := { s.goto p .acquireReturn with pid := pidOf p }) ⟨went.here, went.others⟩
    (inv.spinning place rfl rfl) (fun _ _ => Iff.rfl) ?_ (fun _ q other => inv.others_free owns other)
    (fun _ _ => rfl) ?_ ?_ (fun q _ saw => inv.free q saw) nofun
  · have locked := inv.locked_iff p
    rw [place] at locked
    exact locked
  · grind [inv.others_free]
  · rintro (is | is) <;> exact nomatch is

theorem Exclusive.clearLocked (place : s.pc p = .clearLocked) :
    Exclusive pidOf { s.goto p .clearPid with locked := false } := by
  have owns : (s.pc p).Owns = true := by rw [place]; rfl
  have went := Moved.goto s p .clearPid
  refine inv.moved (t := { s.goto p .clearPid with locked := false }) ⟨went.here, went.others⟩
    (inv.spinning place rfl rfl) (fun _ _ => Iff.rfl) ?_ nofun nofun (fun _ _ _ => rfl) (fun _ => rfl)
    (fun _ _ _ => rfl) nofun
  constructor
  · exact nofun
  · rintro (is | ⟨q, other, theirs⟩)
    · exact nomatch is
    · rw [inv.others_free owns other] at theirs
      exact nomatch theirs

theorem Exclusive.clearPid (place : s.pc p = .clearPid) : Exclusive pidOf { s.goto p .wakeup with pid := 0 } := by
  have unlocked := inv.free p (.inr place)
  have went := Moved.goto s p .wakeup
  refine inv.moved (t := { s.goto p .wakeup with pid := 0 }) ⟨went.here, went.others⟩
    (inv.spinning place rfl rfl) (fun _ _ => Iff.rfl) ?_ nofun nofun ?_ (fun _ => unlocked)
    (fun _ _ _ => unlocked) nofun
  · have locked := inv.locked_iff p
    rw [place] at locked
    exact locked
  · grind [inv.owner.mpr]

end

/-! ## Every step -/

theorem Exclusive.next (distinct : Injective pidOf) (inv : Exclusive pidOf s) (taken : sleepNext pidOf s p = some t) :
    Exclusive pidOf t := by
  rw [sleepNext] at taken
  cases place : s.pc p with
  | out => simp [place] at taken
  | asleep => simp [place] at taken
  | inside => simp [place] at taken
  | acquireSpin | woken | releaseSpin =>
    simp only [place] at taken
    exact inv.acquire taken place rfl rfl nofun (by simp) nofun
  | test =>
    simp only [place] at taken
    split at taken
    next =>
      cases taken
      exact inv.release place rfl rfl rfl nofun (by simp) nofun
    next free =>
      cases taken
      exact inv.stay (.goto s p _) rfl rfl rfl place rfl rfl nofun (fun _ => by simpa using free) nofun
  | setLocked => grind [inv.setLocked]
  | setPid => grind [inv.setPid]
  | acquireReturn | releaseReturn =>
    simp only [place, Option.some.injEq] at taken
    exact taken ▸ inv.release place rfl rfl rfl nofun (by simp) nofun
  | clearLocked => grind [inv.clearLocked]
  | clearPid => grind [inv.clearPid]
  | wakeup =>
    simp only [place, Option.some.injEq] at taken
    subst taken
    refine inv.stay (c := .releaseReturn) ⟨update_self .., fun q other => ?_⟩ rfl rfl rfl place rfl rfl nofun (by simp) nofun
    simp only [Sleeplock.goto, Sleeplock.wakeupAll, update_of_ne other]
    by_cases sleeps : s.pc q = .asleep
    · exact .inr ⟨sleeps, if_pos sleeps⟩
    · exact .inl (if_neg sleeps)
  | holdingSpin holder =>
    simp only [place] at taken
    exact inv.acquire taken place rfl (by cases holder <;> rfl) nofun (by simp) nofun
  | holdingTest holder =>
    simp only [place, Option.some.injEq] at taken
    subst taken
    have spins : (s.pc p).Spins = true := by rw [place]; rfl
    -- the pid belongs to the owner: the store of the pid is made under the spinlock
    have answer : (s.locked && s.pid == pidOf p) = holder := by
      cases holder with
      | true =>
        have owns : (s.pc p).Owns = true := by rw [place]; rfl
        rw [inv.owner.mpr ⟨p, owns⟩, inv.pid p owns (by simp [place])]
        simp
      | false =>
        cases flag : s.locked with
        | false => rfl
        | true =>
          obtain ⟨q, owns⟩ := inv.owner.mp flag
          have other : q ≠ p := by
            rintro rfl
            simp [place, Pc.Owns, Pc.Holds] at owns
          have past : s.pc q ≠ .setPid := fun is => other (inv.alone spins (by rw [is]; rfl))
          rw [inv.pid q owns past]
          simpa using fun same => other (distinct same)
    refine inv.stay (.goto s p _) rfl rfl rfl place rfl (by cases holder <;> rfl) nofun (by simp) fun holder' r is => ?_
    simp only [Pc.holdingReturn.injEq] at is
    rw [← is.1, ← is.2, answer]
  | holdingReturn holder r =>
    simp only [place, Option.some.injEq] at taken
    subst taken
    cases holder <;> exact inv.release place rfl rfl rfl nofun (by simp) nofun

theorem Exclusive.start_call (inv : Exclusive pidOf s) (place : s.pc p = start) (spins : c.Spins = start.Spins)
    (owns : c.Owns = start.Owns) (past : start ≠ .setPid) (notFree : ¬ c.SawFree)
    (answer : ∀ holder r, c ≠ .holdingReturn holder r) : Exclusive pidOf (s.goto p c) :=
  inv.stay (.goto s p c) rfl rfl rfl place spins owns past (fun saw => absurd saw notFree)
    fun holder r is => absurd is (answer holder r)

theorem Exclusive.step (distinct : Injective pidOf) {e : SleepEvent P} (inv : Exclusive pidOf s)
    (taken : sleepStep pidOf s e = some t) : Exclusive pidOf t := by
  cases e with
  | next p => exact inv.next distinct taken
  | acquiresleep p | releasesleep p | wake p =>
    obtain ⟨place, is⟩ := Option.ite_none_right_eq_some.mp taken
    cases is
    exact inv.start_call place rfl rfl nofun (by simp) nofun
  | holdingsleep p =>
    simp only [sleepStep] at taken
    split at taken
    next place =>
      cases taken
      exact inv.start_call place rfl rfl nofun (by simp) nofun
    next =>
      obtain ⟨place, is⟩ := Option.ite_none_right_eq_some.mp taken
      cases is
      exact inv.start_call place rfl rfl nofun (by simp) nofun

theorem sleeplock_excludes (pidOf : P → Nat) (distinct : Injective pidOf) (events : List (SleepEvent P)) (s : Sleeplock P)
    (taken : run (sleepStep pidOf) initsleeplock events = some s) :
    (∀ p q, (s.pc p).Holds = true → (s.pc q).Holds = true → p = q) ∧
      ∀ p holder r, s.pc p = .holdingReturn holder r → (r = true ↔ (s.pc p).Holds = true) := by
  have inv : Exclusive pidOf s :=
    run_inductive (fun _ _ _ taken inv => inv.step distinct taken) exclusive_initially taken
  refine ⟨fun p q first second => inv.one p q (Pc.owns_of_holds _ first) (Pc.owns_of_holds _ second), ?_⟩
  intro p holder r place
  rw [inv.answer p holder r place, place]
  cases holder <;> simp [Pc.Holds]

end

theorem sleeplock_excludes_twoProcesses : ∃ s, run (sleepStep fun p : Bool => if p then 2 else 1) initsleeplock
        [.acquiresleep true, .next true, .next true, .next true, .next true, .next true,
          .acquiresleep false, .next false, .next false, .holdingsleep true, .next true, .next true] = some s ∧
      (∀ p q, (s.pc p).Holds = true → (s.pc q).Holds = true → p = q) ∧
        ∀ p holder r, s.pc p = .holdingReturn holder r → (r = true ↔ (s.pc p).Holds = true) := by
  refine exists_some_of (fun s => s.pc true = .holdingReturn true true ∧ s.pc false = .asleep) (by decide +kernel)
    fun s taken _ => ?_
  have distinct : Injective fun p : Bool => if p then 2 else 1 := by
    intro p q
    cases p <;> cases q <;> simp
  exact sleeplock_excludes _ distinct _ s taken

end Xv6.Lock
