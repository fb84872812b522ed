import Xv6.Proc.Sleepers

namespace Xv6.Scheduler
open Lib
open ProcTable (Slot ProcState Chan Proc initproc freeproc)

/-! ## Tests and wakeups over time

A clock counts the steps. It dates the last test of each thread that waits for a condition, and the
wakeups of the threads that make one true. -/

structure Wakeup where
  ch : Nat
  began : Nat
  ended : Nat

structure Watch where
  now : Nat
  tested : Slot → Nat
  began : Slot → Nat
  completed : List Wakeup
  condAt : Nat → Nat → Bool -- the conditions at each moment up to now

inductive Note where
  | tested (p : Slot)
  | began (p : Slot)
  | completed (p : Slot) (ch : Nat)

def Watch.add (w : Watch) : Note → Watch
  | .tested p => { w with tested := Function.update w.tested p (w.now + 1) }
  | .began p => { w with began := Function.update w.began p (w.now + 1) }
  | .completed p ch => { w with completed := ⟨ch, w.began p, w.now + 1⟩ :: w.completed }

def Watch.tick (w : Watch) (cond : Nat → Bool) (n : Option Note) : Watch :=
  let noted := match n with
    | none => w
    | some new => w.add new
  { noted with now := w.now + 1, condAt := Function.update w.condAt (w.now + 1) cond }

section
variable {w : Watch} {cond : Nat → Bool} {n : Option Note} {p : Slot}

theorem tick_tested_self : (w.tick cond (some (.tested p))).tested p = w.now + 1 := by
  simp [Watch.tick, Watch.add]

theorem tick_tested (other : n ≠ some (.tested p)) : (w.tick cond n).tested p = w.tested p := by
  rcases n with _ | q | q | ⟨q, ch⟩
  · rfl
  · have different : p ≠ q := by
      rintro rfl
      exact other rfl
    simp [Watch.tick, Watch.add, different]
  · rfl
  · rfl

theorem tick_began (other : n ≠ some (.began p)) : (w.tick cond n).began p = w.began p := by
  rcases n with _ | q | q | ⟨q, ch⟩
  · rfl
  · rfl
  · have different : p ≠ q := by
      rintro rfl
      exact other rfl
    simp [Watch.tick, Watch.add, different]
  · rfl

theorem tick_completed {k : Wakeup} (member : k ∈ (w.tick cond n).completed) :
    k ∈ w.completed ∨ ∃ q ch, n = some (.completed q ch) ∧ k = ⟨ch, w.began q, w.now + 1⟩ := by
  rcases n with _ | q | q | ⟨q, ch⟩
  · exact .inl member
  · exact .inl member
  · exact .inl member
  · rcases List.mem_cons.mp member with rfl | old
    · exact .inr ⟨q, ch, rfl, rfl⟩
    · exact .inl old

end

section
variable {Cpu : Type} [DecidableEq Cpu]

def note (s : State Cpu) (e : Cpu × Choice) : Option Note :=
  match s.running e.1, e.2 with
  | .thread p, .go _ =>
    match s.pc p with
    | .consumeTest _ => some (.tested p)
    | .produceSet _ => some (.began p)
    | .wakeAcquire _ i (.produce ch) => if slotAt i = none then some (.completed p ch) else none
    | _ => none
  | _, _ => none

structure Watched (Cpu : Type) where
  state : State Cpu
  watch : Watch

def watchedStep (x : Watched Cpu) (e : Cpu × Choice) : Option (Watched Cpu) :=
  (step x.state e).map fun t => ⟨t, x.watch.tick t.cond (note x.state e)⟩

def watched (cond : Nat → Bool) : Watched Cpu := ⟨initial cond, ⟨0, fun _ => 0, fun _ => 0, [], fun _ => cond⟩⟩

/-! ## Where sleepers and wakers are -/

structure Place (s : State Cpu) (p : Slot) : Prop where
  active : ∀ r, about (s.pc p) = some r → ∃ c, s.running c = .thread p
  asleep : (s.proc p).state = .sleeping → ∃ r, s.pc p = .sleepSwtch r ∨ s.pc p = .sleepTidy r
  ready : ∀ r, s.pc p = .sleepState r ∨ s.pc p = .sleepSwtch r → (s.proc p).chan = some (r.chan p)
  parked : ∀ r, s.pc p = .sleepTidy r → (s.proc p).state = .sleeping → (s.proc p).chan = some (r.chan p)
  waking : ∀ chan ch i, scan (s.pc p) = some (chan, ch, i) → chan = .other ch

section
variable {s t : State Cpu} {c : Cpu} {p q : Slot} {instr : Instr} {ch : Nat} {e : Cpu × Choice} {pc : Pc} {m : Memory}
  {choice : Choice} {chan : Chan}

theorem sleepSwtch_of_expected (asleep : expected pc = .sleeping) : ∃ r, pc = .sleepSwtch r := by
  cases pc with
  | sleepSwtch r => exact ⟨r, rfl⟩
  | _ => cases asleep

theorem about_of_ready {r : Sleeper} (ready : pc = .sleepState r ∨ pc = .sleepSwtch r) : about pc = some r := by
  rcases ready with rfl | rfl <;> rfl

omit [DecidableEq Cpu] in
theorem Place.kept (place : Place s q) (kept : Kept s t q) (inv : Inv t) : Place t q := by
  have active (r : Sleeper) (before : about (t.pc q) = some r) : ∃ c, t.running c = .thread q := by
    rcases kept.pc with same | ⟨first, -⟩
    · rw [same] at before
      obtain ⟨c, on⟩ := place.active r before
      exact ⟨c, kept.on c on⟩
    · rw [first] at before
      cases before
  have pc {k : Pc} (found : t.pc q = k) (other : k ≠ .forkret) : s.pc q = k := by
    rcases kept.pc with same | ⟨first, -⟩
    · rw [← same, found]
    · exact absurd (found.symm.trans first) other
  refine ⟨active, ?_, ?_, ?_, ?_⟩
  · grind [asleep, kept.pc, kept.asleep]
  · intro r ready
    -- A thread on a CPU is allocated, so that `freeproc` has not cleared its channel.
    obtain ⟨c, on⟩ := active r (about_of_ready ready)
    have allocated : (t.proc q).state ≠ .unused := by
      rw [inv.state c q on]
      exact (expected_ne_used _).2
    rw [kept.chan allocated]
    apply place.ready r
    rcases ready with state | swtch
    · exact .inl (pc state nofun)
    · exact .inr (pc swtch nofun)
  · grind [kept.chan, place.parked, kept.asleep]
  · intro chan ch i found
    rcases kept.pc with same | ⟨first, -⟩
    · rw [same] at found
      exact place.waking chan ch i found
    · rw [first] at found
      cases found

theorem wakeTestCode_next (m : Memory) (chan : Chan) (q : Slot) (r : Waker) :
    (wakeTestCode m chan q r).next = .wakeRelease chan q r := by
  unfold wakeTestCode
  split_ifs <;> rfl

theorem wakeTestCode_ne_swtch (m : Memory) (chan : Chan) (q : Slot) (r : Waker) (k : Pc) :
    wakeTestCode m chan q r ≠ .swtch k := by
  unfold wakeTestCode
  split_ifs <;> nofun

theorem Turn.about_swtch {k : Pc} (turn : Turn m p pc instr) (switch : instr = .swtch k) : about k = none := by
  cases turn with
  | plain _ next =>
    subst switch
    exact next.about
  | sleep r =>
    obtain rfl := Instr.swtch.inj switch
    rfl
  | visit chan q ch => exact absurd switch (wakeTestCode_ne_swtch m chan q _ k)
  | _ => cases switch

theorem Turn.asleep_swtch {k : Pc} (turn : Turn m p pc instr) (switch : instr = .swtch k)
    (asleep : expected pc = .sleeping) : ∃ r, k = .sleepTidy r := by
  cases turn with
  | plain _ next awake => exact absurd asleep awake
  | sleep r =>
    obtain rfl := Instr.swtch.inj switch
    exact ⟨r, rfl⟩
  | visit chan q ch => exact absurd switch (wakeTestCode_ne_swtch m chan q _ k)
  | _ => cases switch

theorem Turn.waking {i : Nat} (turn : Turn m p pc instr)
    (found : scan instr.next = some (chan, ch, i)) : chan = .other ch ∨ ∃ j, scan pc = some (chan, ch, j) := by
  cases turn with
  | plain _ next =>
    rw [next.scan] at found
    cases found
  | produce ch' place =>
    cases found
    exact .inl rfl
  | skip chan' ch' place =>
    cases found
    exact .inr ⟨p, by rw [place]; rfl⟩
  | lock chan' q ch' place =>
    cases found
    exact .inr ⟨q, by rw [place]; rfl⟩
  | visit chan' q ch' place => grind [scan, wakeTestCode_next]
  | release chan' q ch' place =>
    cases found
    exact .inr ⟨q + 1, by rw [place]; rfl⟩
  | _ => cases found

theorem Place.execute (place : Place s p) (inv : Inv s) (inv' : Inv t) (on : s.running c = .thread p)
    (found : fetch s.toMemory p choice (s.pc p) = some instr) (executed : execute s c p instr = some t) : Place t p := by
  have turn := fetch_turn (inv.proper p) found
  have pc := execute_pc executed
  constructor
  · intro r before
    rcases execute_running executed with same | ⟨k, switch, -⟩
    · exact ⟨c, by rw [same, on]⟩
    · rw [pc, switch] at before
      rw [show about (Instr.swtch k).next = none from turn.about_swtch switch] at before
      cases before
  · intro asleep
    rcases execute_running executed with same | ⟨k, switch, -⟩
    · rw [inv'.state c p (by rw [same, on])] at asleep
      obtain ⟨r, place⟩ := sleepSwtch_of_expected asleep
      exact ⟨r, .inl place⟩
    · subst switch
      cases executed
      obtain ⟨r, tidy⟩ := turn.asleep_swtch rfl ((inv.state c p on).symm.trans asleep)
      exact ⟨r, .inr (pc.trans tidy)⟩
  · intro r ready
    rw [pc] at ready
    cases turn with
    | plain _ next =>
      have none := next.about
      rw [about_of_ready ready] at none
      cases none
    | chan r' =>
      cases executed
      rcases ready with state | swtch
      · obtain rfl := Pc.sleepState.inj state
        simp [State.goto, State.setProc]
      · cases swtch
    | state r' before =>
      cases executed
      rcases ready with state | swtch
      · cases state
      · obtain rfl := Pc.sleepSwtch.inj swtch
        simpa [State.goto, State.setProc] using place.ready r' (.inl before)
    | visit chan q ch => grind [wakeTestCode_next]
    | _ =>
      rcases ready with state | swtch
      · cases state
      · cases swtch
  · intro r tidy asleep
    rw [pc] at tidy
    cases turn with
    | plain _ next =>
      have none := next.parked
      rw [tidy] at none
      cases none
    | sleep r' before =>
      cases executed
      obtain rfl := Pc.sleepTidy.inj tidy
      exact place.ready r' (.inr before)
    | visit chan q ch =>
      rw [wakeTestCode_next] at tidy
      cases tidy
    | _ => cases tidy
  · grind [turn.waking, place.waking]

theorem step_cases (taken : step s e = some t) :
    (∃ pc, s.running e.1 = .scheduler pc ∧ schedStep s e.1 pc = some t) ∨
    ∃ p instr, s.running e.1 = .thread p ∧ fetch s.toMemory p e.2 (s.pc p) = some instr ∧
      execute s e.1 p instr = some t := by
  unfold step at taken
  cases place : s.running e.1 with
  | scheduler pc =>
    simp only [place] at taken
    exact .inl ⟨pc, rfl, taken⟩
  | thread p =>
    simp only [place] at taken
    obtain ⟨instr, found, executed⟩ := Option.bind_eq_some_iff.mp taken
    exact .inr ⟨p, instr, rfl, found, executed⟩

theorem step_places (taken : step s e = some t) (inv : Inv s) (places : ∀ q, Place s q) (q : Slot) : Place t q := by
  have inv' := step_inv taken inv
  rcases step_cases taken with ⟨pc, on, scheduled⟩ | ⟨p, instr, on, found, executed⟩
  · exact (places q).kept (schedStep_kept on scheduled q) inv'
  · by_cases same : q = p
    · subst same
      exact (places q).execute inv inv' on found executed
    · exact (places q).kept (execute_kept inv on found executed same) inv'

/-! ## A sleeper that has tested its condition -/

def Pending (s : State Cpu) (p : Slot) (ch : Nat) : Prop :=
  about (s.pc p) = some (.consume ch) ∨ s.pc p = .sleepTidy (.consume ch) ∧ (s.proc p).state = .sleeping

omit [DecidableEq Cpu] in
theorem Pending.kept (pending : Pending t q ch) (kept : Kept s t q) : Pending s q ch := by
  rcases kept.pc with same | ⟨first, -⟩
  · rcases pending with before | ⟨tidy, asleep⟩
    · exact .inl (by rw [← same, before])
    · exact .inr ⟨by rw [← same, tidy], kept.asleep asleep⟩
  · rcases pending with before | ⟨tidy, -⟩
    · rw [first] at before
      cases before
    · rw [first] at tidy
      cases tidy

omit [DecidableEq Cpu] in
theorem Pending.not_scan (pending : Pending s p ch) : scan (s.pc p) = none := by
  rcases pending with before | ⟨tidy, -⟩
  · cases place : s.pc p <;> first | rfl | rw [place] at before; cases before
  · rw [tidy]
    rfl

theorem fetch_consumeTest (found : fetch m p choice (.consumeTest ch) = some instr) : ∃ ok, choice = .go ok := by
  cases choice with
  | go ok => exact ⟨ok, rfl⟩
  | interrupt => grind [fetch, interruptible, locks]
  | call _ => cases found

theorem pending_step (taken : step s e = some t) (inv : Inv s) (pending : Pending t q ch) :
    Pending s q ch ∨ note s e = some (.tested q) := by
  rcases step_cases taken with ⟨pc, on, scheduled⟩ | ⟨p, instr, on, found, executed⟩
  · exact .inl (pending.kept (schedStep_kept on scheduled q))
  · by_cases same : q = p
    · subst same
      have turn := fetch_turn (inv.proper q) found
      have pc := execute_pc executed
      unfold Pending at pending
      rw [pc] at pending
      cases turn with
      | plain _ next =>
        rcases pending with before | ⟨tidy, -⟩
        · rw [next.about] at before
          cases before
        · have none := next.parked
          rw [tidy] at none
          cases none
      | test ch' place => grind [fetch_consumeTest, note]
      | lockOwn r place | unlock r place | chan r place | state r place =>
          exact .inl (.inl (by rw [place]; exact pending.resolve_right nofun))
      | sleep r place =>
        rcases pending with before | ⟨tidy, -⟩
        · cases before
        · obtain rfl := Pc.sleepTidy.inj tidy
          exact .inl (.inl (by rw [place]; rfl))
      | visit chan q ch' =>
        rw [wakeTestCode_next] at pending
        rcases pending with before | ⟨tidy, -⟩
        · cases before
        · cases tidy
      | _ =>
        rcases pending with before | ⟨tidy, -⟩
        · cases before
        · cases tidy
    · exact .inl (pending.kept (execute_kept inv on found executed same))

/-! ## The producer's scan of the table -/

omit [DecidableEq Cpu] in
theorem Pending.visited (pending : Pending s q ch) (inv : Inv s) (places : ∀ q, Place s q)
    (on : s.running c = .thread p) (place : s.pc p = .wakeTest (.other ch) q (.produce ch)) :
    s.pc q = .sleepTidy (.consume ch) ∧ (s.proc q).state = .sleeping ∧ (s.proc q).chan = some (.other ch) := by
  rcases pending with before | ⟨tidy, asleep⟩
  · obtain ⟨c', on'⟩ := (places q).active _ before
    have shared : ∃ l, l ∈ locks q (s.pc q) ∧ l ∈ locks p (s.pc p) := by
      rw [place]
      rcases about_locks before with user | own
      · exact ⟨.user ch, user, by simp [locks, Waker.locks]⟩
      · exact ⟨.proc q, own, by simp [locks]⟩
    obtain ⟨l, sleeper, waker⟩ := shared
    have first := (inv.lock l c').mpr (by rwa [held_thread on'])
    have second := (inv.lock l c).mpr (by rwa [held_thread on])
    rw [first] at second
    cases second
    obtain rfl := Running.thread.inj (on.symm.trans on')
    rw [place] at before
    cases before
  · exact ⟨tidy, asleep, (places q).parked _ tidy asleep⟩

theorem visit_wakes (inv : Inv s) (places : ∀ q, Place s q) (on : s.running c = .thread p)
    (place : s.pc p = .wakeTest (.other ch) q (.produce ch)) (pending : Pending s q ch)
    (executed : execute s c p (wakeTestCode s.toMemory (.other ch) q (.produce ch)) = some t) : ¬ Pending t q ch := by
  obtain ⟨tidy, asleep, chan⟩ := pending.visited inv places on place
  have other : q ≠ p := by
    rintro rfl
    rw [place] at tidy
    cases tidy
  rw [wakeTestCode, if_pos ⟨asleep, chan⟩] at executed
  cases executed
  rintro (before | ⟨-, asleep'⟩)
  · rw [goto_pc_of_ne _ _ q other] at before
    change about (s.pc q) = _ at before
    rw [tidy] at before
    cases before
  · simp [State.goto, State.setProc] at asleep'

omit [DecidableEq Cpu] in
theorem note_began {q : Slot} (noted : note s e = some (.began q)) :
    s.running e.1 = .thread q ∧ scan (s.pc q) = none := by
  unfold note at noted
  split at noted
  · rename_i p _ on _
    split at noted
    · cases noted
    · rename_i place
      obtain rfl := Note.began.inj (Option.some.inj noted)
      exact ⟨on, by rw [place]; rfl⟩
    · split_ifs at noted
      cases noted
    · cases noted
  · cases noted

omit [DecidableEq Cpu] in
theorem note_completed (noted : note s e = some (.completed q ch)) :
    ∃ chan i, scan (s.pc q) = some (chan, ch, i) ∧ NPROC ≤ i := by
  unfold note at noted
  split at noted
  · split at noted
    · cases noted
    · cases noted
    · rename_i chan i ch' place
      split_ifs at noted with last
      cases noted
      refine ⟨chan, i, by rw [place]; rfl, ?_⟩
      by_contra below
      simp [slotAt, Nat.lt_of_not_le below] at last
    · cases noted
  · cases noted

theorem scan_step {i : Nat} (taken : step s e = some t) (inv : Inv s) (places : ∀ q, Place s q)
    (found : scan (t.pc q) = some (chan, ch, i)) :
    i = 0 ∨ note s e ≠ some (.began q) ∧ ∃ j, scan (s.pc q) = some (chan, ch, j) ∧
      ∀ p : Slot, Pending s p ch → Pending t p ch → j ≤ p.val → i ≤ p.val := by
  have same (before : scan (s.pc q) = some (chan, ch, i)) :
      note s e ≠ some (.began q) ∧ ∃ j, scan (s.pc q) = some (chan, ch, j) ∧
        ∀ p : Slot, Pending s p ch → Pending t p ch → j ≤ p.val → i ≤ p.val := by
    refine ⟨?_, i, before, fun _ _ _ low => low⟩
    intro noted
    rw [(note_began noted).2] at before
    cases before
  rcases step_cases taken with ⟨pc, on, scheduled⟩ | ⟨p, instr, on, fetched, executed⟩
  · rcases (schedStep_kept on scheduled q).pc with kept | ⟨first, -⟩
    · exact .inr (same (by rw [← kept, found]))
    · rw [first] at found
      cases found
  · by_cases own : q = p
    · subst own
      have turn := fetch_turn (inv.proper q) fetched
      have quiet (j : Nat) (before : scan (s.pc q) = some (chan, ch, j)) : note s e ≠ some (.began q) := by
        grind [note_began]
      rw [execute_pc executed] at found
      cases turn with
      | plain _ next =>
        rw [next.scan] at found
        cases found
      | produce ch' place =>
        cases found
        exact .inl rfl
      | skip chan' ch' place =>
        cases found
        have before : scan (s.pc q) = some (chan, ch, q.val) := by rw [place]; rfl
        refine .inr ⟨quiet _ before, q, before, ?_⟩
        intro p pending _ low
        have other : p.val ≠ q.val := by grind [pending.not_scan]
        omega
      | lock chan' r ch' place | release chan' r ch' place =>
        cases found
        exact .inr (same (by rw [place]; rfl))
      | visit chan' r ch' place =>
        rw [wakeTestCode_next] at found
        cases found
        have before : scan (s.pc q) = some (chan, ch, r.val) := by rw [place]; rfl
        obtain rfl := (places q).waking _ _ _ before
        refine .inr ⟨quiet _ before, r, before, ?_⟩
        intro p pending pending' low
        have other : p.val ≠ r.val := by grind [visit_wakes]
        omega
      | _ => cases found
    · rcases (execute_kept inv on fetched executed own).pc with kept | ⟨first, -⟩
      · exact .inr (same (by rw [← kept, found]))
      · rw [first] at found
        cases found

/-! ## No wakeup is lost -/

structure Seen (s : State Cpu) (w : Watch) : Prop where
  tested : ∀ p, w.tested p ≤ w.now
  began : ∀ p, w.began p ≤ w.now
  completed : ∀ k ∈ w.completed, k.began ≤ w.now
  done : ∀ p ch, Pending s p ch → ∀ k ∈ w.completed, k.ch = ch → k.began ≤ w.tested p
  visiting : ∀ p ch q chan i, Pending s p ch → scan (s.pc q) = some (chan, ch, i) → w.tested p < w.began q → i ≤ p.val

theorem seen_step {w : Watch} (taken : step s e = some t) (inv : Inv s) (places : ∀ q, Place s q) (seen : Seen s w) :
    Seen t (w.tick t.cond (note s e)) := by
  have tested (p : Slot) : (w.tick t.cond (note s e)).tested p ≤ w.now + 1 := by
    by_cases noted : note s e = some (.tested p)
    · rw [noted, tick_tested_self]
    · rw [tick_tested noted]
      have := seen.tested p
      omega
  refine ⟨tested, ?_, ?_, ?_, ?_⟩
  · intro p
    change _ ≤ w.now + 1
    by_cases noted : note s e = some (.began p)
    · simp [noted, Watch.tick, Watch.add]
    · rw [tick_began noted]
      have := seen.began p
      omega
  · intro k member
    change _ ≤ w.now + 1
    rcases tick_completed member with old | ⟨q, ch, -, rfl⟩
    · have := seen.completed k old
      omega
    · have := seen.began q
      dsimp only
      omega
  · intro p ch pending k member same
    by_cases noted : note s e = some (.tested p)
    · rcases tick_completed member with old | ⟨q, ch', completed, -⟩
      · have := seen.completed k old
        rw [noted, tick_tested_self]
        omega
      · rw [noted] at completed
        cases completed
    · rw [tick_tested noted]
      have before := (pending_step taken inv pending).resolve_right noted
      rcases tick_completed member with old | ⟨q, ch', completed, rfl⟩
      · exact seen.done p ch before k old same
      · obtain rfl := same
        obtain ⟨chan, i, scanning, last⟩ := note_completed completed
        by_contra late
        have low := seen.visiting p _ q chan i before scanning (Nat.lt_of_not_le late)
        omega
  · intro p ch q chan i pending scanning late
    rcases scan_step taken inv places scanning with rfl | ⟨noBegin, j, before, passes⟩
    · exact Nat.zero_le _
    · rw [tick_began noBegin] at late
      by_cases noted : note s e = some (.tested p)
      · rw [noted, tick_tested_self] at late
        have := seen.began q
        omega
      · grind [tick_tested, pending_step, seen.visiting]

end

/-- The last test of a sleeper is before a wakeup that is complete, and the condition has held since. -/
def Lost (x : Watched Cpu) (p : Slot) (ch : Nat) : Prop :=
  ∃ k ∈ x.watch.completed, k.ch = ch ∧ x.watch.tested p < k.began ∧
    ∀ i, k.ended ≤ i → i ≤ x.watch.now → x.watch.condAt i ch = true

structure Observed (x : Watched Cpu) : Prop where
  inv : Inv x.state
  places : ∀ p, Place x.state p
  seen : Seen x.state x.watch

theorem watchedStep_observed {x y : Watched Cpu} {e : Cpu × Choice} (taken : watchedStep x e = some y)
    (observed : Observed x) : Observed y := by
  obtain ⟨t, stepped, rfl⟩ := Option.map_eq_some_iff.mp taken
  exact ⟨step_inv stepped observed.inv, step_places stepped observed.inv observed.places,
    seen_step stepped observed.inv observed.places observed.seen⟩

omit [DecidableEq Cpu] in
theorem watched_observed (cond : Nat → Bool) : Observed (watched cond : Watched Cpu) := by
  have awake (p : Slot) : ((ProcTable.initial).proc p).state ≠ .sleeping := by
    revert p
    decide
  refine ⟨initial_inv cond, fun p => ⟨nofun, fun asleep => absurd asleep (awake p), nofun, nofun, nofun⟩, ?_⟩
  refine ⟨fun _ => Nat.le_refl _, fun _ => Nat.le_refl _, nofun, fun _ _ _ _ => nofun, ?_⟩
  intro p ch q chan i pending scanning
  cases scanning

theorem no_lost_wakeup {cond : Nat → Bool} {es : List (Cpu × Choice)} {x : Watched Cpu}
    (reached : run watchedStep (watched cond) es = some x) (p : Slot) (ch : Nat) :
    ¬ ((x.state.proc p).state = .sleeping ∧ (x.state.proc p).chan = some (.other ch) ∧ Lost x p ch) := by
  rintro ⟨asleep, chan, k, member, same, late, -⟩
  have observed : Observed x := run_inductive (fun _ _ _ => watchedStep_observed) (watched_observed cond) reached
  have pending : Pending x.state p ch := by
    obtain ⟨r, place⟩ := (observed.places p).asleep asleep
    have awaited : (x.state.proc p).chan = some (r.chan p) := by
      rcases place with swtch | tidy
      · exact (observed.places p).ready r (.inr swtch)
      · exact (observed.places p).parked r tidy asleep
    obtain rfl : r = .consume ch := by
      rw [chan] at awaited
      cases r with
      | wait => cases awaited
      | consume ch' =>
        cases awaited
        rfl
    rcases place with swtch | tidy
    · exact .inl (by rw [swtch]; rfl)
    · exact .inr ⟨tidy, asleep⟩
  have early := observed.seen.done p ch pending k member same
  omega

end

-- A process makes the condition 0 true, makes it false again, and then sleeps on it.
def produceSleep : List (Unit × Choice) :=
  List.replicate 4 ((), .go true) ++ [((), .call (.produce 0))] ++ List.replicate 194 ((), .go true) ++
    [((), .call (.consume 0))] ++ List.replicate 4 ((), .go false) ++
    [((), .call (.consume 0))] ++ List.replicate 7 ((), .go true)

theorem no_lost_wakeup_produceSleep : ∃ x : Watched Unit, run watchedStep (watched fun _ => false) produceSleep = some x ∧
    (x.state.proc 0).state = .sleeping ∧ (x.state.proc 0).chan = some (.other 0) ∧ x.watch.completed.length = 1 ∧
    ¬ Lost x 0 0 := by
  refine exists_some_of (fun x => (x.state.proc 0).state = .sleeping ∧ (x.state.proc 0).chan = some (.other 0) ∧
    x.watch.completed.length = 1) (by decide +kernel) fun x reached ⟨asleep, chan, count⟩ => ?_
  exact ⟨asleep, chan, count, fun lost => no_lost_wakeup reached 0 0 ⟨asleep, chan, lost⟩⟩

end Xv6.Scheduler
