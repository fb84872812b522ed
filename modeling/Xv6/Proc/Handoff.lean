import Xv6.Proc.Threads

namespace Xv6.Scheduler
open Lib
open Function (update update_self update_of_ne)
open ProcTable (Slot ProcState Chan Proc initproc freeproc)

attribute [local simp] State.setProc State.goto

/-! ## Who holds which lock, and who runs where -/

def SchedPc.locks : SchedPc → List Lock
  | .acquire _ => []
  | .test i | .switch i | .release i => [.proc i]

section
variable {Cpu : Type}

def heldBy (s : State Cpu) (c : Cpu) : List Lock :=
  match s.running c with
  | .scheduler pc => pc.locks
  | .thread p => locks p (s.pc p)

def Waiting : ProcState → Prop
  | .runnable | .sleeping | .running => True
  | .unused | .used | .zombie => False

structure Resumable (p : Slot) (pc : Pc) : Prop where
  locks : locks p pc = [.proc p]
  state : expected pc = .running

structure Inv (s : State Cpu) : Prop where
  proper : ∀ p, Proper p (s.pc p)
  lock : ∀ l c, s.lock l = some c ↔ l ∈ heldBy s c
  back : ∀ c p, s.running c = .thread p → s.saved c = .release p
  solo : ∀ c c' p, s.running c = .thread p → s.running c' = .thread p → c = c'
  state : ∀ c p, s.running c = .thread p → (s.proc p).state = expected (s.pc p)
  switching : ∀ c i, s.running c = .scheduler (.switch i) → (s.proc i).state = .running ∧ ∀ c', s.running c' ≠ .thread i
  parked : ∀ p, (∀ c, s.running c ≠ .thread p) → Waiting (s.proc p).state → Resumable p (s.pc p)
  forking : ∀ q np, forks (s.pc q) = some np → (s.proc np).state = .used
  spawned : ∀ q np, spawned (s.pc q) = some np → s.pc np = .forkret
  alone : ∀ q q' np, forks (s.pc q) = some np → forks (s.pc q') = some np → q = q'

section
variable {s t : State Cpu} {c : Cpu} {p q np : Slot} {k : Pc} {l : Lock}

theorem held_thread (on : s.running c = .thread p) : heldBy s c = locks p (s.pc p) := by
  rw [heldBy, on]

theorem Inv.holds (inv : Inv s) (on : s.running c = .thread p) (held : l ∈ locks p (s.pc p)) : s.lock l = some c := by
  rw [inv.lock, held_thread on]
  exact held

theorem expected_away {self : Slot} {pc : Pc} (away : expected pc ≠ .running) : .proc self ∈ locks self pc := by
  cases pc <;> first | exact absurd rfl away | simp [locks]

section

variable (inv : Inv s) (held : s.lock (.proc q) = some c) (elsewhere : s.running c ≠ .thread q)

include inv held elsewhere

theorem Inv.running_of_held {c' : Cpu} (on : s.running c' = .thread q) : (s.proc q).state = .running := by
  rw [inv.state c' q on]
  by_contra away
  have mine : .proc q ∈ heldBy s c' := by
    rw [held_thread on]
    exact expected_away away
  have same := (inv.lock (.proc q) c').mpr mine
  rw [held] at same
  obtain rfl := Option.some.inj same
  exact elsewhere on

theorem Inv.off_cpu (idle : (s.proc q).state ≠ .running) (c' : Cpu) : s.running c' ≠ .thread q :=
  fun on => idle (inv.running_of_held held elsewhere on)

end

theorem Inv.not_switching (inv : Inv s) (idle : (s.proc q).state ≠ .running) (c' : Cpu) :
    s.running c' ≠ .scheduler (.switch q) :=
  fun on => idle (inv.switching c' q on).1

def Untouched (s t : State Cpu) (q : Slot) : Prop :=
  (t.proc q).state = (s.proc q).state ∨
    (∀ c, s.running c ≠ .thread q) ∧ (∀ c, s.running c ≠ .scheduler (.switch q)) ∧
      (Waiting (t.proc q).state → Resumable q (s.pc q))

structure Forks (t : State Cpu) : Prop where
  forking : ∀ q np, forks (t.pc q) = some np → (t.proc np).state = .used
  spawned : ∀ q np, Scheduler.spawned (t.pc q) = some np → t.pc np = .forkret
  alone : ∀ q q' np, forks (t.pc q) = some np → forks (t.pc q') = some np → q = q'

theorem pcs_here (pcs : t.pc = update s.pc p k) : t.pc p = k := by rw [pcs, update_self]

theorem pcs_other (pcs : t.pc = update s.pc p k) (q : Slot) (other : q ≠ p) : t.pc q = s.pc q := by
  rw [pcs, update_of_ne other]

theorem Inv.move (inv : Inv s) (on : s.running c = .thread p) (proper : Proper p k) (running : t.running = s.running)
    (saved : t.saved = s.saved) (pcs : t.pc = update s.pc p k) (mine : ∀ l, t.lock l = some c ↔ l ∈ locks p k)
    (theirs : ∀ l c', c' ≠ c → (t.lock l = some c' ↔ s.lock l = some c'))
    (own : (t.proc p).state = expected k) (others : ∀ q, q ≠ p → Untouched s t q) (fork : Forks t) : Inv t := by
  have pc := pcs_here pcs
  replace pcs := pcs_other pcs
  constructor
  · grind [inv.proper]
  · intro l c'
    by_cases same : c' = c
    · grind [heldBy]
    · rw [theirs l c' same, inv.lock, heldBy, heldBy, running]
      cases place : s.running c' with
      | scheduler pc' => rfl
      | thread q => grind [inv.solo]
  · intro c' q
    rw [running, saved]
    exact inv.back c' q
  · intro c' c'' q
    rw [running]
    exact inv.solo c' c'' q
  · intro c' q place
    rw [running] at place
    by_cases same : q = p
    · subst same
      rw [own, pc]
    · rw [pcs q same, ← inv.state c' q place]
      rcases others q same with kept | ⟨off, -⟩
      · exact kept
      · exact absurd place (off c')
  · intro c' i place
    rw [running] at place
    obtain ⟨state, off⟩ := inv.switching c' i place
    rw [running]
    refine ⟨?_, off⟩
    have other : i ≠ p := by
      rintro rfl
      exact off c on
    rcases others i other with kept | ⟨-, notSwitching, -⟩
    · rw [kept, state]
    · exact absurd place (notSwitching c')
  · intro q off waiting
    rw [running] at off
    have other : q ≠ p := by
      rintro rfl
      exact off c on
    rw [pcs q other]
    rcases others q other with kept | ⟨-, -, resumable⟩
    · exact inv.parked q off (kept ▸ waiting)
    · exact resumable waiting
  · exact fork.forking
  · exact fork.spawned
  · exact fork.alone

theorem forks_of_spawned {pc : Pc} (ready : Scheduler.spawned pc = some np) : forks pc = some np := by
  induction pc with
  | yieldAcquire k ih => exact ih ready
  | yieldState k ih => exact ih ready
  | yieldSwtch k ih => exact ih ready
  | yieldRelease k ih => exact ih ready
  | _ => first | exact ready | cases ready

theorem expected_ne_used (pc : Pc) : expected pc ≠ .used ∧ expected pc ≠ .unused := by
  cases pc <;> simp [expected]

theorem Inv.child_ne (inv : Inv s) (on : s.running c = .thread p) (child : forks (s.pc q) = some np) : np ≠ p := by
  rintro rfl
  have used := inv.forking q np child
  rw [inv.state c np on] at used
  exact (expected_ne_used _).1 used

section

variable (inv : Inv s) (on : s.running c = .thread p)

include inv on

theorem Inv.sameFork (fork : SameFork (s.pc p) k) (pcs : t.pc = update s.pc p k)
    (used : ∀ np, (s.proc np).state = .used → (t.proc np).state = .used) : Forks t := by
  have pc := pcs_here pcs
  replace pcs := pcs_other pcs
  have sameForks (q : Slot) : forks (t.pc q) = forks (s.pc q) := by grind [fork.forks]
  have sameSpawned (q : Slot) : Scheduler.spawned (t.pc q) = Scheduler.spawned (s.pc q) := by
    grind [fork.spawned]
  constructor
  · grind [inv.forking]
  · grind [inv.child_ne, forks_of_spawned, inv.spawned]
  · grind [inv.alone]

theorem Inv.noFork (child : forks (s.pc p) = some np) (fork : NoFork k)
    (pcs : t.pc = update s.pc p k) (used : ∀ q, q ≠ np → (s.proc q).state = .used → (t.proc q).state = .used) : Forks t := by
  have pc := pcs_here pcs
  replace pcs := pcs_other pcs
  have older {q : Slot} {np' : Slot} (found : forks (t.pc q) = some np') : q ≠ p ∧ forks (s.pc q) = some np' := by
    grind [fork.forks]
  constructor
  · grind [inv.forking, inv.alone]
  · grind [forks_of_spawned, inv.child_ne, inv.spawned]
  · grind [inv.alone]

theorem Inv.newFork (before : (s.proc np).state = .unused)
    (after : (t.proc np).state = .used) (child : forks k = some np) (bare : Scheduler.spawned k = none)
    (pcs : t.pc = update s.pc p k) (used : ∀ q, q ≠ np → (t.proc q).state = (s.proc q).state) : Forks t := by
  have pc := pcs_here pcs
  replace pcs := pcs_other pcs
  have older {q : Slot} {np' : Slot} (other : q ≠ p) (found : forks (t.pc q) = some np') :
      np' ≠ np ∧ forks (s.pc q) = some np' := by grind [inv.forking]
  constructor
  · grind [inv.forking]
  · grind [forks_of_spawned, inv.child_ne, inv.spawned]
  · grind [inv.alone]

end

end

section
variable {s t : State Cpu} {c : Cpu} {p q np : Slot} {k : Pc} {v : Proc}

theorem goto_pc (s : State Cpu) (p : Slot) (k : Pc) : (s.goto p k).pc p = k := by
  simp

theorem goto_pc_of_ne (s : State Cpu) (k : Pc) (q : Slot) (other : q ≠ p) : (s.goto p k).pc q = s.pc q := by
  simp [other]

theorem wrote_proc {r : Slot} (other : r ≠ q) : ((s.setProc q v).goto p k).proc r = s.proc r := by
  simp [other]

theorem used_kept (before : (s.proc q).state ≠ .used) (r : Slot) (used : (s.proc r).state = .used) :
    (((s.setProc q v).goto p k).proc r).state = .used := by
  have other : r ≠ q := by
    rintro rfl
    exact before used
  rwa [wrote_proc other]

/-! ## One lemma for each kind of instruction -/

section

variable (inv : Inv s) (on : s.running c = .thread p)

include inv on

theorem Inv.locks_same
    (same : ∀ l, l ∈ locks p k ↔ l ∈ locks p (s.pc p)) (l : Lock) : s.lock l = some c ↔ l ∈ locks p k := by
  rw [inv.lock, held_thread on, same]

theorem Inv.calm (proper : Proper p k)
    (running : t.running = s.running) (saved : t.saved = s.saved) (pcs : t.pc = update s.pc p k)
    (mine : ∀ l, t.lock l = some c ↔ l ∈ locks p k)
    (theirs : ∀ l c', c' ≠ c → (t.lock l = some c' ↔ s.lock l = some c')) (procs : t.proc = s.proc)
    (state : expected k = expected (s.pc p)) (fork : SameFork (s.pc p) k) : Inv t := by
  have kept := inv.sameFork on fork pcs (fun np used => by rw [procs, used])
  refine inv.move on proper running saved pcs mine theirs ?_ ?_ kept
  · rw [procs, inv.state c p on, state]
  · intro q _
    exact .inl (by rw [procs])

theorem Inv.acquired (free : s.lock l = none) (member : ∀ l', l' ∈ locks p k ↔ l' = l ∨ l' ∈ locks p (s.pc p)) :
    (∀ l', update s.lock l (some c) l' = some c ↔ l' ∈ locks p k) ∧
      ∀ l' c', c' ≠ c → (update s.lock l (some c) l' = some c' ↔ s.lock l' = some c') := by
  grind [inv.lock, held_thread]

theorem Inv.released (held : l ∈ locks p (s.pc p)) (member : ∀ l', l' ∈ locks p k ↔ l' ≠ l ∧ l' ∈ locks p (s.pc p)) :
    (∀ l', update s.lock l none l' = some c ↔ l' ∈ locks p k) ∧
      ∀ l' c', c' ≠ c → (update s.lock l none l' = some c' ↔ s.lock l' = some c') := by
  have mine := inv.holds on held
  constructor
  · grind [inv.lock, held_thread]
  · grind

theorem Inv.write_other (proper : Proper p k) (held : .proc q ∈ locks p (s.pc p)) (idle : (s.proc q).state ≠ .running)
    (resumable : Waiting v.state → Resumable q (s.pc q))
    (stays : StaysRunning p (s.pc p) k) (runs : t.running = s.running) (saved : t.saved = s.saved)
    (pcs : t.pc = update s.pc p k) (lock : t.lock = s.lock) (procs : t.proc = update s.proc q v)
    (fork : Forks t) : Inv t := by
  have lockHeld := inv.holds on held
  have mine := inv.state c p on
  have other : p ≠ q := by
    rintro rfl
    exact idle (mine.trans stays.running)
  have elsewhere : s.running c ≠ .thread q := by grind
  refine inv.move on proper runs saved pcs ?_ (fun l c' _ => by rw [lock]) ?_ ?_ fork
  · rw [lock]
    exact inv.locks_same on stays.locks
  · rw [procs, update_of_ne other, mine, stays.state]
  · intro r _
    by_cases target : r = q
    · subst target
      refine .inr ⟨inv.off_cpu lockHeld elsewhere idle, inv.not_switching idle, ?_⟩
      rw [procs, update_self]
      exact resumable
    · left
      rw [procs, update_of_ne target]

end

theorem Inv.off_of_used (inv : Inv s) (used : (s.proc q).state = .used) (c' : Cpu) : s.running c' ≠ .thread q := by
  intro place
  rw [inv.state c' q place] at used
  exact (expected_ne_used _).1 used

theorem Inv.reset (inv : Inv s) (used : (s.proc q).state = .used) : Inv (s.goto q .forkret) := by
  have off := inv.off_of_used used
  have ran {c' : Cpu} {r : Slot} (place : s.running c' = .thread r) : r ≠ q := by
    rintro rfl
    exact off c' place
  have older {r np : Slot} (found : forks ((s.goto q .forkret).pc r) = some np) : r ≠ q ∧ forks (s.pc r) = some np := by
    have other : r ≠ q := by
      rintro rfl
      rw [goto_pc] at found
      cases found
    exact ⟨other, by rwa [goto_pc_of_ne s _ r other] at found⟩
  constructor
  · intro r
    by_cases same : r = q
    · subst same
      rw [goto_pc]
      exact proper_of_plain rfl
    · rw [goto_pc_of_ne s _ r same]
      exact inv.proper r
  · intro l c'
    have held : heldBy (s.goto q .forkret) c' = heldBy s c' := by grind [heldBy, State.goto, goto_pc_of_ne]
    rw [held]
    exact inv.lock l c'
  · exact inv.back
  · exact inv.solo
  · intro c' r place
    rw [goto_pc_of_ne s _ r (ran place)]
    exact inv.state c' r place
  · exact inv.switching
  · intro r idle waiting
    have other : r ≠ q := by
      rintro rfl
      simp only [State.goto, used] at waiting
      exact waiting
    rw [goto_pc_of_ne s _ r other]
    exact inv.parked r idle waiting
  · intro r np found
    exact inv.forking r np (older found).2
  · grind [forks_of_spawned, goto_pc_of_ne, goto_pc, inv.spawned]
  · grind [inv.alone]

theorem Inv.spawn (inv : Inv s) (on : s.running c = .thread p) (child : forks (s.pc p) = some q)
    (same : forks k = some q) (ready : Scheduler.spawned k = some q)
    (stays : Stays p (s.pc p) k) (proper : Proper p k) : Inv ((s.goto q .forkret).goto p k) := by
  have used := inv.forking p q child
  have other : q ≠ p := inv.child_ne on child
  have fresh := inv.reset used
  have here : (s.goto q .forkret).pc p = s.pc p := goto_pc_of_ne s _ p other.symm
  have stays' : Stays p ((s.goto q .forkret).pc p) k := here ▸ stays
  have sameForks (r : Slot) : forks (((s.goto q .forkret).goto p k).pc r) = forks ((s.goto q .forkret).pc r) := by
    grind [goto_pc, goto_pc_of_ne]
  refine fresh.move on proper rfl rfl rfl (fresh.locks_same on stays'.locks) (fun _ _ _ => Iff.rfl) ?_
    (fun _ _ => .inl rfl) ⟨?_, ?_, ?_⟩
  · rw [stays.state]
    exact inv.state c p on
  · intro r np found
    rw [sameForks] at found
    exact fresh.forking r np found
  · intro r np found
    have notP : np ≠ p := by
      have forked := forks_of_spawned found
      rw [sameForks] at forked
      exact fresh.child_ne on forked
    rw [goto_pc_of_ne _ _ np notP]
    by_cases self : r = p
    · grind [goto_pc]
    · rw [goto_pc_of_ne _ _ r self] at found
      exact fresh.spawned r np found
  · grind [fresh.alone]

variable [DecidableEq Cpu]

theorem Inv.switch_away (inv : Inv s) (on : s.running c = .thread p) (held : locks p (s.pc p) = [.proc p])
    (resumable : Resumable p k) (fork : SameFork (s.pc p) k) (proper : Proper p k) :
    Inv ((s.goto p k).run c (.scheduler (s.saved c))) := by
  have kept := inv.sameFork on fork (t := (s.goto p k).run c (.scheduler (s.saved c))) rfl fun _ used => used
  have here : ((s.goto p k).run c (.scheduler (s.saved c))).running c = .scheduler (.release p) := by
    simp [State.run, inv.back c p on]
  have there {c' : Cpu} (other : c' ≠ c) : ((s.goto p k).run c (.scheduler (s.saved c))).running c' = s.running c' := by
    simp [State.run, other]
  have still {c' : Cpu} {r : Slot} (place : ((s.goto p k).run c (.scheduler (s.saved c))).running c' = .thread r) :
      c' ≠ c ∧ s.running c' = .thread r ∧ r ≠ p := by
    have other : c' ≠ c := by
      rintro rfl
      rw [here] at place
      cases place
    rw [there other] at place
    refine ⟨other, place, ?_⟩
    rintro rfl
    exact other (inv.solo c' c r place on)
  constructor
  · intro r
    by_cases same : r = p
    · subst same
      exact (goto_pc s r k).symm ▸ proper
    · exact (goto_pc_of_ne s k r same).symm ▸ inv.proper r
  · intro l c'
    by_cases same : c' = c
    · subst same
      have before := inv.lock l c'
      rw [held_thread on, held] at before
      simp only [heldBy, here, SchedPc.locks]
      exact before
    · have before := inv.lock l c'
      refine before.trans ?_
      simp only [heldBy, there same]
      cases place : s.running c' with
      | scheduler pc => exact Iff.rfl
      | thread r =>
        have other : r ≠ p := by
          rintro rfl
          exact same (inv.solo c' c r place on)
        dsimp only
        rw [show ((s.goto p k).run c (.scheduler (s.saved c))).pc r = s.pc r from goto_pc_of_ne s k r other]
  · intro c' r place
    exact inv.back c' r (still place).2.1
  · grind [inv.solo]
  · intro c' r place
    obtain ⟨-, before, other⟩ := still place
    rw [show ((s.goto p k).run c (.scheduler (s.saved c))).pc r = s.pc r from goto_pc_of_ne s k r other]
    exact inv.state c' r before
  · intro c' i place
    have other : c' ≠ c := by
      rintro rfl
      rw [here] at place
      cases place
    rw [there other] at place
    obtain ⟨state, off⟩ := inv.switching c' i place
    exact ⟨state, fun c'' place' => off c'' (still place').2.1⟩
  · intro r off waiting
    by_cases same : r = p
    · subst same
      exact (goto_pc s r k).symm ▸ resumable
    · rw [show ((s.goto p k).run c (.scheduler (s.saved c))).pc r = s.pc r from goto_pc_of_ne s k r same]
      refine inv.parked r ?_ waiting
      intro c' place
      by_cases self : c' = c
      · grind
      · exact off c' ((there self).trans place)
  · exact kept.forking
  · exact kept.spawned
  · exact kept.alone

theorem execute_inv {instr : Instr} (inv : Inv s) (on : s.running c = .thread p) (typed : Typed s.toMemory p (s.pc p) instr)
    (proper : Proper p instr.next) (taken : execute s c p instr = some t) : Inv t := by
  have mine := inv.state c p on
  cases typed with
  | jump k stays fork | setCond ch b k stays fork =>
    cases taken
    exact inv.calm on proper rfl rfl rfl (inv.locks_same on stays.locks) (fun _ _ _ => Iff.rfl) rfl stays.state fork
  | acquire l k locks state fork =>
    simp only [execute] at taken
    split_ifs at taken with free
    cases taken
    obtain ⟨own, theirs⟩ := inv.acquired on free locks
    exact inv.calm on proper rfl rfl rfl own theirs rfl state fork
  | release l k held locks state fork =>
    cases taken
    obtain ⟨own, theirs⟩ := inv.released on held locks
    exact inv.calm on proper rfl rfl rfl own theirs rfl state fork
  | field q v k same stays fork =>
    cases taken
    have states (r : Slot) : (((s.setProc q v).goto p k).proc r).state = (s.proc r).state := by
      by_cases target : r = q
      · subst target
        simpa using same
      · rw [wrote_proc target]
    have kept := inv.sameFork on fork (t := (s.setProc q v).goto p k) rfl (fun np used => by rw [states, used])
    refine inv.move (k := k) on proper rfl rfl rfl (inv.locks_same on stays.locks) (fun _ _ _ => Iff.rfl) ?_
      (fun r _ => .inl (states r)) kept
    rw [states, mine, stays.state]
  | leave v k held before after locks fork =>
    cases taken
    have busy : (s.proc p).state ≠ .used := by
      rw [mine]
      exact (expected_ne_used _).1
    have kept := inv.sameFork on fork (t := (s.setProc p v).goto p k) rfl (used_kept busy)
    refine inv.move (k := k) on proper rfl rfl rfl (inv.locks_same on locks) (fun _ _ _ => Iff.rfl) ?_
      (fun r other => .inl (by rw [wrote_proc other])) kept
    simpa using after
  | wake q v k held before after stays fork =>
    cases taken
    have idle : (s.proc q).state ≠ .running := by simp [before]
    refine inv.write_other on proper held idle ?_ stays rfl rfl rfl rfl rfl ?_
    · intro _
      have elsewhere : s.running c ≠ .thread q := by grind [stays.running]
      exact inv.parked q (inv.off_cpu (inv.holds on held) elsewhere idle) (by rw [before]; trivial)
    · exact inv.sameFork on fork rfl (used_kept (by simp [before]))
  | reap q v k held before after stays fork =>
    cases taken
    refine inv.write_other on proper held (by simp [before]) ?_ stays rfl rfl rfl rfl rfl ?_
    · rw [after]
      exact False.elim
    · exact inv.sameFork on fork rfl (used_kept (by simp [before]))
  | abort q v k held child after stays fork =>
    cases taken
    have used := inv.forking p q child
    refine inv.write_other on proper held (by simp [used]) ?_ stays rfl rfl rfl rfl rfl ?_
    · rw [after]
      exact False.elim
    · exact inv.noFork on child fork rfl fun r other used => by rwa [wrote_proc other]
  | start q v k held child ready after stays fork =>
    cases taken
    have used := inv.forking p q child
    refine inv.write_other on proper held (by simp [used]) ?_ stays rfl rfl rfl rfl rfl ?_
    · intro _
      rw [inv.spawned p q ready]
      exact ⟨rfl, rfl⟩
    · exact inv.noFork on child fork rfl fun r other used => by rwa [wrote_proc other]
  | allocpid q v k held before after stays fresh child bare =>
    cases taken
    refine inv.write_other on proper held (by simp [before]) ?_ stays rfl rfl rfl rfl rfl ?_
    · rw [after]
      exact False.elim
    · refine inv.newFork on before ?_ child bare rfl ?_
      · simpa using after
      · exact fun r other => by rw [wrote_proc other]
  | context q k child same ready stays =>
    cases taken
    exact inv.spawn on child same ready stays.toStays proper
  | swtch k held away saved state fork =>
    cases taken
    exact inv.switch_away on held ⟨saved, state⟩ fork proper

end

end

end Xv6.Scheduler
