import Xv6.Proc.Parents

namespace Xv6.ProcTable
open Lib Function

attribute [local simp] entry State.goto

/-! ## A history of processes

Slots are reused, so the history numbers the processes in the order of their birth; init is the first. -/

structure Wait where
  waiter : Nat
  parent : Option Nat -- of the child, at that time
  child : Nat
  pid : BitVec 32
  status : Int

structure History where
  born : Nat
  name : Slot → Nat
  forks : List (Nat × BitVec 32)
  exits : List (Nat × Int)
  waits : List Wait

def History.add (h : History) (s : State) : Entry → History
  | .forked np pid =>
    { h with
      born := h.born + 1
      name := update h.name np h.born
      forks := (h.born, pid) :: h.forks }
  | .exited p status => { h with exits := (h.name p, status) :: h.exits }
  | .waited p np =>
    { h with
      waits := ⟨h.name p, (s.proc np).parent.map h.name, h.name np, (s.proc np).pid, (s.proc np).xstate⟩ ::
        h.waits }

def History.record (h : History) (s : State) (e : Event) : History :=
  match entry s e with
  | none => h
  | some new => h.add s new

structure Traced where
  state : State
  history : History

def tracedStep (x : Traced) (e : Event) : Option Traced :=
  (step x.state e).map fun t => ⟨t, x.history.record x.state e⟩

def start : Traced := ⟨initial, ⟨1, fun _ => 0, [], [], []⟩⟩

/-! ## What the history knows of the processes in the table -/

structure Recorded (s : State) (h : History) : Prop where
  fresh : ∀ p, s.phase p ≠ .unused → h.name p < h.born
  distinct : ∀ p q, s.phase p ≠ .unused → s.phase q ≠ .unused → h.name p = h.name q → p = q
  forked : ∀ p, p ≠ initproc → s.phase p ≠ .unused → (h.name p, (s.proc p).pid) ∈ h.forks
  zombies : ∀ p, s.phase p = .zombie → (h.name p, (s.proc p).xstate) ∈ h.exits
  exiting : ∀ p status, s.phase p = .alive → s.task p = some (.exiting status) → (h.name p, status) ∈ h.exits
  running : ∀ p, s.phase p ≠ .unused → (∀ status, s.task p ≠ some (.exiting status)) → h.name p ∉ h.exits.map Prod.fst
  unreaped : ∀ p, s.phase p ≠ .unused → h.name p ∉ h.waits.map Wait.child
  idle : ∀ p, s.phase p = .used → s.task p = none

structure Sound (h : History) : Prop where
  forks : (h.forks.map Prod.fst).Nodup ∧ ∀ n ∈ h.forks.map Prod.fst, n < h.born
  exits : (h.exits.map Prod.fst).Nodup ∧ ∀ n ∈ h.exits.map Prod.fst, n < h.born
  waits : (h.waits.map Wait.child).Nodup ∧ ∀ n ∈ h.waits.map Wait.child, n < h.born
  pairs : ∀ w ∈ h.waits, (w.child, w.pid) ∈ h.forks ∧ (w.child, w.status) ∈ h.exits ∧ w.parent = some w.waiter

section
variable {s t : State} {h : History} {p q np : Slot} {i bound : Nat} {x : Traced} {e : Event} {havekids : Bool}
  {xs : List Nat} {status : Int}

theorem Recorded.quiet (recorded : Recorded s h) (slots : ∀ q, Same s t q) (tasks : ∀ q, t.task q = s.task q) :
    Recorded t h where
  fresh p := by
    rw [(slots p).phase]
    exact recorded.fresh p
  distinct p q := by
    rw [(slots p).phase, (slots q).phase]
    exact recorded.distinct p q
  forked p := by
    rw [(slots p).phase, (slots p).pid]
    exact recorded.forked p
  zombies p := by
    rw [(slots p).phase, (slots p).xstate]
    exact recorded.zombies p
  exiting p status := by
    rw [(slots p).phase, tasks p]
    exact recorded.exiting p status
  running p := by
    rw [(slots p).phase, tasks p]
    exact recorded.running p
  unreaped p := by
    rw [(slots p).phase]
    exact recorded.unreaped p
  idle p := by
    rw [(slots p).phase, tasks p]
    exact recorded.idle p

theorem record_silent (silent : entry s e = none) : h.record s e = h := by
  simp only [History.record, silent]

theorem record_entry {new : Entry} (found : entry s e = some new) : h.record s e = h.add s new := by
  simp only [History.record, found]

theorem Recorded.except {x : Slot} (recorded : Recorded s h) (slots : ∀ q, q ≠ x → Same s t q)
    (leaving : ∀ q status, t.task q = some (.exiting status) ↔ s.task q = some (.exiting status))
    (idle : ∀ q, t.phase q = .used → t.task q = none)
    (live : t.phase x ≠ .unused → s.phase x ≠ .unused ∧ (t.proc x).pid = (s.proc x).pid)
    (zombie : t.phase x = .zombie → (h.name x, (t.proc x).xstate) ∈ h.exits)
    (alive : t.phase x = .alive → ∀ status, s.task x = some (.exiting status) → s.phase x = .alive) : Recorded t h := by
  have before {q : Slot} (used : t.phase q ≠ .unused) : s.phase q ≠ .unused := by
    by_cases same : q = x
    · subst same
      exact (live used).1
    · rwa [← (slots q same).phase]
  constructor
  · intro q used
    exact recorded.fresh q (before used)
  · grind [recorded.distinct]
  · intro q other used
    have pid : (t.proc q).pid = (s.proc q).pid := by
      by_cases same : q = x
      · subst same
        exact (live used).2
      · exact (slots q same).pid
    rw [pid]
    exact recorded.forked q other (before used)
  · intro q dead
    by_cases same : q = x
    · subst same
      exact zombie dead
    · rw [(slots q same).xstate]
      exact recorded.zombies q ((slots q same).phase ▸ dead)
  · intro q status living task
    have task' := (leaving q status).mp task
    refine recorded.exiting q status ?_ task'
    by_cases same : q = x
    · subst same
      exact alive living status task'
    · rw [← (slots q same).phase, living]
  · grind [recorded.running]
  · intro q used
    exact recorded.unreaped q (before used)
  · exact idle

theorem Recorded.idle_except {x : Slot} (recorded : Recorded s h) (slots : ∀ q, q ≠ x → Same s t q)
    (tasks : ∀ q, t.task q = s.task q) (past : t.phase x ≠ .used) (q : Slot) (used : t.phase q = .used) : t.task q = none := by
  have other : q ≠ x := by
    rintro rfl
    exact past used
  rw [tasks]
  exact recorded.idle q ((slots q other).phase ▸ used)

theorem Recorded.freed (recorded : Recorded s h) (after : t.phase np = .unused) (slots : ∀ q, q ≠ np → Same s t q)
    (tasks : ∀ q, t.task q = s.task q) : Recorded t h :=
  recorded.except slots (fun q status => by rw [tasks]) (recorded.idle_except slots tasks (by simp [after])) (by simp [after])
    (by simp [after]) (by simp [after])

/-! ## One lemma for each move -/

theorem Recorded.allocated (recorded : Recorded s h) (sound : Sound h) (unborn : s.task p = none)
    (after : t.phase np = .used) (pid : (t.proc np).pid = s.nextpid)
    (slots : ∀ q, q ≠ np → Same s t q) (fresh : t.task np = none) (task : t.task p = some (.adopt np))
    (tasks : ∀ q, q ≠ p → q ≠ np → t.task q = s.task q) (live : s.phase p = .alive) :
    Recorded t (h.add s (.forked np s.nextpid)) := by
  have unseen {xs : List Nat} (small : ∀ n ∈ xs, n < h.born) : h.born ∉ xs := fun member =>
    Nat.lt_irrefl _ (small _ member)
  have new : (h.add s (.forked np s.nextpid)).name np = h.born := update_self ..
  have old {q : Slot} (other : q ≠ np) : (h.add s (.forked np s.nextpid)).name q = h.name q := update_of_ne other ..
  have used {q : Slot} (other : q ≠ np) (used : t.phase q ≠ .unused) : s.phase q ≠ .unused := (slots q other).phase ▸ used
  have exiting {q : Slot} {status : Int} (other : q ≠ np) :
      t.task q = some (.exiting status) ↔ s.task q = some (.exiting status) := by
    by_cases forker : q = p
    · simp [forker, task, unborn]
    · rw [tasks q forker other]
  constructor
  · intro q usedQ
    by_cases same : q = np
    · rw [same, new]
      exact Nat.lt_succ_self _
    · rw [old same]
      exact Nat.lt_succ_of_lt (recorded.fresh q (used same usedQ))
  · intro q q' usedQ usedQ' name
    by_cases same : q = np
    · by_cases same' : q' = np
      · rw [same, same']
      · rw [same, new, old same'] at name
        exact absurd name (recorded.fresh q' (used same' usedQ')).ne'
    · by_cases same' : q' = np
      · rw [same', new, old same] at name
        exact absurd name (recorded.fresh q (used same usedQ)).ne
      · rw [old same, old same'] at name
        exact recorded.distinct q q' (used same usedQ) (used same' usedQ') name
  · intro q other usedQ
    by_cases same : q = np
    · rw [same, new, pid]
      exact List.mem_cons_self
    · rw [old same, (slots q same).pid]
      exact List.mem_cons_of_mem _ (recorded.forked q other (used same usedQ))
  · intro q dead
    by_cases same : q = np
    · rw [same, after] at dead
      cases dead
    · rw [old same, (slots q same).xstate]
      exact recorded.zombies q ((slots q same).phase ▸ dead)
  · intro q status living leaving
    by_cases same : q = np
    · rw [same, after] at living
      cases living
    · rw [old same]
      exact recorded.exiting q status ((slots q same).phase ▸ living) ((exiting same).mp leaving)
  · intro q usedQ stays
    by_cases same : q = np
    · rw [same, new]
      exact unseen sound.exits.2
    · rw [old same]
      exact recorded.running q (used same usedQ) fun status leaving => stays status ((exiting same).mpr leaving)
  · intro q usedQ
    by_cases same : q = np
    · rw [same, new]
      exact unseen sound.waits.2
    · rw [old same]
      exact recorded.unreaped q (used same usedQ)
  · intro q usedQ
    by_cases same : q = np
    · rw [same, fresh]
    · have used' := (slots q same).phase ▸ usedQ
      have notP : q ≠ p := by
        rintro rfl
        rw [live] at used'
        cases used'
      rw [tasks q notP same]
      exact recorded.idle q used'

theorem names_cons {n : Nat} (fresh : n ∉ xs) (low : n < bound)
    (names : xs.Nodup ∧ ∀ m ∈ xs, m < bound) : (n :: xs).Nodup ∧ ∀ m ∈ n :: xs, m < bound :=
  ⟨List.nodup_cons.mpr ⟨fresh, names.1⟩, List.forall_mem_cons.mpr ⟨low, names.2⟩⟩

theorem names_later (names : xs.Nodup ∧ ∀ m ∈ xs, m < bound) : xs.Nodup ∧ ∀ m ∈ xs, m < bound + 1 :=
  ⟨names.1, fun m member => Nat.lt_succ_of_lt (names.2 m member)⟩

theorem Sound.forked (sound : Sound h) (s : State) (np : Slot) (pid : BitVec 32) : Sound (h.add s (.forked np pid)) where
  forks := names_cons (fun member => Nat.lt_irrefl _ (sound.forks.2 _ member)) (Nat.lt_succ_self _) (names_later sound.forks)
  exits := names_later sound.exits
  waits := names_later sound.waits
  pairs w member := by
    obtain ⟨forked, rest⟩ := sound.pairs w member
    exact ⟨List.mem_cons_of_mem _ forked, rest⟩

theorem Recorded.exits (recorded : Recorded s h) (live : s.phase p = .alive)
    (phases : ∀ q, t.phase q = s.phase q) (pids : ∀ q, (t.proc q).pid = (s.proc q).pid)
    (xstates : ∀ q, (t.proc q).xstate = (s.proc q).xstate) (task : t.task p = some (.exiting status))
    (tasks : ∀ q, q ≠ p → t.task q = s.task q) : Recorded t (h.add s (.exited p status)) := by
  constructor
  · intro q
    rw [phases]
    exact recorded.fresh q
  · intro q q'
    rw [phases, phases]
    exact recorded.distinct q q'
  · intro q
    rw [phases, pids]
    exact recorded.forked q
  · intro q
    rw [phases, xstates]
    intro dead
    exact List.mem_cons_of_mem _ (recorded.zombies q dead)
  · intro q status' living exiting
    by_cases same : q = p
    · subst same
      obtain ⟨⟩ := Option.some.inj (task.symm.trans exiting)
      exact List.mem_cons_self
    · rw [phases] at living
      rw [tasks q same] at exiting
      exact List.mem_cons_of_mem _ (recorded.exiting q status' living exiting)
  · intro q used stays
    rw [phases] at used
    have other : q ≠ p := by
      rintro rfl
      exact stays status task
    intro member
    rcases List.mem_cons.mp member with name | member
    · exact other (recorded.distinct q p used (by simp [live]) name)
    · refine recorded.running q used ?_ member
      intro status'
      rw [← tasks q other]
      exact stays status'
  · intro q
    rw [phases]
    exact recorded.unreaped q
  · grind [recorded.idle]

theorem Sound.exited (sound : Sound h) (s : State) (young : h.name p < h.born)
    (once : h.name p ∉ h.exits.map Prod.fst) : Sound (h.add s (.exited p status)) := by
  refine ⟨sound.forks, names_cons once young sound.exits, sound.waits, ?_⟩
  intro w member
  obtain ⟨forked, exited, parent⟩ := sound.pairs w member
  exact ⟨forked, List.mem_cons_of_mem _ exited, parent⟩

theorem Recorded.reaped (recorded : Recorded s h) (before : s.phase np = .zombie) (after : t.phase np = .unused)
    (slots : ∀ q, q ≠ np → Same s t q) (tasks : ∀ q, t.task q = s.task q) : Recorded t (h.add s (.waited p np)) := by
  have rest := recorded.freed after slots tasks
  refine ⟨rest.fresh, rest.distinct, rest.forked, rest.zombies, rest.exiting, rest.running, ?_, rest.idle⟩
  intro q used member
  have other : q ≠ np := by
    rintro rfl
    exact used after
  rcases List.mem_cons.mp member with name | member
  · exact other (recorded.distinct q np ((slots q other).phase ▸ used) (by simp [before]) name)
  · exact rest.unreaped q used member

theorem Sound.reaped (sound : Sound h) (recorded : Recorded s h) (dead : s.phase np = .zombie)
    (child : (s.proc np).parent = some p) (other : np ≠ initproc) : Sound (h.add s (.waited p np)) := by
  have used : s.phase np ≠ .unused := by simp [dead]
  refine ⟨sound.forks, sound.exits, names_cons (recorded.unreaped np used) (recorded.fresh np used) sound.waits, ?_⟩
  intro w member
  rcases List.mem_cons.mp member with rfl | member
  · exact ⟨recorded.forked np other used, recorded.zombies np dead, by simp [child]⟩
  · exact sound.pairs w member

structure Kept (x : Traced) : Prop where
  family : Family x.state
  recorded : Recorded x.state x.history
  sound : Sound x.history

theorem record_kept (family : Family s) (recorded : Recorded s h) (sound : Sound h) (move : Move s t e) :
    Recorded t (h.record s e) ∧ Sound (h.record s e) := by
  cases move with
  | quiet e silent slots tasks =>
    rw [record_silent silent]
    exact ⟨recorded.quiet slots tasks, sound⟩
  | allocated p np i place slot live before after parent pid slots fresh task tasks =>
    subst slot
    have found : entry s (.next p true) = some (.forked np s.nextpid) := by
      simp [place, allocEntry, before]
    rw [record_entry found]
    exact ⟨recorded.allocated sound (task_of place) (phase_of after) pid slots fresh task tasks live,
      sound.forked s np s.nextpid⟩
  | allocFailed p np i place slot before after parent slots tasks =>
    exact ⟨recorded.freed (phase_of after) slots tasks, sound⟩
  | adopted p np ok place parent phase pid xstate slots task tasks =>
    rw [record_silent (by simp [place])]
    have place' := task_of place
    obtain ⟨live, used⟩ := family.tasks p _ place'
    refine ⟨recorded.except slots ?_ ?_ ?_ ?_ ?_, sound⟩
    · grind [Pc.task]
    · intro q used'
      have other : q ≠ p := by
        rintro rfl
        by_cases same : q = np
        · rw [same, used] at live
          cases live
        · rw [(slots q same).phase, live] at used'
          cases used'
      rw [tasks q other]
      by_cases same : q = np
      · exact recorded.idle q (same ▸ used)
      · exact recorded.idle q ((slots q same).phase ▸ used')
    · exact fun _ => ⟨by simp [used], pid⟩
    · simp [phase, used]
    · grind
  | started p np ok place after parent pid slots task tasks =>
    rw [record_silent (by simp [place])]
    have place' := task_of place
    obtain ⟨live, used, -⟩ := family.tasks p _ place'
    refine ⟨recorded.except slots ?_ ?_ ?_ ?_ ?_, sound⟩
    · grind [Pc.task]
    · intro q used'
      have other : q ≠ np := by
        rintro rfl
        rw [after] at used'
        cases used'
      by_cases same : q = p
      · rw [same, task]
      · rw [tasks q same]
        exact recorded.idle q ((slots q other).phase ▸ used')
    · exact fun _ => ⟨by simp [used], pid⟩
    · simp [after]
    · grind [recorded.idle]
  | exits p status place other live phases parents pids xstates task tasks =>
    refine ⟨recorded.exits live phases pids xstates task tasks, sound.exited s ?_ ?_⟩
    · exact recorded.fresh p (by simp [live])
    · refine recorded.running p (by simp [live]) fun status => ?_
      rw [task_of place]
      rintro ⟨⟩
  | dies p ok status place live after parent pid xstate slots tasks =>
    rw [record_silent (by simp [place])]
    refine ⟨recorded.except slots (fun q status => by rw [tasks]) (recorded.idle_except slots tasks (by simp [after]))
      (fun _ => ⟨by simp [live], pid⟩) (fun _ => ?_) (by simp [after]), sound⟩
    rw [xstate]
    exact recorded.exiting p status live (task_of place)
  | reaped p np i havekids place slot child before after parent slots tasks =>
    subst slot
    have found : entry s (.next p true) = some (.waited p np) := by
      simp [place, waitEntry, child, before]
    have dead : s.phase np = .zombie := phase_of before
    have other : np ≠ initproc := by
      rintro rfl
      rw [family.init] at dead
      cases dead
    rw [record_entry found]
    exact ⟨recorded.reaped dead (phase_of after) slots tasks, sound.reaped recorded dead child other⟩

theorem tracedStep_kept {y : Traced} (taken : tracedStep x e = some y) (kept : Kept x) : Kept y := by
  obtain ⟨t, inner, rfl⟩ := Option.map_eq_some_iff.mp taken
  obtain ⟨recorded, sound⟩ := record_kept kept.family kept.recorded kept.sound (step_move inner)
  exact ⟨step_family inner kept.family, recorded, sound⟩

theorem start_kept : Kept start := by
  have unused (p : Slot) (other : p ≠ initproc) : initial.phase p = .unused := by
    simp [State.phase, initial, other, unusedProc, ProcState.phase]
  have alive : initial.phase initproc = .alive := initial_family.init
  refine ⟨initial_family, ⟨?_, ?_, ?_, ?_, ?_, ?_, ?_, ?_⟩, ⟨?_, ?_, ?_, ?_⟩⟩
  · simp [start]
  · intro p q used used' _
    by_cases first : p = initproc
    · by_cases second : q = initproc
      · rw [first, second]
      · exact absurd (unused q second) used'
    · exact absurd (unused p first) used
  · intro p other used
    exact absurd (unused p other) used
  · intro p dead
    by_cases first : p = initproc
    · rw [first] at dead
      exact absurd (alive.symm.trans dead) (by simp)
    · exact absurd ((unused p first).symm.trans dead) (by simp)
  · intro p status _ task
    cases task
  · simp [start]
  · simp [start]
  · intro p _
    rfl
  all_goals simp [start]

/-! ## A zombie that stays is there for a later wait -/

structure Ready (s : State) (p : Slot) : Prop where
  running : (s.proc p).state = .running
  place : s.pc p = .outside
  free : s.waitLock = none

def ZombieChild (s : State) (p np : Slot) : Prop := (s.proc np).parent = some p ∧ (s.proc np).state = .zombie

structure Reaps (x : Traced) (p np : Slot) (z : Traced) : Prop where
  ready : Ready z.state p
  table : z.state.proc = update x.state.proc np (freeproc (x.state.proc np))
  names : z.history.name = x.history.name
  wait : ∃ w ∈ z.history.waits, w.child = x.history.name np ∧ w.waiter = x.history.name p

theorem scan_reaps {n : Nat} (running : (x.state.proc p).state = .running)
    (place : x.state.pc p = .waiting i havekids) (distance : np.val = i + n) (dead : ZombieChild x.state p np)
    (first : ∀ q : Slot, i ≤ q.val → q.val < np.val → ¬ ZombieChild x.state p q) :
    ∃ z, run tracedStep x (List.replicate (n + 1) (.next p true)) = some z ∧ Reaps x p np z := by
  have below : i < NPROC := by
    omega
  induction n generalizing x i havekids with
  | zero =>
    obtain rfl : i = np.val := by omega
    have other : p ≠ np := by
      rintro rfl
      rw [dead.2] at running
      cases running
    refine ⟨⟨(State.goto { x.state with waitLock := none } p .outside).set np (freeproc (x.state.proc np)),
      x.history.record x.state (.next p true)⟩, ?_, ⟨?_, ?_, rfl⟩, rfl, ?_, ?_⟩
    · simp [tracedStep, step, running, nextSection, place, waitSlot, dead.1, dead.2]
    · simp [State.set, other, running]
    · simp [State.set]
    · simp [History.record, place, waitEntry, dead.1, dead.2, History.add]
    · simp [History.record, place, waitEntry, dead.1, dead.2, History.add]
  | succ n ih =>
    have notYet : ¬ ZombieChild x.state p ⟨i, below⟩ := first ⟨i, below⟩ (Nat.le_refl i) (by dsimp only; omega)
    obtain ⟨y, taken, table, history, running', place'⟩ : ∃ y, tracedStep x (.next p true) = some y ∧
        y.state.proc = x.state.proc ∧ y.history = x.history ∧ (y.state.proc p).state = .running ∧
        ∃ more, y.state.pc p = .waiting (i + 1) more := by
      have silent : entry x.state (.next p true) = none := by
        simp only [entry, ↓reduceIte, place, waitEntry, below, ↓reduceDIte]
        exact if_neg notYet
      by_cases child : (x.state.proc ⟨i, below⟩).parent = some p
      · have alive : (x.state.proc ⟨i, below⟩).state ≠ .zombie := fun dead => notYet ⟨child, dead⟩
        refine ⟨⟨x.state.goto p (.waiting (i + 1) true), x.history⟩, ?_, rfl, rfl, running, true, ?_⟩
        · simp [tracedStep, step, running, nextSection, place, waitSlot, below, child, alive, record_silent silent]
        · simp
      · refine ⟨⟨x.state.goto p (.waiting (i + 1) havekids), x.history⟩, ?_, rfl, rfl, running, havekids, ?_⟩
        · simp [tracedStep, step, running, nextSection, place, waitSlot, below, child, record_silent silent]
        · simp
    obtain ⟨more, place'⟩ := place'
    have same (q : Slot) : ZombieChild y.state p q ↔ ZombieChild x.state p q := by
      simp only [ZombieChild, table]
    obtain ⟨z, rest, reaps⟩ := ih running' place' (by omega) ((same np).mpr dead)
      (fun q low high => fun zombie => first q (by omega) high ((same q).mp zombie))
      (by have := np.isLt; omega)
    refine ⟨z, ?_, reaps.ready, ?_, ?_, ?_⟩
    · rw [List.replicate_succ, run_cons, taken, Option.bind_some, rest]
    · rw [reaps.table, table]
    · rw [reaps.names, history]
    · rw [← history]
      exact reaps.wait

theorem wait_reaps (ready : Ready x.state p) (dead : ZombieChild x.state p np)
    (first : ∀ q : Slot, q.val < np.val → ¬ ZombieChild x.state p q) :
    ∃ fs z, run tracedStep x fs = some z ∧ Reaps x p np z := by
  have taken : tracedStep x (.wait p) =
      some ⟨{ x.state with waitLock := some p }.goto p (.waiting 0 false), x.history⟩ := by
    simp [tracedStep, step, ready.free, enter, ready.running, ready.place, History.record]
  have place : (State.goto { x.state with waitLock := some p } p (.waiting 0 false)).pc p = .waiting 0 false := by
    simp
  obtain ⟨z, rest, reaps⟩ := scan_reaps
    (x := ⟨{ x.state with waitLock := some p }.goto p (.waiting 0 false), x.history⟩) ready.running
    place (Nat.zero_add np.val).symm dead fun q _ high => first q high
  refine ⟨.wait p :: List.replicate (np.val + 1) (.next p true), z, ?_, reaps.ready, reaps.table, reaps.names, reaps.wait⟩
  rw [run_cons, taken, Option.bind_some, rest]

theorem later_wait_reaps (ready : Ready x.state p) (dead : ZombieChild x.state p np) :
    ∃ fs z, run tracedStep x fs = some z ∧
      ∃ w ∈ z.history.waits, w.child = x.history.name np ∧ w.waiter = x.history.name p := by
  have cleared (k : Nat) (low : k ≤ np.val) : ∃ fs y, run tracedStep x fs = some y ∧ Ready y.state p ∧
      ZombieChild y.state p np ∧ y.history.name = x.history.name ∧
      ∀ q : Slot, q.val < k → ¬ ZombieChild y.state p q := by
    induction k with
    | zero => exact ⟨[], x, rfl, ready, dead, rfl, by simp⟩
    | succ k ih =>
      obtain ⟨fs, y, reached, ready', dead', names, first⟩ := ih (by omega)
      have below : k < NPROC := by
        omega
      by_cases zombie : ZombieChild y.state p ⟨k, below⟩
      · obtain ⟨gs, z, more, reaps⟩ := wait_reaps ready' zombie first
        have kept (q : Slot) (other : q ≠ ⟨k, below⟩) : ZombieChild z.state p q ↔ ZombieChild y.state p q := by
          simp only [ZombieChild, reaps.table, update_of_ne other]
        refine ⟨fs ++ gs, z, ?_, reaps.ready, ?_, reaps.names.trans names, ?_⟩
        · rw [run_append, reached, Option.bind_some, more]
        · grind
        · intro q lower
          by_cases same : q = ⟨k, below⟩
          · subst same
            simp [ZombieChild, reaps.table, freeproc]
          · grind
      · grind
  obtain ⟨fs, y, reached, ready', dead', names, first⟩ := cleared np.val (Nat.le_refl _)
  obtain ⟨gs, z, more, reaps⟩ := wait_reaps ready' dead' first
  refine ⟨fs ++ gs, z, ?_, ?_⟩
  · rw [run_append, reached, Option.bind_some, more]
  · rw [← names]
    exact reaps.wait

theorem copyout_fails {y : Traced} (place : x.state.pc p = .waiting np.val havekids)
    (dead : ZombieChild x.state p np) (taken : tracedStep x (.next p false) = some y) :
    y.state.proc = x.state.proc ∧ y.history = x.history ∧ Ready y.state p := by
  simp only [tracedStep, step] at taken
  split_ifs at taken with running
  · simp only [nextSection, place, waitSlot, np.isLt, ↓reduceDIte, dead.1, dead.2, ↓reduceIte, Option.map_some,
      Option.some.injEq, Bool.false_eq_true] at taken
    subst taken
    refine ⟨rfl, by simp [History.record], running, by simp, rfl⟩
  · simp at taken

/-! ## Every child is reaped once, with its own status -/

theorem reaped_once {es : List Event} {x : Traced} (reached : run tracedStep start es = some x) :
    (x.history.waits.map Wait.child).Nodup ∧
    (x.history.forks.map Prod.fst).Nodup ∧ (x.history.exits.map Prod.fst).Nodup ∧
    (∀ w ∈ x.history.waits, (w.child, w.pid) ∈ x.history.forks ∧ (w.child, w.status) ∈ x.history.exits ∧
      w.parent = some w.waiter) ∧
    ∀ p np havekids y, x.state.pc p = .waiting np.val havekids → ZombieChild x.state p np →
      tracedStep x (.next p false) = some y →
      ZombieChild y.state p np ∧ y.history = x.history ∧
        ∃ fs z, run tracedStep y fs = some z ∧
          ∃ w ∈ z.history.waits, w.child = y.history.name np ∧ w.waiter = y.history.name p := by
  have kept : Kept x := run_inductive (fun _ _ _ => tracedStep_kept) start_kept reached
  refine ⟨kept.sound.waits.1, kept.sound.forks.1, kept.sound.exits.1, kept.sound.pairs, ?_⟩
  intro p np havekids y place dead taken
  obtain ⟨table, history, ready⟩ := copyout_fails place dead taken
  have dead' : ZombieChild y.state p np := by
    simp only [ZombieChild, table]
    exact dead
  exact ⟨dead', history, later_wait_reaps ready dead'⟩

end

-- The child of init exits with 7; init's first wait for it gives a bad address.
def forkExitWait : List Event :=
  [.schedule 0, .fork 0, .next 0 true, .next 0 true, .next 0 true, .next 0 true, .schedule 1, .exit 1 7,
    .next 1 true, .wait 0, .next 0 true, .next 0 false, .wait 0, .next 0 true, .next 0 true]

theorem reaped_once_forkExitWait : ∃ x, run tracedStep start forkExitWait = some x ∧
    x.history.waits.map (fun w => (w.pid, w.status)) = [(2, 7)] ∧
    ∀ w ∈ x.history.waits, (w.child, w.pid) ∈ x.history.forks ∧ (w.child, w.status) ∈ x.history.exits ∧
      w.parent = some w.waiter := by
  refine exists_some_of (fun x => x.history.waits.map (fun w => (w.pid, w.status)) = [(2, 7)]) (by decide +kernel)
    fun x reached pairs => ?_
  exact ⟨pairs, (reaped_once reached).2.2.2.1⟩

end Xv6.ProcTable
