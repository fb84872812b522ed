import Xv6.Fs.LockSound

namespace Xv6.Fs
open Lib Function

/-! ## Runs

No inode is freed while another process is at the end of `ialloc`, about to take a reference to it. -/

def State.Frees (s : State) (e : Entry) : Prop :=
  (s.table e).ref = 1 ∧ (s.table e).valid = true ∧ (s.table e).copy.nlink = 0

instance (s : State) (e : Entry) : Decidable (s.Frees e) := inferInstanceAs (Decidable (_ ∧ _ ∧ _))

def putting (u : FsSystem) (p : Slot) : Option Entry :=
  match u.thread p with
  | some (.ask (.inl (.putLast e)) _) => some e
  | _ => none

def making (u : FsSystem) (p : Slot) : Option Nat :=
  match u.thread p with
  | some (.ask (.inl (.iget inum true)) _) => some inum
  | _ => none

def Fair (u : FsSystem) : FsTurn → Prop
  | .next p => match putting u p with
      | some e => u.shared.Frees e → ∀ q, q ≠ p → making u q ≠ some (u.shared.table e).inum
      | none => True
  | _ => True

instance decidableFair (u : FsSystem) : (turn : FsTurn) → Decidable (Fair u turn)
  | .next p => match found : putting u p with
      | some e => decidable_of_iff (u.shared.Frees e → ∀ q, q ≠ p → making u q ≠ some (u.shared.table e).inum)
          (by simp only [Fair, found])
      | none => isTrue (by simp only [Fair, found])
  | .call .. => isTrue trivial
  | .outside _ => isTrue trivial

abbrev both : Contract (Sum.elim Answer IoAnswer) (Held × Stage) := contractAll.prod Order.all

def BothAtRest (h : Held × Stage) : Prop := AtRest h.1 ∧ h.2.AtRest

def Sorted (s : State) (held : Slot → Held × Stage) : Prop := ∃ a, Tracked a s held

section
variable {a : Ages} {s t : State} {held : Slot → Held × Stage} {p q : Slot} {k : Know} {e : Entry} {r : Req}

theorem Moves.sound {x : Answer r} (moves : Moves t held p r x) :
    ∃ held', Sorted t held' ∧ both.post (.inl r) (held p) x (held' p) ∧
      ∀ q, q ≠ p → Untouched both BothAtRest held held' q := by
  obtain ⟨a', h', stage, after, kept, ordered⟩ := moves
  refine ⟨_, ⟨a', after⟩, ?_, fun q other => .inl (update_of_ne other ..)⟩
  rw [update_self]
  exact ⟨kept, ordered⟩

theorem Tracked.perform_made {x : Answer r} {inum : Nat} {type : Int} (tracked : Tracked a s held)
    (here : (held p).2 = .made k inum type) (asked : contract.pre r (held p).1) (order : r = .iget inum true ∧ inum < 65536)
    (taken : (perform p r).run s = .ok (x, t)) : Moves t held p r x := by
  obtain ⟨rfl, small⟩ := order
  obtain ⟨h', ledger, kept⟩ := tracked.ledger.perform_own asked rfl taken
  obtain ⟨a', k', after, done, known⟩ := tracked.iget_made here small taken kept ledger
  refine ⟨a', h', .idle k', after, kept, ?_⟩
  rw [here]
  exact ⟨k', done, known, rfl⟩

/-! ### `fork` and `wait` -/

theorem not_runnable {h : Held × Stage} (silent : ∀ r, ¬ contract.pre r h.1) (r : Req ⊕ Io) : ¬ both.pre r h := by
  have stopped : h.1.proc.status ≠ .runnable := fun runs => silent .beginOp ⟨runs, trivial⟩
  cases r with
  | inl r | inr r => exact fun asked => stopped asked.1.1

theorem fork_stays {x : Answer r} {h h' : Held} (forks : r.forks = true) (kept : post r h x h') : Stays h h' := by
  cases r with
  | allocproc np =>
    cases x with
    | none | some np =>
      obtain rfl : h' = _ := kept
      exact ⟨rfl, rfl, rfl⟩
  | freeproc np | dupFile np fd | dupCwd np | setRunnable np =>
    obtain rfl : h' = _ := kept
    exact ⟨rfl, rfl, rfl⟩
  | _ => cases forks

theorem fork_order {x : Answer r} (forks : r.forks = true) : Order.post r k x k := by
  cases r with
  | allocproc np | freeproc np | dupFile np fd | dupCwd np | setRunnable np => exact Know.To.refl k
  | _ => cases forks

structure Forks (s t : State) : Prop where
  alike : Alike s t
  tables : Tables t
  files : ∀ f, (t.file f).type = (s.file f).type ∧ (t.file f).ip = (s.file f).ip ∧ (t.file f).writable = (s.file f).writable

theorem Tables.forks (tables : Tables s) (inodes : t.disk = s.disk ∧ t.slots = s.slots ∧ t.lock = s.lock ∧ t.table = s.table ∧
    t.ninodes = s.ninodes) (files : ∀ f, (t.file f).type = (s.file f).type ∧ (t.file f).ip = (s.file f).ip ∧
      (t.file f).writable = (s.file f).writable) : Forks s t := by
  obtain ⟨disk, slots, lock, table, ninodes⟩ := inodes
  have alike : Alike s t := ⟨disk, slots, lock, fun _ _ => by rw [table], fun _ _ => by rw [table], fun _ _ => by rw [table]⟩
  refine ⟨alike, alike.tables tables ninodes fun e used => ?_, files⟩
  rwa [table] at used

section

variable (tracked : Tracked a s held)

include tracked

variable {x : Answer r}

theorem Tracked.forks (here : (held p).2 = .idle k)
    (order : Order.pre k r) (forks : r.forks = true) (taken : (perform p r).run s = .ok (x, t)) : Forks s t := by
  have procs {q : Slot} {v : Proc} : Forks s (s.setProc q v) :=
    tracked.tables.forks ⟨rfl, rfl, rfl, rfl, rfl⟩ fun _ => ⟨rfl, rfl, rfl⟩
  have same : Forks s s := tracked.tables.forks ⟨rfl, rfl, rfl, rfl, rfl⟩ fun _ => ⟨rfl, rfl, rfl⟩
  cases r with
  | allocproc np => grind [Fs.perform, StateT.run]
  | freeproc np | setRunnable np =>
    cases taken
    exact procs
  | dupFile np fd =>
    simp only [Fs.perform, StateT.run, State.dupFile] at taken
    cases found : (s.proc p).ofile fd with
    | none =>
      simp only [found] at taken
      cases taken
      exact same
    | some f =>
      simp only [found] at taken
      split_ifs at taken
      cases taken
      refine tracked.tables.forks ⟨rfl, rfl, rfl, rfl, rfl⟩ fun f' => ?_
      by_cases equal : f' = f
      · subst equal
        rw [show State.file _ f' = { s.file f' with ref := (s.file f').ref + 1 } from update_self ..]
        exact ⟨rfl, rfl, rfl⟩
      · rw [show State.file _ f' = s.file f' from update_of_ne equal ..]
        exact ⟨rfl, rfl, rfl⟩
  | dupCwd np =>
    simp only [Fs.perform, StateT.run, State.dupCwd] at taken
    cases found : (s.proc p).cwd with
    | none => simp [found] at taken
    | some e =>
      simp only [found] at taken
      cases taken
      have alike := addRef_alike s e 1
      have used : 0 < (s.table e).ref := by
        refine tracked.used_by here (.inl (order e ?_))
        rw [(tracked.know here).cwd, tracked.ledger.procs.same p]
        exact found
      have tables : Tables (s.addRef e 1) := alike.tables tracked.tables rfl fun e' used' => by
        rw [addRef_ref] at used'
        split_ifs at used' with equal
        · rwa [equal]
        · omega
      exact ⟨⟨alike.disk, alike.slots, alike.lock, alike.inum, alike.valid, alike.copy⟩,
        ⟨tables.unique, tables.faithful, tables.small, tables.ninodes⟩, fun _ => ⟨rfl, rfl, rfl⟩⟩
  | _ => cases forks

theorem Tracked.perform_fork (here : (held p).2 = .idle k)
    (asked : contract.pre r (held p).1) (order : Order.pre k r) (forks : r.forks = true)
    (taken : (perform p r).run s = .ok (x, t)) :
    ∃ held', Sorted t held' ∧ both.post (.inl r) (held p) x (held' p) ∧
      ∀ q, q ≠ p → Untouched both BothAtRest held held' q := by
  obtain ⟨alike, tables, files⟩ := tracked.forks here order forks taken
  obtain ⟨held', ledger, kept, others⟩ := tracked.ledger.perform asked taken
  obtain ⟨stages, after, each⟩ := tracked.settle (fun q => q ≠ p ∧ held' q ≠ (held q).1) alike tables files ledger
    (fun q ⟨other, changed⟩ => ((others q other).resolve_left changed).2) fun q stays => by
      by_cases own : q = p
      · subst own
        exact fork_stays forks kept
      · rw [not_not.mp fun changed => stays ⟨own, changed⟩]
        exact .refl _
  refine ⟨_, ⟨a, after⟩, ⟨kept, ?_⟩, fun q other => ?_⟩
  · have mine : stages p = .idle k := by grind
    rw [mine, here]
    exact ⟨k, fork_order forks, by cases r <;> first | rfl | cases forks⟩
  · rcases each q with ⟨stays, same⟩ | ⟨⟨_, changed⟩, rested⟩
    · exact .inl (Prod.ext (not_not.mp fun changed => stays ⟨other, changed⟩) same)
    · obtain ⟨silent, rested'⟩ := (others q other).resolve_left changed
      exact .inr ⟨not_runnable silent, rested', rested⟩

theorem Tracked.reap (taken : reap s q = some t) :
    ∃ held', Sorted t held' ∧ ∀ r, Untouched both BothAtRest held held' r := by
  unfold Fs.reap at taken
  split_ifs at taken with zombie
  cases taken
  obtain ⟨alike, tables, files⟩ : Forks s (s.setProc q { s.proc q with status := .unused }) :=
    tracked.tables.forks ⟨rfl, rfl, rfl, rfl, rfl⟩ fun _ => ⟨rfl, rfl, rfl⟩
  obtain ⟨stages, after, each⟩ := tracked.settle ((· = q)) alike tables files (tracked.ledger.reap zombie)
    (fun r here => by rw [here, update_self]; rfl) fun r other => by
      rw [update_of_ne other]
      exact ⟨rfl, rfl, rfl⟩
  refine ⟨_, ⟨a, after⟩, fun r => ?_⟩
  rcases each r with ⟨other, same⟩ | ⟨rfl, rested⟩
  · refine .inl (Prod.ext ?_ same)
    dsimp only
    rw [update_of_ne other]
  · refine .inr ⟨not_runnable fun req asked => ?_, ?_, rested⟩
    · have runs := asked.1
      rw [tracked.ledger.procs.same r, zombie] at runs
      cases runs
    · dsimp only
      rw [update_self]
      rfl

/-! ### Reads and writes -/

theorem Tracked.performIo {r : Io} {x : IoAnswer r} (here : (held p).2 = .idle k)
    (asked : contractIo.pre r (held p).1) (order : Order.preIo k r) (taken : (performIo r).run s = .ok (x, t)) :
    Follow t held p (held p).1 (Order.postIo r k x) := by
  have ledger : Ledger t (update (fun q => (held q).1) p (held p).1) := by
    rw [update_eq_self]
    exact tracked.ledger.performIo taken
  have mind := tracked.know here
  cases r with
  | file f =>
    cases taken
    by_cases stands : (s.file f).OfInode
    · obtain ⟨typed, plain⟩ := tracked.opened f stands
      have learns (F : Fact) (learning : F = .file f (s.file f).ip ∨ F = .type (s.file f).ip (s.kind (s.file f).ip)) :
          (k.next id id (fun _ => True) fun F => F = .file f (s.file f).ip ∨
            F = .type (s.file f).ip (s.kind (s.file f).ip)).Protects F.entry ∧ F.Holds a s p (held p).1 := by
        rcases learning with rfl | rfl
        · exact ⟨.inr ⟨f, .inr (.inl rfl)⟩, asked.2, stands, rfl⟩
        · exact ⟨.inr ⟨f, .inr (.inl rfl)⟩, typed, rfl⟩
      refine (tracked.count (Stage.know_idle here) (SameInodes.refl s).alike rfl rfl ledger tracked.tables ⟨mind.refs.symm, rfl,
        mind.nonneg, fun e member => (mind.locked e member).wider, fun F known _ => (mind.guarded F known).wider, learns⟩
        ⟨?_, ?_⟩).mono fun k' learns => ⟨_, plain, learns.mono (fun _ => id) fun _ learning => learning.2⟩
      · intro q e _ sole
        refine ⟨?_, ?_⟩
        · rintro type (same | same)
          · cases same
          · injection same with same
            exact (tracked.sole q e sole).1 f stands same.symm
        · rintro n (same | same) <;> cases same
      · rintro e (same | same) <;> cases same
    · refine (tracked.silent here (.refl s) (.refl _) ledger).mono fun k' learns => ⟨0, fun _ => by decide, ?_⟩
      exact learns.mono (fun _ => id) fun F learning => absurd learning.1 stands
  | setOff f off =>
    cases taken
    exact tracked.sameFile here ledger rfl rfl (fun _ => Int.le_refl _) rfl rfl rfl
  | writei e off n got data => exact tracked.writei here order (Except.ok.inj taken) rfl ledger

end

/-! ### The machine -/

theorem Fair.made {s : FsSystem} (fair : Fair s (.next p)) (owns : ∀ q, Owns both BothAtRest (held q) (s.thread q))
    {rest : Answer (.putLast e) → IoOp Int} (running : s.thread p = some (.ask (.inl (.putLast e)) rest))
    (frees : s.shared.Frees e) (other : q ≠ p) (type : Int) : (held q).2 ≠ .made k (s.shared.table e).inum type := by
  intro made
  have owned := owns q
  cases thread : s.thread q with
  | none =>
    rw [thread] at owned
    have rested := owned.2
    rw [made] at rested
    exact rested
  | some prog =>
    rw [thread] at owned
    cases prog with
    | ret result =>
      have rested := owned.2
      rw [made] at rested
      exact rested
    | ask r rest' =>
      have asked := owned.1.2
      rw [made] at asked
      cases r with
      | inl r =>
        obtain ⟨rfl, _⟩ := asked
        simp only [Fair, putting, running] at fair
        refine fair frees q other ?_
        simp only [making, thread]
      | inr r => exact asked

theorem fsMachine_sound : SoundIf fsMachine Fair both BothAtRest Sorted where
  perform s held p r rest x t sorted owns running fair taken := by
    obtain ⟨a, tracked⟩ := sorted
    have safe := owns p
    rw [running] at safe
    obtain ⟨⟨asked, order⟩, -⟩ := safe
    cases here : (held p).2 with
    | made k inum type =>
      rw [here] at order
      cases r with
      | inl r => exact (tracked.perform_made here asked order taken).sound
      | inr r => exact order.elim
    | idle k =>
      rw [here] at order
      cases r with
      | inl r =>
        cases forks : r.forks with
        | true => exact tracked.perform_fork here asked order forks taken
        | false =>
          refine (tracked.perform_own here asked order ?_ forks taken).sound
          rintro e rfl frees q k' type other
          exact fair.made owns running frees other type
      | inr r =>
        obtain ⟨a', k', after, done⟩ := tracked.performIo here asked order taken
        refine ⟨_, ⟨a', after⟩, ?_, fun q other => .inl (update_of_ne other ..)⟩
        rw [update_self]
        refine ⟨rfl, ?_⟩
        rw [here]
        exact ⟨k', done, rfl⟩
  call s held p c sorted enabled atRest := by
    obtain ⟨a, tracked⟩ := sorted
    have runs : (held p).1.proc.status = .runnable := by
      rw [tracked.ledger.procs.same p]
      exact of_decide_eq_true enabled
    cases here : held p with
    | mk h stage =>
      rw [here] at runs atRest
      cases stage with
      | made k inum type => exact atRest.2.elim
      | idle k =>
        have safe := (safe_fsProgram (inside_of_rest atRest.1 runs) p c).prod (order_fsProgram atRest.2 p c)
        refine safe.mono fun result h' ⟨rested, known⟩ => ⟨rested, ?_⟩
        cases at' : h'.2 with
        | made k inum type | idle k =>
          rw [at'] at known
          exact known
  outside s held q t sorted taken := by
    obtain ⟨a, tracked⟩ := sorted
    exact tracked.reap taken

structure WellFormed (u : FsSystem) : Prop where
  quiet : ∀ p, u.thread p = none
  ledger : Ledger u.shared fun p => rested (u.shared.proc p)
  tables : Tables u.shared
  ordered : ∃ a, Ordered a u.shared
  opened : Opened u.shared

theorem WellFormed.inv (start : WellFormed u) : u.Inv both BothAtRest Sorted := by
  obtain ⟨a, ordered⟩ := start.ordered
  refine ⟨fun p => (rested (u.shared.proc p), .idle (Know.rest (u.shared.proc p).cwd)),
    ⟨a, start.ledger, start.tables, ordered, start.opened, fun p => ?_, nofun, nofun⟩, fun p => ?_⟩
  · exact start.ledger.mind_rest rfl
  · rw [start.quiet p]
    exact ⟨rfl, rest_atRest _⟩

theorem fair_run {v : FsSystem} {turns : List FsTurn} (start : WellFormed u) (fair : Meets fsMachine.step Fair u turns)
    (taken : run fsMachine.step u turns = some v) : v.Inv both BothAtRest Sorted :=
  start.inv.runIf fsMachine_sound fair taken

end

end Xv6.Fs
