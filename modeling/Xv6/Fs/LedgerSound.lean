import Xv6.Fs.LedgerProcs

namespace Xv6.Fs
open Lib Function

/-! ## The system

Any number of processes are inside system calls at the same time; `wait` of the parent frees the slot
of a zombie. -/

def reap (s : State) (q : Slot) : Option State :=
  if (s.proc q).status = .zombie then some (s.setProc q { s.proc q with status := .unused }) else none

def machine : Machine State Stop Slot Call Slot Answer Int where
  perform := perform
  program := syscall
  enabled s p := (s.proc p).status = .runnable
  outside := reap

section
variable {s t : State} {held held' : Slot → Held} {p q : Slot} {r : Req}

theorem stateBalance_ops (s : State) (n : Int) :
    stateBalance { s with outstanding := s.outstanding + n } = stateBalance s + (n, 0, 0, 0) := by
  refine Prod.ext rfl (Prod.ext ?_ (Prod.ext ?_ ?_))
  · exact (add_zero _).symm
  · exact (add_zero _).symm
  · exact (add_zero _).symm

theorem filealloc_cases (s : State) : s.filealloc = (none, s) ∨
    ∃ f, (s.file f).ref = 0 ∧ s.filealloc = (some f, s.setFile f { s.file f with ref := 1 }) := by
  unfold State.filealloc
  split
  · exact .inl rfl
  · grind

theorem sound_own {x : Answer r} {h : Held} (after : Ledger t (update held p h)) (kept : post r (held p) x h) :
    ∃ h, Ledger t (update held p h) ∧ post r (held p) x h :=
  ⟨h, after, kept⟩

theorem sound_quiet {x : Answer r} (ledger : Ledger s held) (same : SameAccounts s t)
    (kept : post r (held p) x (held p)) : ∃ h, Ledger t (update held p h) ∧ post r (held p) x h := by
  refine ⟨held p, ?_, kept⟩
  rw [update_eq_self]
  exact ledger.quiet same

theorem sameAccounts_refl (s : State) : SameAccounts s s := sameAccounts_disk s s.disk s.slots

theorem sound_fork {x : Answer r} {v : Proc} {c : Option Child} (ledger : Ledger s held) (other : q ≠ p)
    (asleep : (s.proc q).status ≠ .runnable) (after : Ledger t (forked held p q v c))
    (kept : post r (held p) x { held p with child := c }) :
    ∃ held', Ledger t held' ∧ post r (held p) x (held' p) ∧ ∀ q, q ≠ p → Untouched contract AtRest held held' q := by
  refine ⟨_, after, ?_, ?_⟩
  · rw [forked, update_self]
    exact kept
  · intro r' different
    by_cases same : r' = q
    · subst same
      refine .inr ⟨fun r asked => asleep ?_, ?_⟩
      · rw [← ledger.procs.same r']
        exact asked.1
      · rw [forked, update_of_ne different, update_self]
        rfl
    · left
      rw [forked, update_of_ne different, update_of_ne same]

def Req.forks : Req → Bool
  | .allocproc _ | .freeproc _ | .dupFile .. | .dupCwd _ | .setRunnable _ => true
  | _ => false

theorem Ledger.perform_own {x : Answer r} (ledger : Ledger s held) (asked : contract.pre r (held p))
    (own : r.forks = false) (taken : (perform p r).run s = .ok (x, t)) :
    ∃ h, Ledger t (update held p h) ∧ post r (held p) x h := by
  obtain ⟨runs, asked⟩ := asked
  cases r with
  | panic why => cases x
  | beginOp =>
    cases taken
    exact sound_own (ledger.adjust runs (stateBalance_ops s 1) rfl rfl rfl rfl rfl rfl rfl rfl) rfl
  | endOp =>
    cases taken
    exact sound_own (ledger.adjust runs (stateBalance_ops s (-1)) rfl rfl rfl rfl rfl rfl rfl rfl) rfl
  | ninodes | inode e | inum e | readDirent e off =>
    cases taken
    exact sound_quiet ledger (sameAccounts_refl s) rfl
  | iget inum _ =>
    obtain ⟨balance, lock, file, pipe, allocs, frees, proc⟩ := iget_accounts taken
    exact sound_own (ledger.adjust runs balance rfl rfl lock file pipe allocs frees proc) rfl
  | idup e =>
    cases taken
    exact sound_own (ledger.adjust runs (stateBalance_addRef s e) rfl rfl rfl rfl rfl rfl rfl rfl) rfl
  | acquire e =>
    simp only [Fs.perform, StateT.run] at taken
    split_ifs at taken with low free
    cases taken
    exact sound_own (ledger.acquire runs free) rfl
  | fill e => exact sound_quiet ledger (sameAccounts_fill taken) rfl
  | store e d | invalidate e =>
    cases taken
    exact sound_quiet ledger (sameAccounts_setEntry rfl) rfl
  | iupdate e =>
    cases taken
    exact sound_quiet ledger (sameAccounts_disk s _ _) rfl
  | iunlock e =>
    simp only [Fs.perform, StateT.run] at taken
    split_ifs at taken with mine
    cases taken
    exact sound_own (ledger.release runs mine.1) rfl
  | putLast e =>
    simp only [Fs.perform, StateT.run, State.putLast] at taken
    split_ifs at taken with last free
    · cases taken
      exact sound_own (ledger.acquire runs free) ⟨ledger.balanced.lock_free free, rfl⟩
    · cases taken
      exact sound_own (ledger.adjust runs (stateBalance_dropRef s e) rfl rfl rfl rfl rfl rfl rfl rfl) rfl
  | itrunc e =>
    cases taken
    exact sound_quiet ledger (sameAccounts_itrunc s e) rfl
  | releasesleep e =>
    cases taken
    exact sound_own (ledger.release runs (ledger.balanced.lock_mine asked)) rfl
  | dropRef e =>
    cases taken
    exact sound_own (ledger.adjust runs (stateBalance_dropRef s e) rfl rfl rfl rfl rfl rfl rfl rfl) rfl
  | writeDirent e off de =>
    have same := sameAccounts_writeDirent s e off de
    rw [congrArg Prod.snd (Except.ok.inj taken)] at same
    exact sound_quiet ledger same rfl
  | tryAlloc inum type =>
    have same := sameAccounts_tryAlloc s inum type
    rw [congrArg Prod.snd (Except.ok.inj taken)] at same
    exact sound_quiet ledger same rfl
  | filealloc =>
    have ran : s.filealloc = (x, t) := Except.ok.inj taken
    rcases filealloc_cases s with full | ⟨f, zero, new⟩
    · cases full.symm.trans ran
      exact sound_quiet ledger (sameAccounts_refl s) rfl
    · cases new.symm.trans ran
      obtain ⟨unowned, missing, after⟩ := ledger.filealloc runs zero
      exact sound_own after ⟨unowned, missing, rfl⟩
  | filedup f =>
    simp only [Fs.perform, StateT.run] at taken
    split_ifs at taken with low
    cases taken
    exact sound_own (ledger.filedup runs asked.1 asked.2 low) rfl
  | fileclose f =>
    obtain ⟨h, kept, after⟩ := ledger.fileclose runs asked taken
    exact sound_own after kept
  | setInode f device ip readable writable =>
    cases taken
    refine sound_own (ledger.fillFile runs asked ?_ ?_) ?_
    · cases device <;> rfl
    · intro x
      cases device <;> simpa [Held.ends, Held.add, fileBalance, reference] using ledger.balanced.ends p x
    · cases device <;> rfl
  | setPipe f page writable =>
    cases taken
    refine sound_own (ledger.fillFile runs asked.1 rfl ?_) rfl
    exact ledger.balanced.ends_sub asked.2
  | newPipe page =>
    cases page with
    | none =>
      cases taken
      exact sound_quiet ledger (sameAccounts_refl s) rfl
    | some page =>
      simp only [Fs.perform, StateT.run, State.newPipe] at taken
      split_ifs at taken with free
      cases taken
      obtain ⟨first, second, after⟩ := ledger.newPipe runs free
      exact sound_own after ⟨first, second, rfl⟩
  | pipeclose page writable => exact sound_own (ledger.pipeclose runs asked taken) rfl
  | ofile fd =>
    cases taken
    exact sound_quiet ledger (sameAccounts_refl s) ⟨by rw [ledger.procs.same p], rfl⟩
  | setOfile fd f | setCwd e =>
    cases taken
    rw [← ledger.procs.same p]
    exact sound_own (ledger.setOwn runs runs) rfl
  | cwd =>
    simp only [Fs.perform, StateT.run] at taken
    cases here : (s.proc p).cwd with
    | none => simp [here] at taken
    | some e =>
      simp only [here] at taken
      cases taken
      exact sound_quiet ledger (sameAccounts_refl s) ⟨by rw [ledger.procs.same p, here], rfl⟩
  | setZombie =>
    cases taken
    exact sound_own (ledger.setZombie runs asked.1 asked.2.1 asked.2.2) rfl
  | _ => cases own

theorem Ledger.perform {x : Answer r} (ledger : Ledger s held) (asked : contract.pre r (held p))
    (taken : (perform p r).run s = .ok (x, t)) : ∃ held', Ledger t held' ∧ post r (held p) x (held' p) ∧
      ∀ q, q ≠ p → Untouched contract AtRest held held' q := by
  cases forks : r.forks with
  | false =>
    obtain ⟨h, after, kept⟩ := ledger.perform_own asked forks taken
    refine ⟨_, after, ?_, fun q other => .inl (update_of_ne other ..)⟩
    rw [update_self]
    exact kept
  | true =>
    obtain ⟨runs, asked⟩ := asked
    cases r with
    | allocproc np =>
      cases np with
      | none =>
        cases taken
        exact ⟨held, ledger, rfl, fun _ _ => .inl rfl⟩
      | some q =>
        simp only [Fs.perform, StateT.run] at taken
        split_ifs at taken with unused
        cases taken
        refine sound_fork ledger ?_ ?_ (ledger.allocproc runs unused) rfl
        · grind [runs]
        · rw [unused]
          decide
    | freeproc np =>
      cases taken
      obtain ⟨k, found, rfl, all, bare⟩ := asked
      obtain ⟨other, asleep, alone⟩ := ledger.procs.child_of (ledger.runs runs) found
      obtain ⟨_, todo, cwd⟩ := ledger.procs.child p k found
      refine sound_fork ledger other asleep (ledger.setStatus (c := none) runs other asleep ?_ nofun alone) rfl
      exact fun _ => ⟨fun fd => todo fd (all fd), cwd bare⟩
    | dupFile np fd =>
      obtain ⟨⟨k, found, rfl, member⟩, mine⟩ := asked
      obtain ⟨other, asleep, _⟩ := ledger.procs.child_of (ledger.runs runs) found
      obtain ⟨v, after⟩ := ledger.dupFile runs found member mine taken
      exact sound_fork ledger other asleep after (by rw [post, found]; rfl)
    | dupCwd np =>
      obtain ⟨k, found, rfl, missing⟩ := asked
      obtain ⟨other, asleep, _⟩ := ledger.procs.child_of (ledger.runs runs) found
      obtain ⟨v, after⟩ := ledger.dupCwd runs found missing taken
      exact sound_fork ledger other asleep after (by rw [post, found]; rfl)
    | setRunnable np =>
      cases taken
      obtain ⟨k, found, rfl⟩ := asked
      obtain ⟨other, asleep, alone⟩ := ledger.procs.child_of (ledger.runs runs) found
      refine sound_fork ledger other asleep (ledger.setStatus (c := none) runs other asleep ?_ nofun alone) rfl
      exact fun gone => absurd gone (by decide)
    | _ => cases forks

end

end Xv6.Fs
