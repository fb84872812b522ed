import Xv6.Fs.LedgerFiles

namespace Xv6.Fs
open Lib Function

section
variable {s t : State} {held held' : Slot → Held} {p q : Slot} {h : Held} {e : Entry} {f : FileId} {v : Proc}
  {c : Option Child} {k : Child}

/-! ## Processes in the accounts -/

theorem Balanced.congr (balanced : Balanced s held) (bal : ∀ p, (held' p).bal = (held p).bal) : Balanced s held' := by
  refine ⟨?_, ?_, ?_⟩
  · rw [← balanced.total]
    exact congrArg (· + _) (Finset.sum_congr rfl fun p _ => bal p)
  · intro p e
    rw [Held.locks, bal]
    exact balanced.locks p e
  · intro p x
    rw [Held.ends, bal]
    exact balanced.ends p x

theorem Files.congr (files : Files s held) (own : ∀ p, (held' p).own = (held p).own)
    (fresh : ∀ p, (held' p).fresh = (held p).fresh) : Files s held' := by
  refine ⟨?_, ?_, files.closed, ?_⟩
  · simp [files.own, own]
  · intro p f
    rw [own]
    exact files.nonneg p f
  · intro p f
    rw [own, fresh]
    exact files.fresh p f

theorem Ledger.setOwn (ledger : Ledger s held) (runs : (held p).proc.status = .runnable) (status : v.status = .runnable) :
    Ledger (s.setProc p v) (update held p { held p with proc := v }) := by
  refine ⟨?_, ledger.files.keep rfl rfl rfl, ?_, ⟨ledger.pipes.counts, ledger.pipes.live⟩⟩
  · refine ledger.balanced.adjust (f := 0) rfl (kept_file s 0) ?_ rfl (ledger.balanced.ends p)
    rw [show stateBalance (s.setProc p v) = stateBalance s from rfl]
    simp
  · exact ledger.procs.own rfl status (ledger.runs runs) rfl

theorem Procs.stop {status : Status} (procs : Procs s held) (other : (s.proc q).status ≠ .used)
    (proc : h.proc = { s.proc q with status := status }) (empty : (∀ fd, (s.proc q).ofile fd = none) ∧ (s.proc q).cwd = none)
    (rest : AtRest h) (child : h.child = (held q).child) :
    Procs (s.setProc q { s.proc q with status := status }) (update held q h) := by
  have others (r : Slot) (different : r ≠ q) :
      (s.setProc q { s.proc q with status := status }).proc r = s.proc r := update_of_ne different ..
  have here : (s.setProc q { s.proc q with status := status }).proc q = { s.proc q with status := status } :=
    update_self ..
  refine ⟨?_, ?_, ?_, ?_, ?_⟩
  · grind [procs.same]
  · grind [procs.idle]
  · exact (forall_update_iff s.proc fun _ v => v.status = .unused ∨ v.status = .zombie →
      (∀ fd, v.ofile fd = none) ∧ v.cwd = none).mpr ⟨fun _ => empty, fun r _ => procs.empty r⟩
  · grind [procs.child]
  · grind [procs.parent]

/-! ### The child of a `fork` -/

def forked (held : Slot → Held) (p q : Slot) (v : Proc) (c : Option Child) : Slot → Held :=
  update (update held q (rested v)) p { held p with child := c }

theorem forked_bal (other : q ≠ p) (r : Slot) : (forked held p q v c r).bal = (update held q (rested v) r).bal := by
  by_cases own : r = p
  · subst own
    rw [forked, update_self, update_of_ne (Ne.symm other)]
  · rw [forked, update_of_ne own]

theorem forked_files (other : q ≠ p) (r : Slot) :
    (forked held p q v c r).own = (update held q (rested v) r).own ∧
      (forked held p q v c r).fresh = (update held q (rested v) r).fresh := by
  by_cases own : r = p
  · subst own
    rw [forked, update_self, update_of_ne (Ne.symm other)]
    exact ⟨rfl, rfl⟩
  · rw [forked, update_of_ne own]
    exact ⟨rfl, rfl⟩

theorem Procs.of_fork (procs : Procs s held) (other : q ≠ p) (runs : (s.proc p).status = .runnable)
    (proc : t.proc = update s.proc q v)
    (empty : v.status = .unused ∨ v.status = .zombie → (∀ fd, v.ofile fd = none) ∧ v.cwd = none)
    (child : ∀ k, c = some k → k.slot = q ∧ v.status = .used ∧ (∀ fd ∈ k.todo, v.ofile fd = none) ∧
      (k.cwd = false → v.cwd = none)) (alone : ∀ r k, r ≠ p → (held r).child = some k → k.slot ≠ q) :
    Procs t (forked held p q v c) := by
  have here : t.proc q = v := by rw [proc, update_self]
  have others (r : Slot) (different : r ≠ q) : t.proc r = s.proc r := by rw [proc, update_of_ne different]
  have mine : forked held p q v c p = { held p with child := c } := update_self ..
  have its : forked held p q v c q = rested v := by
    rw [forked, update_of_ne other, update_self]
  have rest (r : Slot) (notP : r ≠ p) (notQ : r ≠ q) : forked held p q v c r = held r := by
    rw [forked, update_of_ne notP, update_of_ne notQ]
  have children (r : Slot) (k : Child) (found : (forked held p q v c r).child = some k) :
      r = p ∧ c = some k ∨ r ≠ p ∧ r ≠ q ∧ (held r).child = some k := by
    by_cases own : r = p
    · grind
    · by_cases same : r = q
      · subst same
        rw [its] at found
        cases found
      · grind
  refine ⟨?_, ?_, ?_, ?_, ?_⟩
  · intro r
    by_cases own : r = p
    · subst own
      rw [mine, others r (Ne.symm other)]
      exact procs.same r
    · by_cases same : r = q
      · subst same
        rw [its, here]
        rfl
      · rw [rest r own same, others r same, procs.same]
  · intro r asleep
    by_cases own : r = p
    · grind
    · by_cases same : r = q
      · subst same
        rw [its]
        rfl
      · grind [procs.idle]
  · grind [procs.empty]
  · intro r k found
    rcases children r k found with ⟨_, new⟩ | ⟨own, _, old⟩
    · grind
    · grind [procs.child]
  · intro r r' k k' first second same
    rcases children r k first with ⟨rfl, new⟩ | ⟨own, _, old⟩
    · grind
    · rcases children r' k' second with ⟨rfl, new'⟩ | ⟨_, _, old'⟩
      · exact absurd (same.trans (child k' new').1) (alone r k own old)
      · exact procs.parent r r' k k' old old' same

theorem rested_ends (v : Proc) (x : Page × Bool) : 0 ≤ (rested v).ends x := by
  unfold rested Held.ends cwdBalance
  cases v.cwd <;> exact le_rfl

theorem rested_locks (v : Proc) : (rested v).locks = 0 := by
  unfold rested Held.locks cwdBalance
  cases v.cwd <;> rfl

theorem Procs.rested (procs : Procs s held) (asleep : (s.proc q).status ≠ .runnable) : held q = rested (s.proc q) := by
  rw [← procs.same q]
  exact procs.idle q asleep

theorem Ledger.setIdle (ledger : Ledger s held) (other : q ≠ p) (asleep : (s.proc q).status ≠ .runnable)
    (lock : t.lock = s.lock) (pipe : t.pipe = s.pipe) (allocs : t.allocs = s.allocs) (frees : t.frees = s.frees)
    (balance : stateBalance t = stateBalance s + (cwdBalance v.cwd - cwdBalance (s.proc q).cwd))
    (file : ∃ f w, t.file = update s.file f w ∧ fileBalance w = fileBalance (s.file f))
    (files : Files t (update held q (rested v))) (procs : Procs t (forked held p q v c)) :
    Ledger t (forked held p q v c) := by
  refine ⟨?_, ?_, procs, ⟨?_, ?_⟩⟩
  · obtain ⟨f, w, file, stands⟩ := file
    refine Balanced.congr ?_ (forked_bal other)
    refine ledger.balanced.adjust lock file ?_ ?_ (rested_ends v)
    · rw [balance, stands, ledger.procs.rested asleep]
      simp [Fs.rested]
    · rw [ledger.procs.rested asleep, rested_locks, rested_locks]
  · exact files.congr (fun r => (forked_files other r).1) fun r => (forked_files other r).2
  · rw [allocs, frees, pipe]
    exact ledger.pipes.counts
  · rw [pipe]
    exact ledger.pipes.live

theorem Ledger.setStatus {status : Status} (ledger : Ledger s held)
    (runs : (held p).proc.status = .runnable) (other : q ≠ p) (asleep : (s.proc q).status ≠ .runnable)
    (empty : status = .unused ∨ status = .zombie → (∀ fd, (s.proc q).ofile fd = none) ∧ (s.proc q).cwd = none)
    (child : ∀ k, c = some k → k.slot = q ∧ status = .used ∧ (∀ fd ∈ k.todo, (s.proc q).ofile fd = none) ∧
      (k.cwd = false → (s.proc q).cwd = none)) (alone : ∀ r k, r ≠ p → (held r).child = some k → k.slot ≠ q) :
    Ledger (s.setProc q { s.proc q with status := status }) (forked held p q { s.proc q with status := status } c) := by
  refine ledger.setIdle other asleep rfl rfl rfl rfl ?_ ⟨0, _, kept_file s 0, rfl⟩ ?_ ?_
  · rw [sub_self, add_zero]
    rfl
  · refine ledger.files.keep rfl ?_ ?_
    · rw [ledger.procs.rested asleep]
      rfl
    · rw [ledger.procs.rested asleep]
      rfl
  · exact ledger.procs.of_fork other (ledger.runs runs) rfl empty child alone

theorem Procs.child_of (procs : Procs s held) (runs : (s.proc p).status = .runnable)
    (found : (held p).child = some k) : k.slot ≠ p ∧ (s.proc k.slot).status ≠ .runnable ∧
      ∀ r k', r ≠ p → (held r).child = some k' → k'.slot ≠ k.slot := by
  have used := (procs.child p k found).1
  refine ⟨?_, ?_, ?_⟩
  · intro same
    rw [same, runs] at used
    cases used
  · rw [used]
    decide
  · grind [procs.parent]

theorem Ledger.allocproc (ledger : Ledger s held) (runs : (held p).proc.status = .runnable)
    (unused : (s.proc q).status = .unused) :
    Ledger (s.setProc q { s.proc q with status := .used })
      (forked held p q { s.proc q with status := .used } (some ⟨q, List.finRange NOFILE, false⟩)) := by
  have empty := ledger.procs.empty q (.inl unused)
  refine ledger.setStatus runs ?_ ?_ nofun ?_ ?_
  · rintro rfl
    rw [ledger.runs runs] at unused
    cases unused
  · rw [unused]
    decide
  · grind
  · grind [ledger.procs.child]

theorem Procs.filled {fd : Fd} (procs : Procs s held) (runs : (s.proc p).status = .runnable)
    (found : (held p).child = some k) (status : v.status = .used) (cwd : v.cwd = (s.proc k.slot).cwd)
    (ofile : ∀ fd', fd' ≠ fd → v.ofile fd' = (s.proc k.slot).ofile fd') (proc : t.proc = update s.proc k.slot v) :
    Procs t (forked held p k.slot v (some { k with todo := k.todo.filter (· ≠ fd) })) := by
  obtain ⟨other, _, alone⟩ := procs.child_of runs found
  obtain ⟨_, todo, bare⟩ := procs.child p k found
  refine procs.of_fork other runs proc ?_ ?_ alone
  · rw [status]
    exact fun gone => absurd gone (by decide)
  · grind

section

variable (ledger : Ledger s held) (runs : (held p).proc.status = .runnable)

include ledger runs

theorem Ledger.dupFile {fd : Fd} (found : (held p).child = some k) (member : fd ∈ k.todo)
    (mine : ∀ f, (held p).proc.ofile fd = some f → 1 ≤ (held p).own f ∧ f ∉ (held p).fresh)
    (taken : s.dupFile p k.slot fd = .ok ((), t)) : ∃ v,
    Ledger t (forked held p k.slot v (some { k with todo := k.todo.filter (· ≠ fd) })) := by
  obtain ⟨other, asleep, _⟩ := ledger.procs.child_of (ledger.runs runs) found
  obtain ⟨used, todo, _⟩ := ledger.procs.child p k found
  have rest := ledger.procs.rested asleep
  unfold State.dupFile at taken
  rw [ledger.procs.same p] at mine
  cases slot : (s.proc p).ofile fd with
  | none =>
    simp only [slot] at taken
    cases taken
    refine ⟨s.proc k.slot, ledger.setIdle other asleep rfl rfl rfl rfl ?_ ⟨0, _, kept_file s 0, rfl⟩ ?_ ?_⟩
    · rw [sub_self, add_zero]
    · exact ledger.files.keep rfl (by rw [rest]) (by rw [rest])
    · exact ledger.procs.filled (ledger.runs runs) found used rfl (fun _ _ => rfl) (update_eq_self ..).symm
  | some f =>
    simp only [slot] at taken
    split_ifs at taken with low
    cases taken
    obtain ⟨owned, old⟩ := mine f slot
    have free := todo fd member
    refine ⟨{ s.proc k.slot with ofile := update (s.proc k.slot).ofile fd (some f) },
      ledger.setIdle other asleep rfl rfl rfl rfl ?_ ⟨f, _, rfl, rfl⟩ ?_ ?_⟩
    · rw [sub_self, add_zero]
      rfl
    · refine ledger.files.change (v := { s.file f with ref := (s.file f).ref + 1 }) rfl ?_ ?_ ?_ ?_ nofun
      · rw [rest]
        simpa [rested] using slotsOf_fill free f
      · exact slotsOf_nonneg _ f
      · grind
      · grind [ledger.files.alone]
    · refine ledger.procs.filled (ledger.runs runs) found used rfl ?_ rfl
      exact fun fd' different => update_of_ne different ..

theorem Ledger.dupCwd
    (found : (held p).child = some k) (missing : k.cwd = false) (taken : s.dupCwd p k.slot = .ok ((), t)) : ∃ v,
    Ledger t (forked held p k.slot v (some { k with cwd := true })) := by
  obtain ⟨other, asleep, alone⟩ := ledger.procs.child_of (ledger.runs runs) found
  obtain ⟨used, todo, bare⟩ := ledger.procs.child p k found
  have rest := ledger.procs.rested asleep
  unfold State.dupCwd at taken
  cases cwd : (s.proc p).cwd with
  | none => simp [cwd] at taken
  | some e =>
    simp only [cwd] at taken
    cases taken
    refine ⟨{ s.proc k.slot with cwd := some e },
      ledger.setIdle other asleep rfl rfl rfl rfl ?_ ⟨0, _, kept_file s 0, rfl⟩ ?_ ?_⟩
    · rw [bare missing, cwdBalance, cwdBalance, sub_zero]
      exact stateBalance_addRef s e
    · refine ledger.files.keep rfl ?_ ?_
      · rw [rest]
        rfl
      · rw [rest]
        rfl
    · refine ledger.procs.of_fork other (ledger.runs runs) rfl ?_ ?_ alone
      · grind
      · rintro k' ⟨⟩
        exact ⟨rfl, used, todo, nofun⟩

theorem Ledger.setZombie (rest : AtRest (held p))
    (files : ∀ fd, (held p).proc.ofile fd = none) (cwd : (held p).proc.cwd = none) :
    Ledger (s.setProc p { s.proc p with status := .zombie })
      (update held p { held p with proc := { (held p).proc with status := .zombie } }) := by
  have same := ledger.procs.same p
  have empty : (∀ fd, (s.proc p).ofile fd = none) ∧ (s.proc p).cwd = none := same ▸ ⟨files, cwd⟩
  refine ⟨?_, ledger.files.keep rfl rfl rfl, ?_, ⟨ledger.pipes.counts, ledger.pipes.live⟩⟩
  · refine ledger.balanced.adjust (f := 0) rfl (kept_file s 0) ?_ rfl (ledger.balanced.ends p)
    rw [show stateBalance (s.setProc p { s.proc p with status := .zombie }) = stateBalance s from rfl]
    simp
  · refine ledger.procs.stop (by rw [ledger.runs runs]; decide) (by rw [same]) empty ?_ rfl
    exact congrArg (fun h : Held => { h with proc := { h.proc with status := .zombie } }) rest

end

theorem Ledger.reap (ledger : Ledger s held) (zombie : (s.proc q).status = .zombie) :
    Ledger (s.setProc q { s.proc q with status := .unused })
      (update held q (rested { s.proc q with status := .unused })) := by
  have asleep : (s.proc q).status ≠ .runnable := by
    rw [zombie]
    decide
  have rest := ledger.procs.rested asleep
  refine ⟨?_, ?_, ?_, ⟨ledger.pipes.counts, ledger.pipes.live⟩⟩
  · refine ledger.balanced.adjust (f := 0) rfl (kept_file s 0) ?_ ?_ (rested_ends _)
    · rw [rest, show stateBalance (s.setProc q { s.proc q with status := .unused }) = stateBalance s from rfl]
      simp [rested]
    · rw [rest, rested_locks, rested_locks]
  · refine ledger.files.keep rfl ?_ ?_
    · rw [rest]
      rfl
    · rw [rest]
      rfl
  · refine ledger.procs.stop (by rw [zombie]; decide) rfl (ledger.procs.empty q (.inr zombie)) rfl ?_
    rw [rest]
    rfl

end

end Xv6.Fs
