import Xv6.Fs.Accounts

namespace Xv6.Fs
open Lib

section
variable {s t : State} {held : Slot → Held} {ninodes : Nat} {disk : Nat → Dinode} {slots : Nat → Nat → Dirent}
  {turns : List (Turn Slot Call Slot)} {u v : System}

/-! ## Open files and pipes between calls -/

def isEnd (w : File) (page : Page) (writable : Bool) : Prop :=
  0 < w.ref ∧ w.type = .pipe ∧ w.pipe = page ∧ w.writable = writable

theorem fileBalance_isEnd (files : Files s held) (f : FileId) (page : Page) (writable : Bool) :
    (fileBalance (s.file f)).2.2.2 (page, writable) ≠ 0 ↔ isEnd (s.file f) page writable := by
  cases type : (s.file f).type with
  | none => simp [fileBalance, isEnd, type]
  | inode | device => simp [fileBalance, isEnd, type, reference]
  | pipe =>
    have positive := files.positive (f := f) (by rw [type]; decide)
    by_cases same : (page, writable) = ((s.file f).pipe, (s.file f).writable)
    · obtain ⟨rfl, rfl⟩ := Prod.mk.inj same
      simp [fileBalance, isEnd, type, pipeEnd, positive]
    · simp only [fileBalance, type, pipeEnd, ne_eq, Pi.single_eq_of_ne same, not_true_eq_false, false_iff]
      rintro ⟨_, _, rfl, rfl⟩
      exact same rfl

theorem rested_no_ends (w : Proc) (x : Page × Bool) : (rested w).ends x = 0 := by
  unfold rested Held.ends cwdBalance
  cases w.cwd <;> rfl

theorem Ledger.open_iff (ledger : Ledger s fun p => rested (s.proc p)) (page : Page) (writable : Bool) :
    isOpen (s.pipe page) writable = true ↔ ∃ f, isEnd (s.file f) page writable := by
  have total := ledger.balanced.ends_total (page, writable)
  rw [Finset.sum_eq_zero fun p _ => rested_no_ends _ _, zero_add] at total
  have nonneg (f : FileId) := fileBalance_ends (s.file f) (page, writable)
  constructor
  · intro opened
    by_contra none
    rw [Finset.sum_eq_zero, if_pos opened] at total
    · cases total
    · intro f _
      by_contra nonzero
      exact none ⟨f, (fileBalance_isEnd ledger.files f page writable).mp nonzero⟩
  · rintro ⟨f, stands⟩
    by_contra closed
    rw [if_neg closed] at total
    have part := le_sum nonneg f
    have nonzero := (fileBalance_isEnd ledger.files f page writable).mpr stands
    have := nonneg f
    omega

theorem pipeclose_frees {page : Page} {writable : Bool} (pipes : Pipes s) (taken : s.pipeclose page writable = .ok ((), t))
    (page' : Page) : t.frees page' = s.frees page' ∨ t.frees page' = s.frees page' + 1 ∧ t.pipe page' = none ∧
      (s.pipe page' = some ⟨true, false⟩ ∨ s.pipe page' = some ⟨false, true⟩) := by
  unfold State.pipeclose at taken
  cases found : s.pipe page with
  | none => simp [found] at taken
  | some pi =>
    simp only [found] at taken
    split_ifs at taken with last
    · cases taken
      by_cases same : page' = page
      · subst same
        have live := pipes.live page' pi found
        obtain ⟨readopen, writeopen⟩ := pi
        refine .inr ⟨Function.update_self .., Function.update_self .., ?_⟩
        cases writable <;> simp_all [Pipe.close]
      · exact .inl (Function.update_of_ne same ..)
    · cases taken
      exact .inl rfl

theorem perform_frees {p : Slot} {r : Req} {x : Answer r} (pipes : Pipes s) (taken : (perform p r).run s = .ok (x, t))
    (page : Page) : t.frees page = s.frees page ∨ t.frees page = s.frees page + 1 ∧ t.pipe page = none ∧
      (s.pipe page = some ⟨true, false⟩ ∨ s.pipe page = some ⟨false, true⟩) := by
  by_cases closes : ∃ page writable, r = .pipeclose page writable
  · obtain ⟨_, _, rfl⟩ := closes
    exact pipeclose_frees pipes taken page
  · left
    refine congrFun ?_ page
    cases r with
    | panic why => cases x
    | iget inum _ => exact (iget_accounts taken).2.2.2.2.2.1
    | fill e => exact (sameAccounts_fill taken).frees
    | writeDirent e off de =>
      have same := (sameAccounts_writeDirent s e off de).frees
      rwa [congrArg Prod.snd (Except.ok.inj taken)] at same
    | tryAlloc inum type =>
      have same := (sameAccounts_tryAlloc s inum type).frees
      rwa [congrArg Prod.snd (Except.ok.inj taken)] at same
    | acquire e | iunlock e | filedup f =>
      simp only [perform, StateT.run] at taken
      split_ifs at taken
      cases taken
      rfl
    | putLast e =>
      simp only [perform, StateT.run, State.putLast] at taken
      split_ifs at taken <;> cases taken <;> rfl
    | filealloc =>
      simp only [perform, StateT.run, State.filealloc] at taken
      split at taken <;> cases taken <;> rfl
    | fileclose f =>
      simp only [perform, StateT.run, State.fileclose] at taken
      split_ifs at taken <;> cases taken <;> rfl
    | newPipe page =>
      simp only [perform, StateT.run] at taken
      cases page with
      | none =>
        cases taken
        rfl
      | some page =>
        simp only [State.newPipe] at taken
        split_ifs at taken
        cases taken
        rfl
    | pipeclose page writable => exact absurd ⟨page, writable, rfl⟩ closes
    | cwd => grind [perform, StateT.run]
    | allocproc np =>
      simp only [perform, StateT.run] at taken
      split at taken
      · cases taken
        rfl
      · split_ifs at taken
        cases taken
        rfl
    | dupFile np fd =>
      simp only [perform, StateT.run, State.dupFile] at taken
      split at taken
      · cases taken
        rfl
      · split_ifs at taken
        cases taken
        rfl
    | dupCwd np =>
      simp only [perform, StateT.run, State.dupCwd] at taken
      split at taken
      · cases taken
      · cases taken
        rfl
    | _ =>
      cases taken
      rfl

theorem step_frees {turn : Turn Slot Call Slot} (pipes : Pipes u.shared) (taken : machine.step u turn = some v) (page : Page) :
    v.shared.frees page = u.shared.frees page ∨
      v.shared.frees page = u.shared.frees page + 1 ∧ v.shared.pipe page = none ∧
        (u.shared.pipe page = some ⟨true, false⟩ ∨ u.shared.pipe page = some ⟨false, true⟩) := by
  cases turn with
  | call p c => grind [Machine.step]
  | next p =>
    simp only [Machine.step] at taken
    split at taken
    · split at taken
      · rename_i performed
        cases taken
        exact perform_frees pipes performed page
      · cases taken
    · cases taken
  | outside q =>
    simp only [Machine.step, machine, reap] at taken
    split_ifs at taken
    · cases taken
      exact .inl rfl
    · cases taken

theorem slots_card (s : State) (f : FileId) : ∑ p, slotsOf (s.proc p).ofile f =
    (Finset.univ.filter fun x : Slot × Fd => (s.proc x.1).ofile x.2 = some f).card := by
  rw [← Finset.sum_boole, Fintype.sum_prod_type]
  rfl

/-- A page is taken for a pipe and given back in turn, and given back when the last of the two ends
closes; no end is closed twice. Whenever no process is inside a call, a file's references are the
descriptors that point to it, and an end of a pipe is open exactly while an open file stands for it. -/
theorem lifetimes (taken : run machine.step (start ninodes disk slots) turns = some u) :
    (∀ page, u.shared.allocs page = u.shared.frees page + if u.shared.pipe page = none then 0 else 1) ∧
    (∀ turn v page, machine.step u turn = some v → v.shared.frees page = u.shared.frees page ∨
      v.shared.frees page = u.shared.frees page + 1 ∧ v.shared.pipe page = none ∧
        (u.shared.pipe page = some ⟨true, false⟩ ∨ u.shared.pipe page = some ⟨false, true⟩)) ∧
    (∀ p page writable k, u.thread p = some (.ask (.pipeclose page writable) k) →
      isOpen (u.shared.pipe page) writable = true) ∧
    (Quiet u →
      (∀ f, (u.shared.file f).ref =
        (Finset.univ.filter fun x : Slot × Fd => (u.shared.proc x.1).ofile x.2 = some f).card) ∧
      (∀ page pi, u.shared.pipe page = some pi →
        (pi.readopen = true ↔ ∃ f, isEnd (u.shared.file f) page false) ∧
        (pi.writeopen = true ↔ ∃ f, isEnd (u.shared.file f) page true)) ∧
      ∀ page, u.shared.pipe page ≠ none ↔ ∃ f writable, isEnd (u.shared.file f) page writable) := by
  obtain ⟨held, ledger, owns⟩ := (start_inv ninodes disk slots).run machine_sound taken
  refine ⟨ledger.pipes.counts, fun turn v page next => step_frees ledger.pipes next page, ?_, ?_⟩
  · intro p page writable k waiting
    have safe := owns p
    rw [waiting] at safe
    have mine : 1 ≤ (held p).ends (page, writable) := safe.1.2
    have most := ledger.balanced.ends_le p (page, writable)
    by_contra closed
    rw [if_neg closed] at most
    omega
  · intro quiet
    have ledger := quiet_ledger taken quiet
    refine ⟨?_, ?_, ?_⟩
    · intro f
      rw [ledger.files.own f]
      exact slots_card u.shared f
    · intro page pi found
      have read := ledger.open_iff page false
      have write := ledger.open_iff page true
      rw [found] at read write
      exact ⟨read, write⟩
    · intro page
      constructor
      · intro allocated
        obtain ⟨pi, found⟩ := Option.ne_none_iff_exists'.mp allocated
        rcases ledger.pipes.live page pi found with opened | opened
        · obtain ⟨f, stands⟩ := (ledger.open_iff page false).mp (by rw [found]; exact opened)
          exact ⟨f, false, stands⟩
        · obtain ⟨f, stands⟩ := (ledger.open_iff page true).mp (by rw [found]; exact opened)
          exact ⟨f, true, stands⟩
      · rintro ⟨f, writable, stands⟩ gone
        have opened := (ledger.open_iff page writable).mpr ⟨f, stands⟩
        rw [gone] at opened
        cases opened

end

def pipeAndClose : List (Turn Slot Call Slot) :=
  .call initproc (.sysPipe (some 7) true) :: List.replicate 10 (.next initproc) ++
    .call initproc (.sysClose 0) :: List.replicate 4 (.next initproc)

theorem lifetimes_pipeAndClose : ∃ u, run machine.step (start 20 rootOnly rootSlots) pipeAndClose = some u ∧
    u.shared.pipe 7 = some ⟨false, true⟩ ∧ u.shared.allocs 7 = u.shared.frees 7 + 1 ∧
    ∃ f, isEnd (u.shared.file f) 7 true := by
  refine exists_some_of (fun u => (List.finRange NPROC).all (fun p => (u.thread p).isNone) ∧
    u.shared.pipe 7 = some ⟨false, true⟩) (by decide +kernel) fun u taken ⟨idle, pipe⟩ => ?_
  obtain ⟨counts, _, _, quiet⟩ := lifetimes taken
  obtain ⟨_, ends, _⟩ := quiet (quiet_of_all idle)
  have count := counts 7
  rw [pipe, if_neg (by decide)] at count
  exact ⟨pipe, count, (ends 7 _ pipe).2.mp rfl⟩

end Xv6.Fs
