import Xv6.Fs.LedgerSound
import Xv6.Fs.SafePipes

namespace Xv6.Fs
open Lib

attribute [local simp] fileBalance reference

section
variable {s t : State} {held : Slot → Held} {h : Held} {p : Slot}

/-! ## Every call keeps to the contract -/

theorem safe_syscall (inside : Inside h 0) (self : Slot) (c : Call) :
    Safe contract (fun _ => AtRest) (syscall self c) h := by
  have even {m : Op Int} (costs : Costs m fun _ => 0) : Safe contract (fun _ => AtRest) m h :=
    inside.even costs fun _ => add_zero 0
  cases c with
  | sysOpen path omode =>
    cases path with
    | none => exact inside.atRest
    | some path => exact safe_openPath inside
  | sysLink old new =>
    cases old with
    | none => exact inside.atRest
    | some old =>
      cases new with
      | none => exact inside.atRest
      | some new => exact even (costs_link old new)
  | sysUnlink path =>
    cases path with
    | none => exact inside.atRest
    | some path => exact even (costs_unlink path)
  | sysMkdir path => exact even (costs_makeNode path T_DIR 0 0)
  | sysMknod path major minor => exact even (costs_makeNode path T_DEVICE major minor)
  | sysChdir path => exact safe_sysChdir inside
  | sysExec path loads commits =>
    cases path with
    | none => exact inside.atRest
    | some path => exact even (costs_exec path loads commits)
  | sysClose fd => exact safe_sysClose inside
  | sysDup fd => exact safe_sysDup inside
  | sysPipe page copied => exact safe_sysPipe inside
  | fork np copied => exact safe_fork inside
  | exit => exact safe_exit inside

theorem machine_sound : Sound machine contract AtRest Ledger where
  perform _ _ _ _ _ _ ledger asked taken := ledger.perform asked taken
  call s held p c ledger runs rest := by
    refine safe_syscall (inside_of_rest rest ?_) p c
    rw [ledger.procs.same p]
    simpa [machine] using runs
  outside s held q t ledger taken := by
    simp only [machine, reap] at taken
    split_ifs at taken with zombie
    cases taken
    refine ⟨_, ledger.reap zombie, fun r => ?_⟩
    by_cases same : r = q
    · subst same
      refine .inr ⟨fun _ asked => ?_, ?_⟩
      · grind [contract, ledger.procs.same]
      · rw [Function.update_self]
        rfl
    · exact .inl (Function.update_of_ne same ..)

/-! ## The first process -/

def boot (ninodes : Nat) (disk : Nat → Dinode) (slots : Nat → Nat → Dirent) : State where
  disk := disk
  slots := slots
  ninodes := ninodes
  table e := if e = 0 then ⟨ROOTINO, 1, false, ⟨0, 0, 0, 0, 0⟩⟩ else ⟨0, 0, false, ⟨0, 0, 0, 0, 0⟩⟩
  lock _ := none
  outstanding := 0
  file _ := ⟨.none, 0, false, false, 0, 0, 0, 0⟩
  pipe _ := none
  allocs _ := 0
  frees _ := 0
  proc p := if p = initproc then ⟨.runnable, fun _ => none, some 0⟩ else ⟨.unused, fun _ => none, none⟩

abbrev System := Threads State Slot Answer Int

def start (ninodes : Nat) (disk : Nat → Dinode) (slots : Nat → Nat → Dirent) : System :=
  ⟨boot ninodes disk slots, fun _ => none⟩

theorem boot_ledger (ninodes : Nat) (disk : Nat → Dinode) (slots : Nat → Nat → Dirent) :
    Ledger (boot ninodes disk slots) fun p => rested ((boot ninodes disk slots).proc p) := by
  have files (p : Slot) (fd : Fd) : ((boot ninodes disk slots).proc p).ofile fd = none := by
    simp only [boot]
    split_ifs <;> rfl
  have unowned (p : Slot) (f : FileId) : (rested ((boot ninodes disk slots).proc p)).own f = 0 := by
    simp [rested, slotsOf, files]
  have cwds : ∑ p, (rested ((boot ninodes disk slots).proc p)).bal = reference 0 := by
    rw [Finset.sum_eq_single initproc]
    · rfl
    · intro p _ other
      simp [rested, boot, other, cwdBalance]
    · exact fun missing => absurd (Finset.mem_univ _) missing
  refine ⟨⟨?_, ?_, ?_⟩, ⟨?_, ?_, ?_, (by rintro _ _ ⟨⟩)⟩, ⟨?_, ?_, ?_, (by rintro _ _ ⟨⟩),
    (by intros; contradiction)⟩, ⟨?_, (by rintro _ _ ⟨⟩)⟩⟩
  · have none : ∑ f, fileBalance ((boot ninodes disk slots).file f) = 0 := Finset.sum_eq_zero fun f _ => rfl
    rw [cwds, none, add_zero]
    refine Prod.ext rfl (Prod.ext ?_ (Prod.ext rfl rfl))
    funext e
    by_cases root : e = 0
    · subst root
      simp [stateBalance, boot]
    · simp [stateBalance, boot, root]
  · intro p e
    rw [rested_locks]
    rfl
  · exact fun p x => rested_ends _ x
  · intro f
    rw [Finset.sum_eq_zero fun p _ => unowned p f]
    rfl
  · exact fun p f => le_of_eq (unowned p f).symm
  · exact fun _ _ => rfl
  · exact fun _ => rfl
  · exact fun _ _ => rfl
  · grind [boot]
  · exact fun _ => rfl

theorem start_inv (ninodes : Nat) (disk : Nat → Dinode) (slots : Nat → Nat → Dirent) :
    (start ninodes disk slots).Inv contract AtRest Ledger :=
  ⟨_, boot_ledger ninodes disk slots, fun _ => rfl⟩

/-! ## What the tables count between calls -/

variable {ninodes : Nat} {disk : Nat → Dinode} {slots : Nat → Nat → Dirent} {turns : List (Turn Slot Call Slot)}
  {u : System}

def Quiet (u : System) : Prop := ∀ p, u.thread p = none

theorem quiet_ledger (taken : run machine.step (start ninodes disk slots) turns = some u) (quiet : Quiet u) :
    Ledger u.shared fun p => rested (u.shared.proc p) := by
  obtain ⟨held, ledger, owns⟩ := (start_inv ninodes disk slots).run machine_sound taken
  have rest (p : Slot) : held p = rested (u.shared.proc p) := by
    have at_rest := owns p
    rw [quiet p] at at_rest
    rw [← ledger.procs.same p]
    exact at_rest
  rwa [← funext rest]

theorem Balanced.refs_total (balanced : Balanced s held) (e : Entry) :
    ∑ p, (held p).refs e + ∑ f, (fileBalance (s.file f)).2.1 e = (s.table e).ref := by
  have component := congrArg (fun b : Balance => b.2.1 e) balanced.total
  simpa only [Prod.snd_add, Prod.fst_add, Prod.snd_sum, Prod.fst_sum, Pi.add_apply, Finset.sum_apply, stateBalance,
    Held.refs] using component

theorem Balanced.ops_total (balanced : Balanced s held) :
    ∑ p, (held p).ops + ∑ f, (fileBalance (s.file f)).1 = s.outstanding := by
  have component := congrArg (fun b : Balance => b.1) balanced.total
  simpa only [Prod.fst_add, Prod.fst_sum, stateBalance, Held.ops] using component

theorem fileBalance_ops (v : File) : (fileBalance v).1 = 0 := by
  unfold fileBalance
  cases v.type <;> rfl

theorem rested_ops (v : Proc) : (rested v).ops = 0 := by
  unfold rested Held.ops cwdBalance
  cases v.cwd <;> rfl

theorem rested_refs (v : Proc) (e : Entry) : (rested v).refs e = if v.cwd = some e then 1 else 0 := by
  unfold rested Held.refs cwdBalance
  cases cwd : v.cwd with
  | none => simp
  | some e' =>
    by_cases same : e = e'
    · subst same
      simp
    · simp [same, Ne.symm same]

def refersTo (v : File) (e : Entry) : Prop := 0 < v.ref ∧ (v.type = .inode ∨ v.type = .device) ∧ v.ip = e

instance (v : File) (e : Entry) : Decidable (refersTo v e) :=
  inferInstanceAs (Decidable (_ ∧ (_ ∨ _) ∧ _))

theorem Files.positive (files : Files s held) {f : FileId} (stands : (s.file f).type ≠ .none) : 0 < (s.file f).ref := by
  have nonneg : 0 ≤ (s.file f).ref := by
    rw [files.own f]
    exact Finset.sum_nonneg fun p _ => files.nonneg p f
  have nonzero : (s.file f).ref ≠ 0 := fun zero => stands (files.closed f zero)
  omega

theorem fileBalance_refs (files : Files s held) (f : FileId) (e : Entry) :
    (fileBalance (s.file f)).2.1 e = if refersTo (s.file f) e then 1 else 0 := by
  cases type : (s.file f).type with
  | none => simp [refersTo, type]
  | pipe => simp [refersTo, type, pipeEnd]
  | inode | device =>
    have positive := files.positive (f := f) (by rw [type]; decide)
    by_cases same : e = (s.file f).ip
    · subst same
      simp [refersTo, type, positive]
    · simp [refersTo, type, same, Ne.symm same]

/-- Whenever no process is inside a call, no transaction is open, no inode is locked, and the references
to a table entry are the working directories and the open files. -/
theorem calls_balanced (taken : run machine.step (start ninodes disk slots) turns = some u) (quiet : Quiet u) :
    u.shared.outstanding = 0 ∧ (∀ e, u.shared.lock e = none) ∧
    ∀ e, (u.shared.table e).ref =
      (Finset.univ.filter fun p => (u.shared.proc p).cwd = some e).card +
      (Finset.univ.filter fun f => refersTo (u.shared.file f) e).card := by
  have ledger := quiet_ledger taken quiet
  refine ⟨?_, ?_, ?_⟩
  · grind [ledger.balanced.ops_total, Finset.sum_eq_zero, rested_ops, fileBalance_ops]
  · intro e
    cases held : u.shared.lock e with
    | none => rfl
    | some p =>
      have one := ledger.balanced.locks p e
      rw [rested_locks, held, if_pos rfl] at one
      cases one
  · intro e
    rw [← ledger.balanced.refs_total e, Finset.sum_congr rfl fun p _ => rested_refs _ e,
      Finset.sum_congr rfl fun f _ => fileBalance_refs ledger.files f e]
    simp [Finset.sum_boole]

end

def openRoot : List (Turn Slot Call Slot) :=
  .call initproc (.sysOpen (some [slash]) 0) :: List.replicate 12 (.next initproc)

def rootOnly (inum : Nat) : Dinode := if inum = ROOTINO then ⟨T_DIR, 0, 0, 1, 32⟩ else ⟨0, 0, 0, 0, 0⟩

def rootSlots (_ i : Nat) : Dirent := if i = 0 then ⟨ROOTINO, dot⟩ else ⟨ROOTINO, dotdot⟩

theorem quiet_of_all {u : System} (all : ((List.finRange NPROC).all fun p => (u.thread p).isNone) = true) : Quiet u := by
  intro p
  simpa using List.all_eq_true.mp all p (List.mem_finRange p)

theorem calls_balanced_openRoot : ∃ u, run machine.step (start 20 rootOnly rootSlots) openRoot = some u ∧
    (u.shared.table 0).ref = 2 ∧ u.shared.outstanding = 0 ∧
    (2 : Int) = (Finset.univ.filter fun p => (u.shared.proc p).cwd = some 0).card +
      (Finset.univ.filter fun f => refersTo (u.shared.file f) 0).card := by
  refine exists_some_of (fun u => (List.finRange NPROC).all (fun p => (u.thread p).isNone) ∧ (u.shared.table 0).ref = 2)
    (by decide +kernel) fun u taken ⟨idle, two⟩ => ?_
  obtain ⟨ops, _, refs⟩ := calls_balanced taken (quiet_of_all idle)
  exact ⟨two, ops, by rw [← refs 0, two]⟩

end Xv6.Fs
