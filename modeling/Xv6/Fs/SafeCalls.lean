import Xv6.Fs.Costs

namespace Xv6.Fs
open Lib Function

/-! ## System calls that change descriptors -/

section
variable {α : Type} {h : Held} {f : FileId} {fd : Fd} {b : Balance} {Q : Option FileId → Held → Prop} {d : α → Balance}
  {omode : BitVec 32} {n : Int}

/-- Inside a call, with the descriptor table in order and `b` taken on top of the working directory. -/
structure Inside (h : Held) (b : Balance) : Prop where
  runs : h.proc.status = .runnable
  bal : h.bal = cwdBalance h.proc.cwd + b
  own : h.own = slotsOf h.proc.ofile
  fresh : h.fresh = []
  child : h.child = none

theorem Inside.atRest (inside : Inside h 0) : AtRest h := by
  obtain ⟨_, bal, own, fresh, child⟩ := inside
  cases h
  simp_all [AtRest, rested]

theorem inside_of_rest (rest : AtRest h) (runs : h.proc.status = .runnable) : Inside h 0 := by
  refine ⟨runs, ?_, ?_, ?_, ?_⟩
  · rw [add_zero, rest]
    rfl
  · rw [rest]
    rfl
  · rw [rest]
    rfl
  · rw [rest]
    rfl

theorem Inside.add (inside : Inside h b) (d : Balance) : Inside (h.add d) (b + d) := by
  refine ⟨inside.runs, ?_, inside.own, inside.fresh, inside.child⟩
  rw [show (h.add d).bal = h.bal + d from rfl, inside.bal, add_assoc]
  rfl

theorem Inside.costs {m : Op α} {Q : α → Held → Prop} (inside : Inside h b) (costs : Costs m d)
    (next : ∀ a h', Inside h' (b + d a) → h'.proc = h.proc → Q a h') : Safe contract Q m h :=
  costs Q h inside.runs fun a => next a _ (inside.add (d a)) rfl

theorem Inside.even {m : Op α} (inside : Inside h b) (costs : Costs m d) (even : ∀ a, b + d a = 0) :
    Safe contract (fun _ => AtRest) m h :=
  inside.costs costs fun a _ after _ => (even a ▸ after).atRest

/-! ### `fileclose` and the descriptor table -/

def Held.closed (h : Held) (f : FileId) : Held :=
  { h with own := h.own - Pi.single f 1, fresh := h.fresh.filter (· ≠ f) }

def Held.setFd (h : Held) (fd : Fd) (v : Option FileId) : Held :=
  { h with proc := { h.proc with ofile := update h.proc.ofile fd v } }

theorem setFd_fill (free : h.proc.ofile fd = none) (f : FileId) :
    slotsOf (h.setFd fd (some f)).proc.ofile = slotsOf h.proc.ofile + Pi.single f 1 := slotsOf_fill free f

theorem setFd_clear (here : h.proc.ofile fd = some f) :
    slotsOf (h.setFd fd none).proc.ofile = slotsOf h.proc.ofile - Pi.single f 1 := slotsOf_clear here

theorem setFd_self (h : Held) (fd : Fd) (v : Option FileId) : (h.setFd fd v).proc.ofile fd = v :=
  update_self ..

theorem setFd_other {fd' : Fd} (h : Held) (v : Option FileId) (other : fd' ≠ fd) :
    (h.setFd fd v).proc.ofile fd' = h.proc.ofile fd' := update_of_ne other ..

theorem safe_fileclose {Q : Unit → Held → Prop} (runs : h.proc.status = .runnable) (mine : 1 ≤ h.own f)
    (next : Q () (h.closed f)) : Safe contract Q (fileclose f) h := by
  unfold fileclose
  rw [safe_bind]
  refine safe_ask runs mine fun ff h' kept => ?_
  cases ff with
  | none =>
    rw [show h' = h.closed f from kept]
    exact next
  | some ff =>
    obtain ⟨nonneg, rfl⟩ := kept
    have inode : Safe contract Q (do ask .beginOp; iput ff.ip; ask .endOp) ((h.closed f).add (reference ff.ip)) := by
      rw [safe_bind]
      refine costs_beginOp _ _ runs fun _ => ?_
      rw [safe_bind]
      refine costs_iput ff.ip _ _ runs fun _ => ?_
      refine costs_endOp _ _ runs fun _ => ?_
      rw [Held.add_add, Held.add_add, Held.add_add]
      rw [show reference ff.ip + (op + (-reference ff.ip + -op)) = 0 by abel, Held.add_none]
      exact next
    cases type : ff.type with
    | none =>
      simp only [fileBalance, type, Held.add_none]
      exact next
    | inode | device =>
      simp only [fileBalance, type]
      exact inode
    | pipe =>
      simp only [fileBalance, type]
      refine safe_ask runs ?_ fun _ h' kept => ?_
      · have low := nonneg (ff.pipe, ff.writable)
        simp only [Held.ends] at low
        simp only [pre, Held.ends, Held.add, pipeEnd, Prod.snd_add, Pi.add_apply, Pi.single_eq_same]
        omega
      · rw [show h' = ((h.closed f).add (pipeEnd (ff.pipe, ff.writable))).add (-pipeEnd (ff.pipe, ff.writable)) from
          kept, Held.add_add, add_neg_cancel, Held.add_none]
        exact next

theorem safe_ofile (runs : h.proc.status = .runnable) (fd : Fd)
    (next : Q (h.proc.ofile fd) h) : Safe contract Q (ask (.ofile fd)) h := by
  refine safe_ask runs trivial fun x h' kept => ?_
  obtain ⟨rfl, rfl⟩ := kept
  exact next

theorem safe_setOfile {Q : Unit → Held → Prop} (runs : h.proc.status = .runnable) (fd : Fd) (v : Option FileId)
    (next : Q () (h.setFd fd v)) : Safe contract Q (ask (.setOfile fd v)) h := by
  refine safe_ask runs trivial fun x h' kept => ?_
  rw [show h' = h.setFd fd v from kept]
  exact next

theorem safe_fdalloc {Q : Option Fd → Held → Prop} (runs : h.proc.status = .runnable) (full : Q none h)
    (found : ∀ fd, h.proc.ofile fd = none → Q (some fd) (h.setFd fd (some f))) : Safe contract Q (fdalloc f) h := by
  unfold fdalloc
  generalize List.finRange NOFILE = fds
  induction fds with
  | nil => exact full
  | cons fd rest ih =>
    refine safe_ofile runs fd ?_
    cases here : h.proc.ofile fd with
    | none =>
      exact safe_setOfile runs fd (some f) (found fd here)
    | some other => exact ih

theorem safe_argfd {Q : Option (Fd × FileId) → Held → Prop} (runs : h.proc.status = .runnable) (bad : Q none h)
    (found : ∀ fd f, h.proc.ofile fd = some f → Q (some (fd, f)) h) : Safe contract Q (argfd n) h := by
  unfold argfd
  split_ifs with range negative
  · exact bad
  · refine safe_ofile runs _ ?_
    cases here : h.proc.ofile ⟨n.toNat, range⟩ with
    | none => exact bad
    | some f => exact found _ f here
  · exact bad

theorem Inside.fillSlot (inside : Inside h b) (free : h.proc.ofile fd = none) :
    h.own + Pi.single f 1 = slotsOf (update h.proc.ofile fd (some f)) := by
  rw [slotsOf_fill free, inside.own]

theorem safe_sysDup (inside : Inside h 0) : Safe contract (fun _ => AtRest) (sysDup n) h := by
  unfold sysDup
  rw [safe_bind]
  refine safe_argfd inside.runs inside.atRest fun fd f here => ?_
  simp only [safe_bind]
  refine safe_fdalloc inside.runs inside.atRest fun new free => ?_
  refine safe_ask inside.runs ⟨?_, ?_⟩ fun _ h' kept => ?_
  · rw [show (h.setFd new (some f)).own = slotsOf h.proc.ofile from inside.own]
    exact slotsOf_pos here
  · rw [show (h.setFd new (some f)).fresh = [] from inside.fresh]
    exact List.not_mem_nil
  · rw [show h' = _ from kept]
    refine Inside.atRest ⟨inside.runs, inside.bal, ?_, inside.fresh, inside.child⟩
    exact inside.fillSlot free

theorem Inside.clear {v : FileId} (inside : Inside h b) (here : h.proc.ofile fd = some v) :
    Inside ((h.setFd fd none).closed v) b := by
  refine ⟨inside.runs, inside.bal, ?_, ?_, inside.child⟩
  · change h.own - Pi.single v 1 = slotsOf (update h.proc.ofile fd none)
    rw [slotsOf_clear here, inside.own]
  · change h.fresh.filter _ = []
    rw [inside.fresh]
    rfl

theorem safe_sysClose (inside : Inside h 0) : Safe contract (fun _ => AtRest) (sysClose n) h := by
  unfold sysClose
  rw [safe_bind]
  refine safe_argfd inside.runs inside.atRest fun fd f here => ?_
  simp only [safe_bind]
  refine safe_setOfile inside.runs fd none ?_
  refine safe_fileclose (h := h.setFd fd none) inside.runs ?_ ?_
  · rw [show (h.setFd fd none).own = slotsOf h.proc.ofile from inside.own]
    exact slotsOf_pos here
  · exact (inside.clear here).atRest

/-! ### `sys_open` and `sys_chdir` -/

def Held.allocated (h : Held) (f : FileId) : Held := { h with own := h.own + Pi.single f 1, fresh := f :: h.fresh }

theorem safe_filealloc (runs : h.proc.status = .runnable) (full : Q none h)
    (found : ∀ f, h.own f = 0 → f ∉ h.fresh → Q (some f) (h.allocated f)) : Safe contract Q (ask .filealloc) h := by
  refine safe_ask runs trivial fun f h' kept => ?_
  cases f with
  | none =>
    rw [show h' = h from kept]
    exact full
  | some f =>
    obtain ⟨unowned, missing, rfl⟩ := kept
    exact found f unowned missing

theorem allocated_own (unowned : h.own f = 0) : (h.allocated f).own f = 1 := by
  simp [Held.allocated, unowned]

theorem filter_not_mem [DecidableEq α] {x : α} {xs : List α} (missing : x ∉ xs) : xs.filter (· ≠ x) = xs := by
  rw [List.filter_eq_self]
  intro y member
  simp only [ne_eq, decide_not, Bool.not_eq_eq_eq_not, Bool.not_true, decide_eq_false_iff_not]
  rintro rfl
  exact missing member

theorem allocated_closed (missing : f ∉ h.fresh) : (h.allocated f).closed f = h := by
  have fresh : (f :: h.fresh).filter (· ≠ f) = h.fresh := by
    rw [List.filter_cons_of_neg (by simp), filter_not_mem missing]
  simp only [Held.allocated, Held.closed, add_sub_cancel_right, fresh]

theorem safe_openFile {ip : Entry} (inside : Inside h (op + reference ip + locked ip)) :
    Safe contract (fun _ => AtRest) (openFile ip omode) h := by
  have even : op + reference ip + locked ip + (-locked ip - reference ip - op) = 0 := by abel
  unfold openFile
  rw [safe_bind]
  refine safe_quiet rfl inside.runs fun v => ?_
  by_cases device : v.type = T_DEVICE ∧ (v.major < 0 ∨ v.major ≥ NDEV)
  · rw [if_pos device]
    exact inside.even (costs_leave ip) fun _ => even
  · rw [if_neg device, safe_bind]
    refine safe_filealloc inside.runs (inside.even (costs_leave ip) fun _ => even) fun f unowned missing => ?_
    simp only [safe_bind]
    refine safe_fdalloc inside.runs ?_ fun fd free => ?_
    · simp only [safe_bind]
      refine safe_fileclose (h := h.allocated f) inside.runs (le_of_eq (allocated_own unowned).symm) ?_
      rw [allocated_closed missing]
      simpa only [safe_bind] using inside.even (costs_leave ip) fun _ => even
    · simp only [safe_bind]
      refine safe_ask inside.runs ?_ fun _ h'' kept => ?_
      · exact List.mem_cons_self
      · have filled : Inside h'' (op + reference ip + locked ip + -reference ip) := by
          rw [show h'' = _ from kept]
          refine ⟨inside.runs, ?_, ?_, ?_, inside.child⟩
          · exact (inside.add (-reference ip)).bal
          · exact inside.fillSlot free
          · change (f :: h.fresh).filter (· ≠ f) = []
            rw [List.filter_cons_of_neg (by simp), filter_not_mem missing, inside.fresh]
        have truncate : Costs (if omode &&& O_TRUNC ≠ 0 ∧ v.type = T_FILE then ask (.itrunc ip) else pure ())
            fun _ => 0 := by
          split_ifs
          · exact .quiet rfl
          · exact .pure rfl
        refine filled.costs truncate fun _ h'' after _ => after.costs (costs_iunlock ip) fun _ h'' after _ => ?_
        refine after.costs costs_endOp fun _ h'' after _ => ?_
        refine Inside.atRest (?_ : Inside h'' 0)
        rwa [show op + reference ip + locked ip + -reference ip + 0 + -locked ip + -op = 0 by abel] at after

theorem safe_lockPath {path : Path} {rest : Entry → Dinode → Op Int} (inside : Inside h op)
    (next : ∀ ip v h', Inside h' (op + reference ip + locked ip) → Safe contract (fun _ => AtRest) (rest ip v) h') :
    Safe contract (fun _ => AtRest) (do
      match ← namei path with
      | none => do
        ask .endOp
        pure (-1)
      | some ip => do
        ilock ip
        let v ← ask (.inode ip)
        rest ip v) h := by
  rw [safe_bind]
  refine inside.costs (costs_namei path) fun found h inside _ => ?_
  cases found with
  | none =>
    refine inside.even costs_fail fun _ => ?_
    abel
  | some ip =>
    simp only [safe_bind]
    refine inside.costs (costs_ilock ip) fun _ h inside _ => safe_quiet rfl inside.runs fun v => next ip v h inside

theorem safe_openPath {path : Path} (inside : Inside h 0) : Safe contract (fun _ => AtRest) (openPath path omode) h := by
  unfold openPath
  rw [safe_bind]
  refine inside.costs costs_beginOp fun _ h inside _ => ?_
  rw [zero_add] at inside
  split_ifs with creates
  · rw [safe_bind]
    refine inside.costs (costs_create path T_FILE 0 0) fun made h inside _ => ?_
    cases made with
    | none =>
      refine inside.even costs_fail fun _ => ?_
      abel
    | some ip => grind [safe_openFile, entryLocked]
  · refine safe_lockPath inside fun ip v h inside => ?_
    by_cases directory : v.type = T_DIR ∧ omode ≠ 0
    · rw [if_pos directory]
      refine inside.even (costs_leave ip) fun _ => ?_
      abel
    · rw [if_neg directory]
      exact safe_openFile inside

theorem safe_sysChdir {path : Option Path} (inside : Inside h 0) : Safe contract (fun _ => AtRest) (sysChdir path) h := by
  unfold sysChdir
  rw [safe_bind]
  refine inside.costs costs_beginOp fun _ h inside _ => ?_
  rw [zero_add] at inside
  cases path with
  | none =>
    refine inside.even costs_fail fun _ => ?_
    abel
  | some path =>
    refine safe_lockPath inside fun ip v h inside => ?_
    by_cases file : v.type ≠ T_DIR
    · rw [if_pos file]
      refine inside.even (costs_leave ip) fun _ => ?_
      abel
    · rw [if_neg file]
      simp only [safe_bind]
      refine inside.costs (costs_iunlock ip) fun _ h inside _ => ?_
      refine safe_ask inside.runs trivial fun cwd h' kept => ?_
      obtain ⟨here, rfl⟩ := kept
      refine inside.costs (costs_iput cwd) fun _ h inside same => ?_
      refine inside.costs costs_endOp fun _ h inside same' => ?_
      refine safe_ask inside.runs trivial fun _ h'' kept => ?_
      rw [show h'' = _ from kept]
      refine Inside.atRest ⟨inside.runs, ?_, inside.own, inside.fresh, inside.child⟩
      rw [show Held.bal _ = h.bal from rfl, inside.bal, same', same, here]
      simp only [cwdBalance]
      abel

end

end Xv6.Fs
