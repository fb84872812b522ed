import Xv6.Fs.Deadlock

namespace Xv6.Fs
open Lib Function

/-! ## Inodes change under their locks -/

/-- The entry of the inode whose copy, dinode or slots a request may change. -/
def changes : Req ⊕ Io → Option Entry
  | .inl (.fill e) | .inl (.store e _) | .inl (.iupdate e) | .inl (.itrunc e) | .inl (.writeDirent e ..) |
    .inr (.writei e ..) => some e
  | _ => none

section
variable {a : Ages} {u v w : FsSystem} {held : Slot → Held × Stage} {p : Slot} {e : Entry} {turns : List FsTurn}
  {r : Req ⊕ Io} {s t : State} {x : Sum.elim Answer IoAnswer r}

attribute [local simp] performAll perform performIo State.iget State.fill State.putLast State.itrunc State.writeDirent
  State.tryAlloc State.filealloc State.fileclose State.newPipe State.pipeclose State.dupFile State.dupCwd State.setEntry
  State.addRef State.setCopy State.setLock State.setDisk State.iupdate State.setSlots State.setFile State.setProc
  State.setPipe State.writei in
theorem perform_frame (ran : (performAll p r).run s = .ok (x, t)) :
    (∀ e, changes r ≠ some e → (t.table e).copy = (s.table e).copy) ∧
    ∀ inum, (s.disk inum).type ≠ 0 → (∀ e, changes r = some e → (s.table e).inum ≠ inum) →
      t.disk inum = s.disk inum ∧ t.slots inum = s.slots inum := by
  rcases r with r | r <;> cases r <;> simp [StateT.run] at ran <;> (repeat' split at ran) <;> cases ran <;>
    simp [changes, update_apply] <;> grind

theorem Tracked.changes_locked (tracked : Tracked a s held) (asked : both.pre r (held p)) (changed : changes r = some e) :
    s.lock e = some p := by
  have asked := asked.2
  cases here : (held p).2 with
  | made k inum type =>
    rw [here] at asked
    rcases r with r | r
    · obtain ⟨rfl, _⟩ := asked
      cases changed
    · exact asked.elim
  | idle k =>
    have known := (tracked.know here).holds
    rw [here] at asked
    -- each asks for a fact that only the holder of the lock knows
    rcases r with r | r <;> cases r <;> cases changed
    case idle.inl.fill.refl => exact (known _ asked).1
    case idle.inl.iupdate.refl => exact asked.elim (fun full => (known _ full).1) fun gone => (known _ gone.1).1
    all_goals exact (known _ asked.1).1

variable (start : WellFormed u) (fair : Meets fsMachine.step Fair u turns) (taken : run fsMachine.step u turns = some v)

include start fair taken

/-- A step changes an inode only if its process has the lock, unless `ialloc` takes it. -/
theorem inodes_change_locked (next : fsMachine.step v (.next p) = some w) :
    (∀ e, (w.shared.table e).copy ≠ (v.shared.table e).copy → v.shared.lock e = some p) ∧
    ∀ inum, (v.shared.disk inum).type ≠ 0 →
      ¬ (w.shared.disk inum = v.shared.disk inum ∧ w.shared.slots inum = v.shared.slots inum) →
      ∃ e, (v.shared.table e).inum = inum ∧ v.shared.lock e = some p := by
  obtain ⟨held, ⟨a, tracked⟩, owns⟩ := fair_run start fair taken
  have owned := owns p
  simp only [Machine.step] at next
  repeat' split at next
  case h_1 r rest running _ x t ran =>
    cases next
    rw [running] at owned
    have locked {e : Entry} := tracked.changes_locked (e := e) owned.1
    obtain ⟨copies, inodes⟩ := perform_frame ran
    refine ⟨fun e changed => locked (by_contra fun other => changed (copies e other)), fun inum used changed => ?_⟩
    by_contra none
    exact changed (inodes inum used fun e touched same => none ⟨e, same, locked touched⟩)
  all_goals cases next

omit start fair taken in
/-- `chdir` reads the root's dinode. -/
theorem inodes_change_locked_chdir : ∃ v, run fsMachine.step treeStart (calls 0 (.call (.sysChdir (some [97]))) 4) = some v ∧
    ∃ w, fsMachine.step v (.next 0) = some w ∧ (w.shared.table 0).copy ≠ (v.shared.table 0).copy ∧
      v.shared.lock 0 = some 0 := by
  refine exists_some_of (fun v => (fsMachine.step v (.next 0)).any fun w => (w.shared.table 0).copy ≠ (v.shared.table 0).copy)
    (by decide +kernel) fun v taken more => ?_
  obtain ⟨w, next, changed⟩ := exists_some more
  exact ⟨w, next, changed, (inodes_change_locked treeStart_wellFormed (by decide +kernel) taken next).1 0 changed⟩

/-! ## The tree -/

def Contains (s : State) (d c : Nat) : Prop :=
  (s.disk d).type = T_DIR ∧ (s.disk c).type = T_DIR ∧ ∃ i, (s.slots d i).inum = c ∧ c ≠ 0 ∧ ¬ dots (s.slots d i).name

/-- No directory is below itself. -/
theorem no_directory_cycle (d : Nat) : ¬ Relation.TransGen (Contains v.shared) d d := by
  obtain ⟨held, ⟨a, tracked⟩, _⟩ := fair_run start fair taken
  refine acyclic_of_rank a.birth (fun d c _ _ inside _ _ => ?_) d
  obtain ⟨dir, child, i, rfl, named, plain⟩ := inside
  exact tracked.ordered.order d dir i named plain child

omit start fair taken in
theorem no_directory_cycle_mkdir : ∃ v,
    run fsMachine.step treeStart (calls 0 (.call (.sysMkdir (some [97, 47, 120]))) 63) = some v ∧
    v.shared.slots 2 3 = ⟨5, [120]⟩ ∧ ∀ d, ¬ Relation.TransGen (Contains v.shared) d d :=
  exists_some_of (fun v => v.shared.slots 2 3 = ⟨5, [120]⟩) (by decide +kernel)
    fun _ taken made => ⟨made, no_directory_cycle treeStart_wellFormed (by decide +kernel) taken⟩

end

end Xv6.Fs
