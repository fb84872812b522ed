import Xv6.Fs.LockRuns
import Xv6.Lib.Acyclic

namespace Xv6.Fs
open Lib

/-! ## A tree -/

theorem boot_wellFormed {ninodes : Nat} {disk : Nat → Dinode} {slots : Nat → Nat → Dirent} (small : ninodes ≤ 65536)
    (ordered : ∃ a, Ordered a (boot ninodes disk slots)) : WellFormed ⟨boot ninodes disk slots, fun _ => none⟩ := by
  have root {e : Entry} (used : 0 < ((boot ninodes disk slots).table e).ref) : e = 0 := by
    by_contra other
    simp [boot, other] at used
  refine ⟨fun _ => rfl, boot_ledger ninodes disk slots, ⟨?_, ?_, ?_, small⟩, ordered, ?_⟩
  · exact fun e e' used used' _ => (root used).trans (root used').symm
  · intro e _ used valid
    rw [root used] at valid
    cases valid
  · intro e used
    rw [root used]
    exact (by decide : ROOTINO < 65536)
  · rintro f (stands | stands) <;> cases stands

def treeDisk : Nat → Dinode
  | 1 => ⟨T_DIR, 0, 0, 3, 64⟩
  | 2 => ⟨T_DIR, 0, 0, 2, 48⟩
  | 3 | 4 => ⟨T_DIR, 0, 0, 1, 32⟩
  | _ => ⟨0, 0, 0, 0, 0⟩

def treeEntries : Nat → List Dirent
  | 1 => [⟨1, dot⟩, ⟨1, dotdot⟩, ⟨2, [97]⟩, ⟨4, [100]⟩]
  | 2 => [⟨2, dot⟩, ⟨1, dotdot⟩, ⟨3, [98]⟩]
  | 3 => [⟨3, dot⟩, ⟨2, dotdot⟩]
  | 4 => [⟨4, dot⟩, ⟨1, dotdot⟩]
  | _ => []

def treeStart : FsSystem := ⟨boot 20 treeDisk fun inum i => (treeEntries inum).getD i ⟨0, []⟩, fun _ => none⟩

def treeAges : Ages where
  birth inum := if inum = 2 ∨ inum = 4 then 1 else if inum = 3 then 2 else 0
  clock := 3
  past inum := by
    split_ifs <;> decide

theorem tree_dir {inum : Nat} (used : (treeDisk inum).type ≠ 0 ∨ treeEntries inum ≠ []) : inum ∈ [1, 2, 3, 4] := by
  unfold treeDisk treeEntries at used
  split at used <;> simp_all

theorem treeStart_wellFormed : WellFormed treeStart := by
  have none {inum i : Nat} (beyond : (treeEntries inum).length ≤ i) : (treeEntries inum).getD i ⟨0, []⟩ = ⟨0, []⟩ :=
    List.getD_eq_getElem?_getD.trans (by rw [List.getElem?_eq_none beyond]; rfl)
  have short : ∀ inum ∈ [1, 2, 3, 4], (treeEntries inum).length ≤ 4 := by decide
  refine boot_wellFormed (by decide) ⟨treeAges, ?_, ?_, ?_⟩
  · intro inum free i
    change ((treeEntries inum).getD i ⟨0, []⟩).inum = 0
    by_cases empty : treeEntries inum = []
    · rw [empty]
      rfl
    · have free' : ∀ inum ∈ [1, 2, 3, 4], (treeDisk inum).type ≠ 0 := by decide
      exact absurd free (free' inum (tree_dir (.inr empty)))
  · intro inum _ i
    change ((treeEntries inum).getD i ⟨0, []⟩).inum < 65536
    by_cases beyond : (treeEntries inum).length ≤ i
    · rw [none beyond]
      decide
    · have member := tree_dir (.inr fun empty => beyond (by rw [empty]; exact Nat.zero_le i))
      have each : ∀ inum ∈ [1, 2, 3, 4], ∀ i < 4, ((treeEntries inum).getD i ⟨0, []⟩).inum < 65536 := by decide
      exact each inum member i (Nat.lt_of_lt_of_le (Nat.lt_of_not_le beyond) (short inum member))
  · intro inum _ i
    change ((treeEntries inum).getD i ⟨0, []⟩).inum ≠ 0 → ¬ dots ((treeEntries inum).getD i ⟨0, []⟩).name → _ →
      treeAges.birth inum < treeAges.birth ((treeEntries inum).getD i ⟨0, []⟩).inum
    by_cases beyond : (treeEntries inum).length ≤ i
    · rw [none beyond]
      exact fun named => absurd rfl named
    · have member := tree_dir (.inr fun empty => beyond (by rw [empty]; exact Nat.zero_le i))
      have each : ∀ inum ∈ [1, 2, 3, 4], ∀ i < 4, ((treeEntries inum).getD i ⟨0, []⟩).inum ≠ 0 →
          ¬ (((treeEntries inum).getD i ⟨0, []⟩).name = dot ∨ ((treeEntries inum).getD i ⟨0, []⟩).name = dotdot) →
          treeAges.birth inum < treeAges.birth ((treeEntries inum).getD i ⟨0, []⟩).inum := by decide
      exact fun named plain _ =>
        each inum member i (Nat.lt_of_lt_of_le (Nat.lt_of_not_le beyond) (short inum member)) named plain

def calls (p : Slot) (c : FsCall) (n : Nat) : List FsTurn := .call p c :: List.replicate n (.next p)

/-! ## Only the kernel writes directories -/

section
variable {u v : FsSystem} {turns : List FsTurn}

/-- An open file that may be written stands for no directory, and a directory is truncated only when it
is freed: no file stands for it, as the new one does when `sys_open` truncates. -/
theorem directory_not_writable (start : WellFormed u) (fair : Meets fsMachine.step Fair u turns)
    (taken : run fsMachine.step u turns = some v) :
    (∀ f, 0 < (v.shared.file f).ref → (v.shared.file f).type = .inode → (v.shared.file f).writable = true →
      v.shared.kind (v.shared.file f).ip ≠ T_DIR) ∧
    ∀ p e rest, v.thread p = some (.ask (.inl (.itrunc e)) rest) → v.shared.kind e = T_DIR →
      (v.shared.table e).copy.nlink = 0 ∧ ∀ f, (v.shared.file f).OfInode → (v.shared.file f).ip ≠ e := by
  obtain ⟨held, ⟨a, tracked⟩, owns⟩ := fair_run start fair taken
  refine ⟨fun f _ type writable => (tracked.opened f (.inl type)).2 writable, fun p e rest running dir => ?_⟩
  have owned := owns p
  rw [running] at owned
  have asked := owned.1.2
  have sole : (held p).2.know.knows (.sole e) := by
    cases here : (held p).2 with
    | made k inum type =>
      rw [here] at asked
      cases asked.1
    | idle k =>
      rw [here] at asked
      rcases asked.2 with sole | ⟨type, known, other⟩
      · exact sole
      · exact absurd (((tracked.know here).holds _ known).2.symm.trans dir) other
  exact ⟨((tracked.mind p).holds _ sole).2.1, (tracked.sole p e sole).1⟩

end

/-- `open("f", O_CREATE | O_RDWR)` makes a file that may be written. -/
theorem directory_not_writable_open : ∃ v, run fsMachine.step treeStart
    (calls 0 (.call (.sysOpen (some [102]) 0x202)) 47) = some v ∧
    ((v.shared.file 0).ref = 1 ∧ (v.shared.file 0).writable = true) ∧ v.shared.kind (v.shared.file 0).ip ≠ T_DIR := by
  refine exists_some_of (fun v => (v.shared.file 0).ref = 1 ∧ (v.shared.file 0).type = .inode ∧
    (v.shared.file 0).writable = true) (by decide +kernel) fun v taken ⟨ref, type, writable⟩ => ⟨⟨ref, writable⟩, ?_⟩
  exact (directory_not_writable treeStart_wellFormed (by decide +kernel) taken).1 0 (by rw [ref]; decide) type writable

/-- Two more processes, with the current directories `a/b` and `d`; then `a/b` and `a` are unlinked. -/
def settled : List FsTurn :=
  calls 0 (.call (.fork (some 1) true)) 19 ++ calls 0 (.call (.fork (some 2) true)) 19 ++
  calls 1 (.call (.sysChdir (some [97, 47, 98]))) 31 ++ calls 2 (.call (.sysChdir (some [100]))) 22 ++
  calls 0 (.call (.sysUnlink (some [97, 47, 98]))) 42 ++ calls 0 (.call (.sysUnlink (some [97]))) 40

/-- `open("f", O_CREATE | O_RDWR)` has allocated the inode of `a`; before it refers to it, `chdir("..")`
from `b` frees it again, and `mkdir("c")` allocates it. -/
def race : List FsTurn :=
  settled ++ calls 0 (.call (.sysOpen (some [102]) 0x202)) 17 ++ calls 1 (.call (.sysChdir (some [46, 46]))) 25 ++
  calls 2 (.call (.sysMkdir (some [99]))) 16 ++ List.replicate 26 (.next 0)

theorem race_opens_directory : WellFormed treeStart ∧ ∃ v, run fsMachine.step treeStart race = some v ∧
    0 < (v.shared.file 0).ref ∧ (v.shared.file 0).type = .inode ∧ (v.shared.file 0).writable = true ∧
    v.shared.kind (v.shared.file 0).ip = T_DIR :=
  ⟨treeStart_wellFormed, exists_some (by decide +kernel)⟩

/-! ## Processes that wait for inode locks -/

def sleepsOn : Req ⊕ Io → Option Entry
  | .inl (.acquire e) | .inl (.putLast e) => some e
  | _ => none

def blockedOn (u : FsSystem) (p : Slot) : Option Entry :=
  match u.thread p with
  | some (.ask r _) => match (performAll p r).run u.shared with
      | .error .wait => sleepsOn r
      | _ => none
  | _ => none

def WaitsFor (u : FsSystem) (p q : Slot) : Prop :=
  (∃ e, u.shared.lock e = some p) ∧ ∃ e, blockedOn u p = some e ∧ u.shared.lock e = some q

instance (u : FsSystem) (p q : Slot) : Decidable (WaitsFor u p q) := inferInstanceAs (Decidable (_ ∧ _))

def waitAge (a : Ages) (u : FsSystem) (p : Slot) : Nat :=
  match blockedOn u p with
  | some e => a.birth (u.shared.table e).inum
  | none => 0

section
variable {a : Ages} {u v : FsSystem} {held : Slot → Held × Stage} {p q : Slot} {e e' : Entry} {turns : List FsTurn}

theorem blocked_asks (blocked : blockedOn u p = some e) : ∃ r rest, u.thread p = some (.ask r rest) ∧
    sleepsOn r = some e ∧ (performAll p r).run u.shared = .error .wait := by
  unfold blockedOn at blocked
  cases thread : u.thread p with
  | none => simp [thread] at blocked
  | some prog => grind

theorem Tracked.putLast_free {k : Know} {s : State} (tracked : Tracked a s held) (here : (held p).2 = .idle k)
    (asked : Order.pre k (.putLast e)) : s.putLast p e ≠ .error .wait := by
  intro waits
  unfold State.putLast at waits
  split_ifs at waits with last free
  have know : (held p).2.know = k := by rw [here]; rfl
  obtain ⟨one, _, others⟩ := tracked.last (know ▸ asked.1) last.1
  obtain ⟨q, taken⟩ := Option.ne_none_iff_exists'.mp free
  have member := (tracked.mind q).locks e |>.mpr taken
  by_cases own : q = p
  · subst own
    rw [know] at one member
    have := asked.2 member
    omega
  · exact others q own ((tracked.mind q).locked e member)

theorem blocked_order (tracked : Tracked a u.shared held) (owns : ∀ q, Owns both BothAtRest (held q) (u.thread q))
    (blocked : blockedOn u p = some e) (mine : u.shared.lock e' = some p) : u.shared.kind e' = T_DIR ∧
      (u.shared.kind e = T_DIR → a.birth (u.shared.table e').inum < a.birth (u.shared.table e).inum) := by
  obtain ⟨r, rest, running, sleeps, waits⟩ := blocked_asks blocked
  have owned := owns p
  rw [running] at owned
  obtain ⟨⟨_, asked⟩, _⟩ := owned
  cases r with
  | inr r => cases sleeps
  | inl r =>
    cases here : (held p).2 with
    | made k inum type =>
      rw [here] at asked
      obtain ⟨rfl, _⟩ := asked
      cases sleeps
    | idle k =>
      rw [here] at asked
      have mind := tracked.know here
      cases r with
      | putLast x =>
        obtain rfl : x = e := Option.some.inj sleeps
        exact absurd waits (tracked.putLast_free here asked)
      | acquire x =>
        obtain rfl : x = e := Option.some.inj sleeps
        obtain ⟨typed, inum, numbered, younger⟩ := asked.2 e' ((mind.locks e').mpr mine)
        refine ⟨(mind.holds _ typed).2, ?_⟩
        have same : (u.shared.table x).inum = inum := mind.holds _ numbered
        rw [State.kind, same]
        exact (mind.holds _ younger).2
      | _ => cases sleeps

/-- No cycle of processes that wait for inode locks. -/
theorem no_inode_deadlock (start : WellFormed u) (fair : Meets fsMachine.step Fair u turns)
    (taken : run fsMachine.step u turns = some v) (p : Slot) : ¬ Relation.TransGen (WaitsFor v) p p := by
  obtain ⟨held, ⟨a, tracked⟩, owns⟩ := fair_run start fair taken
  refine acyclic_of_rank (waitAge a v) (fun p q r r' first second third => ?_) p
  obtain ⟨_, e₁, blocked₁, at₁⟩ := first
  obtain ⟨_, e₂, blocked₂, at₂⟩ := second
  obtain ⟨_, e₃, blocked₃, _⟩ := third
  -- the process that has the second lock waits itself, so that lock is of a directory
  have dir := (blocked_order tracked owns blocked₃ at₂).1
  simp only [waitAge, blocked₁, blocked₂]
  exact (blocked_order tracked owns blocked₂ at₁).2 dir

def wait : List FsTurn :=
  calls 0 (.call (.fork (some 1) true)) 19 ++ calls 0 (.call (.sysChdir (some [97]))) 15 ++
  calls 1 (.call (.sysUnlink (some [97]))) 14

theorem no_inode_deadlock_wait : ∃ v, run fsMachine.step treeStart wait = some v ∧ WaitsFor v 1 0 ∧
    ∀ p, ¬ Relation.TransGen (WaitsFor v) p p := by
  refine exists_some_of (fun v => WaitsFor v 1 0) (by decide +kernel) fun v taken waits => ⟨waits, ?_⟩
  exact no_inode_deadlock treeStart_wellFormed (by decide +kernel) taken

/-- The new directory `c` is also the file `f`, open for writing. The write makes the root an entry `z` of
it; `unlink("/f/z")` has its lock and waits for the root, and `unlink("/f")` the other way round. -/
def deadlock : List FsTurn :=
  race ++ List.replicate 31 (.next 2) ++ calls 0 (.sysWrite 0 16 0 fun _ => ⟨16, fun _ => ⟨1, [122]⟩⟩) 10 ++
  calls 1 (.call (.sysUnlink (some [47, 102, 47, 122]))) 21 ++ calls 0 (.call (.sysUnlink (some [47, 102]))) 13

theorem race_deadlocks : WellFormed treeStart ∧ ∃ v, run fsMachine.step treeStart deadlock = some v ∧
    Relation.TransGen (WaitsFor v) 0 0 := by
  refine ⟨treeStart_wellFormed, exists_some_of (fun v => WaitsFor v 0 1 ∧ WaitsFor v 1 0) (by decide +kernel) ?_⟩
  exact fun v _ ⟨there, back⟩ => .tail (.single there) back

end

end Xv6.Fs
