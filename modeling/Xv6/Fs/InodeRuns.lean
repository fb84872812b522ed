import Xv6.Fs.InodeSteps

namespace Xv6.Itable
open Lib Function

section
variable {ι : Type} {s t : State ι} {p q : ι} {e : Entry} {ev : Event ι}

theorem Inv.write {v : Inode} (inv : Inv s) (user : s.pc p = .user) (held : s.lock e = some p)
    (table : t.table = update s.table e v) (dev : v.dev = (s.table e).dev)
    (inum : v.inum = (s.table e).inum) (ref : v.ref = (s.table e).ref) (lock : t.lock = s.lock)
    (refs : t.refs = s.refs) (pc : t.pc = s.pc) {d : Bool} (dirty : t.dirty = update s.dirty e d)
    (wrote : Wrote s t e)
    (agree : Agree (s.table e) (s.dinode e) (s.dirty e) .used → Agree v (t.dinode e) d .used) : Inv t := by
  have home : t.pc p = .user := by rw [pc, user]
  have pcs (q : ι) (_ : q ≠ p) : t.pc q = s.pc q := by rw [pc]
  constructor
  · refine inv.refs.quiet (p := p) (SameIds.update table dev inum ref) lock refs pcs ?_
    rw [home]
    exact fits_user s p
  · have acts : Acts s t p e := by
      refine inv.refs.acts table (lock.trans (kept_lock s e)) dirty wrote pcs ?_ ?_
      · simp [user, about]
      · simp [home, about]
    refine inv.entries.acts acts ?_ ?_
    · rw [lock, held]
      simp
    · intro _
      have before := inv.entries.agree e (inv.refs.positive (inv.refs.locked p e held))
      rw [stage_user held user] at before
      rw [stage_user (lock ▸ held) home, table, dirty, update_self, update_self]
      exact agree before

theorem initial_inv (ninodes : Nat) (disk : Nat → Nat → Dinode) : Inv (initial (ι := ι) ninodes disk) := by
  constructor
  · exact ⟨fun _ => rfl, nofun, nofun, nofun, nofun, nofun⟩
  · exact ⟨fun _ _ => rfl, nofun⟩

variable [DecidableEq ι]

/-! ## Every call -/

theorem Inv.iput (inv : Inv s) (user : s.pc p = .user) (spare : Spare s p e) (taken : iput s p e = some t) : Inv t := by
  have away : about (s.pc p) = none := by rw [user]; rfl
  unfold Itable.iput at taken
  split_ifs at taken with last free
  · cases taken
    refine inv.acquire free spare.member away rfl ?_
    rintro ⟨clean, agree⟩
    obtain ⟨same, type⟩ := agree last.2.1
    exact ⟨clean, last.2.1, congrArg Dinode.type same, type⟩
  · cases taken
    have dropped := inv.drop away spare.member spare.kept rfl
    rwa [show (Itable.drop s p e).goto p .user = Itable.drop s p e by
      simp [State.goto, Itable.drop, State.setEntry, ← user]] at dropped

theorem Inv.ialloc {dev inum : Nat} {type : Int} (inv : Inv s) (place : s.pc p = .ialloc dev type inum)
    (taken : kernelStep s p (.ialloc dev type inum) = some t) : Inv t := by
  have away : about (s.pc p) = none := by rw [place]; rfl
  simp only [kernelStep] at taken
  split_ifs at taken with inside free
  · cases taken
    have moved := inv.moves (k := .iallocGet dev inum) away rfl ⟨(by rintro _ ⟨⟩), (by rintro _ ⟨⟩), (by simp)⟩
    refine ⟨⟨moved.refs.counts, moved.refs.unique, moved.refs.locked, moved.refs.holding, moved.refs.needing,
      moved.refs.dropping⟩, ⟨moved.entries.clean, ?_⟩⟩
    intro e positive
    have before := moved.entries.agree e positive
    by_cases same : (s.table e).dev = dev ∧ (s.table e).inum = inum
    · obtain ⟨rfl, rfl⟩ := same
      exact before.reallocated free
    · have dinode : ((s.setDisk dev inum ⟨type, 0, 0, 0, 0, fun _ => 0⟩).goto p (.iallocGet dev inum)).dinode e =
          s.dinode e := by
        simp only [State.dinode, State.goto, State.setDisk]
        by_cases device : (s.table e).dev = dev
        · have other : (s.table e).inum ≠ inum := fun inum => same ⟨device, inum⟩
          simp [device, other]
        · simp [device]
      rw [dinode]
      exact before
  · cases taken
    exact inv.moves away rfl ⟨(by rintro _ ⟨⟩), (by rintro _ ⟨⟩), (by simp)⟩
  · cases taken
    exact inv.stop _

theorem Inv.kernelStep (inv : Inv s) (taken : kernelStep s p (s.pc p) = some t) : Inv t := by
  cases place : s.pc p with
  | user =>
    rw [place] at taken
    cases taken
  | ilockAcquire e =>
    rw [place] at taken
    simp only [Itable.kernelStep] at taken
    split_ifs at taken with free
    cases taken
    exact inv.acquire free (inv.refs.needing p e (by rw [place]; rfl)) (by rw [place]; rfl) rfl id
  | ilockValid e => exact inv.ilockValid place (place ▸ taken)
  | ilockSet e => exact inv.ilockSet place (place ▸ taken)
  | ialloc dev type inum => exact inv.ialloc place (place ▸ taken)
  | iallocGet dev inum =>
    rw [place] at taken
    cases taken
    exact inv.iget dev inum (by rw [place]; rfl) .user (.inr rfl)
  | iputTrunc e | iputTruncUpdate e | iputType e => exact inv.iputFree place rfl (place ▸ taken) (.inl rfl)
  | iputUpdate e | iputInvalid e => exact inv.iputFree place rfl (place ▸ taken) (.inr rfl)
  | iputRelease e =>
    rw [place] at taken
    cases taken
    exact inv.iputRelease place
  | iputDrop e =>
    rw [place] at taken
    cases taken
    have member := inv.refs.needing p e (by rw [place]; rfl)
    exact inv.drop (by rw [place]; rfl) member (fun held => absurd held (inv.refs.dropping p e place)) rfl

theorem Inv.userStep (inv : Inv s) (user : s.pc p = .user) (taken : userStep s p ev = some t) : Inv t := by
  have away : about (s.pc p) = none := by rw [user]; rfl
  cases ev with
  | next _ => cases taken
  | iget _ dev inum =>
    cases taken
    have got := inv.iget dev inum away (s.pc p) (.inl rfl)
    rwa [← iget_pc s p dev inum, State.goto_pc_self] at got
  | idup _ q e => grind [Itable.userStep, inv.idup]
  | pass _ q e =>
    simp only [Itable.userStep] at taken
    split_ifs at taken with spare
    cases taken
    exact inv.pass user spare.member spare.kept
  | ilock _ e =>
    simp only [Itable.userStep] at taken
    split_ifs at taken with member zero
    · cases taken
      exact inv.stop _
    · cases taken
      refine inv.moves away rfl ⟨nofun, ?_, nofun⟩
      rintro e' ⟨⟩
      exact member
  | iunlock _ e =>
    simp only [Itable.userStep] at taken
    split_ifs at taken with held
    cases taken
    refine inv.unlock held.1 (fun _ _ => rfl) user rfl rfl rfl rfl rfl ?_ rfl (fits_user _ p) ?_
    · simp [away]
    · rw [stage_user held.1 user]
      rintro ⟨_, _, set, agree⟩
      exact ⟨held.2, fun _ => ⟨agree held.2, set⟩⟩
  | change _ e v =>
    simp only [Itable.userStep] at taken
    split_ifs at taken with held
    cases taken
    refine inv.write user held.1 rfl rfl rfl rfl rfl rfl rfl rfl (.inl rfl) ?_
    have disk := dinode_setCopy s e v
    rintro ⟨valid, type, set, _⟩
    refine ⟨valid, ?_, ?_, nofun⟩
    · exact (held.2.trans type).trans (congrArg Dinode.type disk).symm
    · exact fun zero => set ((congrArg Dinode.type disk).symm.trans zero)
  | iupdate _ e =>
    simp only [Itable.userStep] at taken
    split_ifs at taken with held
    cases taken
    have positive := inv.refs.positive (inv.refs.locked p e held)
    refine inv.write user held (kept_table s e) rfl rfl rfl rfl rfl rfl rfl (.inr ⟨positive, _, rfl⟩) ?_
    have disk := dinode_write s e (s.table e).copy
    rintro ⟨valid, type, set, _⟩
    refine ⟨valid, (congrArg Dinode.type disk).symm, ?_, fun _ => disk.symm⟩
    exact fun zero => set (type.symm.trans ((congrArg Dinode.type disk).symm.trans zero))
  | ialloc _ dev type =>
    simp only [Itable.userStep] at taken
    split_ifs at taken with zero
    cases taken
    exact inv.moves away rfl ⟨nofun, nofun, nofun⟩
  | iput _ e => grind [Itable.userStep, inv.iput]

theorem Inv.step (inv : Inv s) (taken : step s ev = some t) : Inv t := by
  unfold Itable.step at taken
  split_ifs at taken
  cases place : s.pc ev.process with
  | user =>
    rw [place] at taken
    exact inv.userStep place taken
  | _ =>
    rw [place] at taken
    cases ev with
    | next p => exact inv.kernelStep (by rw [show s.pc p = _ from place]; exact taken)
    | _ => cases taken

/-! ## Coherence of the table -/

/-- One entry for each inode in use, an unlocked entry in use agrees with the buffer, and so does the
copy that `ilock` returns to its caller, who alone changes it from there on. -/
theorem table_coherent {ninodes : Nat} {disk : Nat → Nat → Dinode} {evs : List (Event ι)}
    (taken : run step (initial ninodes disk) evs = some t) :
    (∀ e e', 0 < (t.table e).ref → 0 < (t.table e').ref → (t.table e').dev = (t.table e).dev →
      (t.table e').inum = (t.table e).inum → e' = e) ∧
    (∀ e, 0 < (t.table e).ref → (t.table e).valid → t.lock e = none → (t.table e).copy = t.dinode e) ∧
    ∀ p e, t.lock e = some p → t.pc p = .user → t.dirty e = false →
      (t.table e).valid ∧ (t.table e).copy = t.dinode e := by
  have inv : Inv t := run_inductive (fun s ev t taken inv => inv.step taken) (initial_inv ninodes disk) taken
  refine ⟨inv.refs.unique, ?_, ?_⟩
  · intro e positive valid free
    have agree := inv.entries.agree e positive
    rw [stage_free free] at agree
    exact (agree.2 valid).1
  · intro p e held user clean
    have agree := inv.entries.agree e (inv.refs.positive (inv.refs.locked p e held))
    rw [stage_user held user] at agree
    exact ⟨agree.1, agree.2.2.2 clean⟩

end

def freeAndAllocate : List (Event Bool) :=
  [.iget false 1 2, .ilock false 0, .next false, .next false, .next false,
    .change false 0 ⟨1, 0, 0, 0, 0, fun _ => 0⟩, .iupdate false 0, .iunlock false 0, .iput false 0,
    .next false, .next false, .next false, .next false,
    .ialloc true 1 3, .next true, .next true, .next true, .ilock true 0,
    .next false, .next false, .next true, .next true, .next true, .next false]

def files (_ inum : Nat) : Dinode := ⟨if inum = 0 then 0 else 1, 0, 0, 1, 7, fun _ => 0⟩

theorem table_coherent_freeAndAllocate :
    ∃ t, run step (initial 5 files) freeAndAllocate = some t ∧ t.lock 0 = some true ∧
      (t.table 0).copy = t.dinode 0 ∧ (t.table 0).copy.type = 3 := by
  refine exists_some_of (fun t => t.lock 0 = some true ∧ t.pc true = .user ∧ t.dirty 0 = false ∧
    (t.table 0).copy.type = 3) (by decide +kernel) fun t taken ⟨held, user, clean, type⟩ => ?_
  exact ⟨held, ((table_coherent taken).2.2 true 0 held user clean).2, type⟩

def staleEntry : List (Event Unit) :=
  [.iget () 1 2, .iget () 1 3, .ilock () 1, .next (), .next (), .next (), .iunlock () 1, .iput () 1, .iput () 0,
    .iget () 1 3, .ilock () 0, .next (), .next (), .next (), .change () 0 ⟨1, 0, 0, 2, 7, fun _ => 0⟩, .iupdate () 0,
    .iunlock () 0]

/-- An entry that nobody refers to keeps `valid` set, and what it holds may be old. -/
theorem unused_entry_stale :
    ¬ ∀ (evs : List (Event Unit)) (t : State Unit), run step (initial 5 files) evs = some t →
      ∀ e, (t.table e).valid → t.lock e = none → (t.table e).copy = t.dinode e := by
  intro claim
  obtain ⟨t, taken, valid, free, differ⟩ := exists_some (o := run step (initial 5 files) staleEntry)
    (P := fun t => (t.table 1).valid ∧ t.lock 1 = none ∧ (t.table 1).copy.nlink ≠ (t.dinode 1).nlink)
    (by decide +kernel)
  exact differ (by rw [claim staleEntry t taken 1 valid free])

end Xv6.Itable
