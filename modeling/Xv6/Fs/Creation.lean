import Xv6.Fs.Lookup

namespace Xv6.Fs
open Lib Function

/-! ## What a new inode goes through

`create` allocates inode `x`, links it in a directory and leaves it locked in entry `ip`. -/

section
variable {p : Slot} {b s t : State} {dp ip : Entry} {name : Name} {x : Nat}

structure Made (b : State) (x : Nat) (ip : Entry) (t : State) : Prop where
  absent : (b.disk x).type = 0
  there : (t.disk x).type ≠ 0
  linked : (t.table ip).copy.nlink ≠ 0
  file : t.file = b.file

/-- Entry `dp` is for another inode. -/
structure Beside (b : State) (x : Nat) (dp ip : Entry) (t : State) : Prop extends Made b x ip t where
  apart : (t.table dp).inum ≠ x
  other : dp ≠ ip

section
variable (beside : Beside b x dp ip s)

include beside

theorem Beside.setLock (l : Option Slot) : Beside b x dp ip (s.setLock dp l) := { beside with }

theorem Beside.setSlots (inum : Nat) (v : Nat → Dirent) : Beside b x dp ip (s.setSlots inum v) := { beside with }

theorem Beside.setEntry (ref : Int) (valid : Bool) (copy : Dinode) :
    Beside b x dp ip (s.setEntry dp ⟨(s.table dp).inum, ref, valid, copy⟩) where
  absent := beside.absent
  there := beside.there
  linked := by
    rw [setEntry_table, if_neg beside.other.symm]
    exact beside.linked
  file := beside.file
  apart := by
    rw [setEntry_table, if_pos rfl]
    exact beside.apart
  other := beside.other

theorem Beside.iupdate : Beside b x dp ip (s.iupdate dp) where
  absent := beside.absent
  there := by
    have same : (s.iupdate dp).disk x = s.disk x := update_of_ne beside.apart.symm ..
    rw [same]
    exact beside.there
  linked := beside.linked
  file := beside.file
  apart := beside.apart
  other := beside.other

theorem Beside.itrunc : Beside b x dp ip (s.itrunc dp) := (beside.setEntry _ _ _).iupdate.setSlots _ _

theorem Beside.writeDirent (off : Nat) (de : Dirent) : Beside b x dp ip (s.writeDirent dp off de).2 := by
  rw [State.writeDirent]
  split_ifs
  · exact beside
  · exact beside
  · exact ((beside.setSlots _ _).setEntry _ _ _).iupdate
  · exact (beside.setSlots _ _).iupdate

theorem Beside.iput : Does p (fun _ t => Made b x ip t) (iput dp) s := by
  by_cases last : Last s dp
  · by_cases free : s.lock dp = none
    · refine does_next (x := true) ((if_pos last).trans (if_pos free)) ?_
      have emptied := (beside.setLock (some p)).itrunc
      refine does_next rfl (does_next rfl (does_next rfl (does_next rfl (does_next rfl (does_next rfl (does_ok rfl ?_))))))
      exact (((((emptied.setEntry _ _ _).iupdate.setEntry _ _ _).setLock none).setEntry _ _ _)).toMade
    · exact (does_bind _ _).mpr (does_stop ((if_pos last).trans (if_neg free)))
  · exact does_iput_kept last (beside.setEntry _ _ _).toMade

theorem Beside.dirlink (inum : Nat) : Does p (fun r t => 0 ≤ r → Beside b x dp ip t) (dirlink dp name inum) s := by
  unfold Fs.dirlink
  rw [does_bind]
  refine does_dirlookup (fun _ _ => ?_) fun _ e t _ _ _ _ _ => ?_
  · refine does_next rfl ((does_scanFrom _ 0).bind ?_)
    rintro ⟨-, off⟩ t rfl
    have after := beside.writeDirent off ⟨inum % 65536, name⟩
    cases outcome : t.writeDirent dp off ⟨inum % 65536, name⟩ with
    | mk written u =>
      rw [outcome] at after
      refine does_next (congrArg Except.ok outcome) ?_
      split_ifs
      · exact fun _ => after
      · exact does_panic
  · exact (does_anything _ _).bind fun _ _ _ negative => absurd negative (by decide)

end

/-! ## Allocating it -/

theorem does_iallocFrom (type : Int) (n inum : Nat) :
    Does p (fun ip t => ∃ x, (s.disk x).type = 0 ∧ (s.setDisk x ⟨type, 0, 0, 0, 0⟩).iget x = .ok (ip, t))
      (iallocFrom type n inum) s := by
  induction n generalizing inum with
  | zero => exact does_panic
  | succ n ih =>
    unfold iallocFrom
    by_cases free : (s.disk inum).type = 0
    · have found : s.tryAlloc inum type = (true, s.setDisk inum ⟨type, 0, 0, 0, 0⟩) := if_pos free
      exact does_next (congrArg Except.ok found) (does_iget fun ip t taken => ⟨inum, free, taken⟩)
    · have used : s.tryAlloc inum type = (false, s) := if_neg free
      exact does_next (congrArg Except.ok used) (ih _)

theorem Cache.allocate (cache : Cache s) {d : Dinode} (free : (s.disk x).type = 0) : Cache (s.setDisk x d) := by
  have same (e : Entry) (used : 0 < (s.table e).ref) (valid : (s.table e).valid) :
      (s.setDisk x d).disk (s.table e).inum = s.disk (s.table e).inum := by
    refine update_of_ne (fun here => ?_) ..
    exact cache.typed e used valid (by rwa [here])
  refine ⟨cache.nonneg, cache.unique, fun e used valid => ?_, fun e used valid => ?_⟩
  · exact (cache.copy e used valid).trans (same e used valid).symm
  · exact (congrArg Dinode.type (same e used valid)).trans_ne (cache.typed e used valid)

theorem At.createNew (here : At b s dp) (dir : (b.disk (s.table dp).inum).type ≠ 0) {type : Int}
    (typed : type ≠ 0) (plain : type ≠ T_DIR) (major minor : Int) :
    Does p (fun ip t => ∃ x, Made b x ip t) (createNew dp name type major minor) s := by
  unfold Fs.createNew ialloc
  rw [does_bind, does_bind]
  refine does_ok rfl ((does_iallocFrom _ _ _).mono fun ip t new => ?_)
  obtain ⟨x, unused, taken⟩ := new
  have holds := (Holds.refl (here.cache.allocate unused)).get taken
  have inum : (t.table ip).inum = x := iget_inum taken
  have there : t.disk (t.table ip).inum = ⟨type, 0, 0, 0, 0⟩ := by
    rw [(iget_image taken).1, inum]
    exact update_self ..
  have kept : (t.table dp).inum = (s.table dp).inum := (iget_same taken here.used).inum
  rw [here.disk] at unused
  have apart : (s.table dp).inum ≠ x := by
    rintro rfl
    exact dir unused
  rw [does_bind]
  refine does_ilock holds.cache fun used _ => ?_
  have copy : ((t.locked p ip).table ip).copy = ⟨type, 0, 0, 0, 0⟩ :=
    ((holds.cache.lock (some p)).loaded_copy used).trans there
  have file : (t.locked p ip).file = s.file := (holds.locked used (by rwa [there])).file
  refine does_next rfl (does_next rfl (does_next rfl ?_))
  have beside (d : Dinode) (d_type : d.type ≠ 0) (d_links : d.nlink ≠ 0) :
      Beside b x dp ip ((t.locked p ip).update ip d) := by
    refine ⟨⟨unused, ?_, ?_, file.trans here.file⟩, ?_, ?_⟩
    · rw [update_disk, locked_inum, inum, update_self]
      exact d_type
    · rw [update_table, if_pos rfl]
      exact d_links
    · rw [update_inum, locked_inum, kept]
      exact apart
    · rintro rfl
      exact apart (kept.symm.trans inum)
  rw [if_neg plain, copy]
  refine does_next rfl ?_
  refine ((beside ⟨type, short major, short minor, 1, 0⟩ typed Int.one_ne_zero).dirlink _).bind fun r u after => ?_
  split_ifs with failed
  · exact does_panic
  · rw [does_bind]
    have unlocked := (after (Int.not_lt.mp failed)).setLock none
    exact does_iunlock (unlocked.iput.mono fun _ v made => ⟨x, made⟩)

end

end Xv6.Fs
