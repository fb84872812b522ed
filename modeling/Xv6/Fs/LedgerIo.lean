import Xv6.Fs.Accounts

namespace Xv6.Fs
open Lib

/-! ## All calls together

Any number of processes are inside system calls at the same time. -/

inductive FsCall where
  | call (c : Call)
  | sysRead (fd r : Int)
  | sysWrite (fd n r : Int) (chunk : Nat → Chunk)

def fsProgram (self : Slot) : FsCall → IoOp Int
  | .call c => (syscall self c).left
  | .sysRead fd r => sysRead fd r
  | .sysWrite fd n r chunk => sysWrite fd n r chunk

def fsMachine : Machine State Stop Slot FsCall Slot (Sum.elim Answer IoAnswer) Int where
  perform := performAll
  program := fsProgram
  enabled s p := (s.proc p).status = .runnable
  outside := reap

abbrev FsSystem := Threads State Slot (Sum.elim Answer IoAnswer) Int

abbrev FsTurn := Turn Slot FsCall Slot

/-! ## Reads and writes leave the accounts -/

def contractIo : Contract IoAnswer Held where
  pre r h := h.proc.status = .runnable ∧ match r with
    | .file f => 1 ≤ h.own f
    | _ => True
  post _ h _ h' := h' = h

abbrev contractAll : Contract (Sum.elim Answer IoAnswer) Held := contract.sum contractIo

section
variable {s t : State} {held : Slot → Held} {h : Held} {f : FileId} {b : Balance}

theorem sameAccounts_writei (s : State) (e : Entry) (off n got : Nat) (data : Nat → Dirent) :
    SameAccounts s (s.writei e off n got data).2 := by
  unfold State.writei
  simp only
  split_ifs
  · exact sameAccounts_disk s s.disk s.slots
  · exact sameAccounts_disk s s.disk s.slots
  · refine (sameAccounts_setEntry (s := s) (e := e) ?_).trans (sameAccounts_disk _ _ _)
    rfl

theorem Ledger.setOff (ledger : Ledger s held) (f : FileId) (off : Nat) :
    Ledger (s.setFile f { s.file f with off := off }) held := by
  have file (f' : FileId) : ∃ off', (s.setFile f { s.file f with off := off }).file f' = { s.file f' with off := off' } := by
    by_cases same : f' = f
    · subst same
      exact ⟨off, Function.update_self ..⟩
    · exact ⟨(s.file f').off, Function.update_of_ne same ..⟩
  have balance (f' : FileId) : fileBalance ((s.setFile f { s.file f with off := off }).file f') = fileBalance (s.file f') := by
    obtain ⟨off', same⟩ := file f'
    rw [same]
    rfl
  obtain ⟨⟨total, locks, ends⟩, ⟨own, nonneg, closed, fresh⟩, procs, pipes⟩ := ledger
  refine ⟨⟨?_, locks, ends⟩, ⟨?_, nonneg, ?_, ?_⟩, ⟨procs.1, procs.2, procs.3, procs.4, procs.5⟩, ⟨pipes.1, pipes.2⟩⟩
  · rw [Finset.sum_congr rfl fun f' _ => balance f']
    exact total
  · intro f'
    obtain ⟨off', same⟩ := file f'
    rw [same]
    exact own f'
  · intro f'
    obtain ⟨off', same⟩ := file f'
    rw [same]
    exact closed f'
  · intro q f'
    obtain ⟨off', same⟩ := file f'
    rw [same]
    exact fresh q f'

theorem Ledger.performIo {r : Io} {x : IoAnswer r} (ledger : Ledger s held) (taken : (performIo r).run s = .ok (x, t)) :
    Ledger t held := by
  cases r with
  | file f =>
    cases taken
    exact ledger
  | setOff f off =>
    cases taken
    exact ledger.setOff f off
  | writei e off n got data =>
    have same := sameAccounts_writei s e off n got data
    rw [congrArg Prod.snd (Except.ok.inj taken)] at same
    exact ledger.quiet same

theorem safe_io {r : Io} {Q : IoAnswer r → Held → Prop} (asked : contractIo.pre r h) (next : ∀ x, Q x h) :
    Safe contractAll Q (io r) h := by
  refine ⟨asked, fun x h' kept => ?_⟩
  rw [show h' = h from kept]
  exact next x

theorem safe_setOff {off : Nat} {c : Prop} [Decidable c] {Q : Unit → Held → Prop} (inside : Inside h b) (next : Q () h) :
    Safe contractAll Q (if c then io (.setOff f off) else pure ()) h := by
  split_ifs
  · exact safe_io ⟨inside.runs, trivial⟩ fun _ => next
  · exact next

theorem safe_transfer {allowed : Bool} {why : Panic} {inode : IoOp Int} (inside : Inside h 0) (ff : File) (r : Int)
    (next : Safe contractAll (fun _ => AtRest) inode h) :
    Safe contractAll (fun _ => AtRest) (transfer ff allowed r why inode) h := by
  unfold transfer
  by_cases shut : allowed = false
  · rw [if_pos shut]
    exact inside.atRest
  rw [if_neg shut]
  cases type : ff.type with
  | none => exact Safe.left (⟨⟨inside.runs, trivial⟩, nofun⟩ : Safe contract _ (panic why) h)
  | pipe => exact inside.atRest
  | device =>
    split_ifs <;> exact inside.atRest
  | inode => exact next

theorem safe_fileread (inside : Inside h 0) (mine : 1 ≤ h.own f) (r : Int) :
    Safe contractAll (fun _ => AtRest) (fileread f r) h := by
  unfold fileread
  rw [safe_bind]
  refine safe_io ⟨inside.runs, mine⟩ fun ff => safe_transfer inside ff r ?_
  rw [safe_bind]
  refine Safe.left (inside.costs (costs_ilock ff.ip) fun _ h₁ inside₁ same => ?_)
  have mine₁ : 1 ≤ h₁.own f := by
    rw [inside₁.own, same, ← inside.own]
    exact mine
  rw [safe_bind]
  refine safe_io ⟨inside₁.runs, mine₁⟩ fun now => ?_
  rw [safe_bind]
  refine safe_setOff inside₁ ?_
  refine Safe.left (inside₁.costs (costs_iunlock ff.ip) fun _ h₂ inside₂ _ => Inside.atRest ?_)
  rwa [zero_add, add_neg_cancel] at inside₂

theorem safe_filewriteFrom {ip : Entry} {n : Int} {chunk : Nat → Chunk} {Q : Nat → Held → Prop} (fuel i : Nat)
    (inside : Inside h 0) (mine : 1 ≤ h.own f) (next : ∀ i h', Inside h' 0 → Q i h') :
    Safe contractAll Q (filewriteFrom f ip n chunk fuel i) h := by
  induction fuel generalizing h i with
  | zero => exact next i h inside
  | succ fuel ih =>
    unfold filewriteFrom
    split_ifs with more
    · rw [safe_bind]
      refine Safe.left (inside.costs costs_beginOp fun _ h₁ inside₁ same₁ => ?_)
      rw [safe_bind]
      refine Safe.left (inside₁.costs (costs_ilock ip) fun _ h₂ inside₂ same₂ => ?_)
      have mine₂ : 1 ≤ h₂.own f := by
        rw [inside₂.own, same₂, same₁, ← inside.own]
        exact mine
      rw [safe_bind]
      refine safe_io ⟨inside₂.runs, mine₂⟩ fun ff => ?_
      rw [safe_bind]
      refine safe_io ⟨inside₂.runs, trivial⟩ fun r => ?_
      rw [safe_bind]
      refine safe_setOff inside₂ ?_
      refine Safe.left (inside₂.costs (costs_iunlock ip) fun _ h₃ inside₃ same₃ => ?_)
      refine Safe.left (inside₃.costs costs_endOp fun _ h₄ inside₄ same₄ => ?_)
      rw [show 0 + op + locked ip + -locked ip + -op = 0 by abel] at inside₄
      have mine₄ : 1 ≤ h₄.own f := by
        rw [inside₄.own, same₄, same₃, ← inside₂.own]
        exact mine₂
      split_ifs with short
      · exact next i h₄ inside₄
      · exact ih _ inside₄ mine₄
    · exact next i h inside

theorem safe_filewrite (inside : Inside h 0) (mine : 1 ≤ h.own f) (n r : Int) (chunk : Nat → Chunk) :
    Safe contractAll (fun _ => AtRest) (filewrite f n r chunk) h := by
  unfold filewrite
  rw [safe_bind]
  refine safe_io ⟨inside.runs, mine⟩ fun ff => safe_transfer inside ff r ?_
  rw [safe_bind]
  exact safe_filewriteFrom _ _ inside mine fun i h' after => after.atRest

theorem safe_fsProgram (inside : Inside h 0) (self : Slot) (c : FsCall) :
    Safe contractAll (fun _ => AtRest) (fsProgram self c) h := by
  have mine (fd : Fd) (f : FileId) (here : h.proc.ofile fd = some f) : 1 ≤ h.own f := by
    rw [inside.own]
    exact slotsOf_pos here
  cases c with
  | call c => exact Safe.left (safe_syscall inside self c)
  | sysRead fd r =>
    unfold fsProgram sysRead
    rw [safe_bind]
    exact Safe.left (safe_argfd inside.runs inside.atRest fun fd f here => safe_fileread inside (mine fd f here) r)
  | sysWrite fd n r chunk =>
    unfold fsProgram sysWrite
    rw [safe_bind]
    exact Safe.left (safe_argfd inside.runs inside.atRest fun fd f here =>
      safe_filewrite inside (mine fd f here) n r chunk)

end

end Xv6.Fs
