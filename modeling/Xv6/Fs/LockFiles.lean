import Xv6.Fs.LockSysfile
import Xv6.Fs.LedgerIo

namespace Xv6.Fs
open Lib

section
variable {k k' : Know} {e ip : Entry} {r : Entry → Int} {n : Int} {Q : Unit → Know → Prop} {f : FileId}

/-! ## Open files and the lock order -/

variable (fds : List Fd)

theorem order_fdalloc {Q : Option Fd → Know → Prop}
    (next : ∀ fd k', (k.Learns k' fun _ => False) → Q fd k') : Obeys Q (fdallocFrom f fds) k := by
  induction fds generalizing k with
  | nil => exact next none k (.refl k)
  | cons fd rest ih =>
    refine order_next rfl trivial fun found k₁ read => ?_
    cases found with
    | none =>
      refine order_next rfl trivial fun _ k₂ stored => next _ k₂ ?_
      exact (read.after stored).mono (fun _ => id) fun _ => False.elim
    | some f' => exact ih fun fd k₂ more => next fd k₂ ((read.after more).mono (fun _ => id) fun _ => False.elim)

theorem order_argfd {fd : Int} {Q : Option (Fd × FileId) → Know → Prop}
    (next : ∀ found k', (k.Learns k' fun _ => False) → Q found k') : Obeys Q (argfd fd) k := by
  unfold argfd
  split_ifs with range low
  · exact next none k (.refl k)
  · refine order_next rfl trivial fun found k₁ read => ?_
    cases found with
    | none => exact next none k₁ read
    | some f => exact next _ k₁ read
  · exact next none k (.refl k)

theorem order_fileclose (nonneg : ∀ e, 0 ≤ k.refs e) (tidy : k.Tidy)
    (next : ∀ k', k.To k' id id (fun F => 1 ≤ k.refs F.entry ∧ ∀ f e, F ≠ .file f e) (fun _ => False) → Q () k') :
    Obeys Q (fileclose f) k := by
  refine order_next rfl tidy fun ff k₁ closed => ?_
  cases ff with
  | none => exact next k₁ (closed.as (add_zero _) rfl)
  | some ff =>
    have put (same : Order.handed ff = mine ff.ip) : Obeys Q (do ask .beginOp; iput ff.ip; ask .endOp) k₁ := by
      have refs : k₁.refs = k.refs + mine ff.ip := closed.refs.trans (congrArg (k.refs + ·) same)
      have more (e : Entry) (here : e = ff.ip) : k.refs e + 1 ≤ k₁.refs ff.ip := by
        rw [refs, here, Pi.add_apply, mine_self]
      refine order_next rfl trivial fun _ k₂ began => ?_
      have refs₂ : k₂.refs = k₁.refs := began.refs
      refine follows_bind ?_
      refine order_iput ?_ ?_ fun k₃ dropped => ?_
      · grind
      · intro member
        rw [began.locks, closed.locks] at member
        have := tidy ff.ip member
        have := more ff.ip rfl
        rw [refs₂]
        omega
      · refine order_ask rfl trivial fun _ k₄ ended => next k₄ ?_
        have whole := closed.trans (began.after (dropped.trans ended))
        refine (whole.as (?_ : _ = id k.refs) rfl).mono (fun F keeps => ⟨keeps, ?_, trivial⟩) fun _ => False.elim
        · exact (congrArg (· - mine ff.ip) (congrArg (k.refs + ·) same)).trans (add_sub_cancel_right _ _)
        · grind
    have none (same : Order.handed ff = 0) : k.To k₁ id id _ _ :=
      closed.as ((congrArg (k.refs + ·) same).trans (add_zero _)) rfl
    dsimp only
    cases type : ff.type with
    | none => exact next k₁ (none (by rw [Order.handed, type]))
    | pipe =>
      refine order_ask rfl trivial fun _ k₂ shut => next k₂ ?_
      exact ((none (by rw [Order.handed, type])).trans shut).mono (fun F keeps => ⟨keeps, trivial⟩) fun _ => False.elim
    | inode | device => exact put (by rw [Order.handed, type])

theorem Know.Has.single (has : k.Has (mine e) {e}) : k.Tidy := by
  rw [Know.Tidy, has.2]
  rintro _ rfl
  exact has.first

abbrev writes (omode : BitVec 32) : Prop := omode &&& O_WRONLY ≠ 0 ∨ omode &&& O_RDWR ≠ 0

theorem order_openFile (has : k.Has (mine ip) {ip}) (full : k.knows (.full ip)) (omode : BitVec 32)
    (may : writes omode → ∃ kind, k.knows (.type ip kind) ∧ kind ≠ T_DIR) : Rests (openFile ip omode) k := by
  refine order_next rfl trivial fun d k₁ ⟨copy, _, read⟩ => ?_
  have has₁ := has.go read
  have full₁ := read.keep _ full trivial
  have type₁ : k₁.knows (.type ip d.type) := read.learn _ ⟨full, rfl⟩
  by_cases bad : d.type = T_DEVICE ∧ (d.major < 0 ∨ d.major ≥ NDEV)
  · rw [if_pos bad]
    exact order_leave has₁ full₁
  rw [if_neg bad]
  refine order_next rfl trivial fun found k₂ allocated => ?_
  have has₂ := has₁.go allocated
  have full₂ := allocated.keep _ full₁ trivial
  cases found with
  | none => exact order_leave has₂ full₂
  | some f =>
    refine follows_bind ?_
    refine order_fdalloc _ fun fd k₃ searched => ?_
    have has₃ := has₂.go searched
    have full₃ := searched.keep _ full₂ trivial
    cases fd with
    | none =>
      refine follows_bind ?_
      have nonneg (e : Entry) : 0 ≤ k₃.refs e := Int.le_trans (mine_nonneg ip e) (has₃.least e)
      refine order_fileclose nonneg has₃.single fun k₄ closed => order_leave (has₃.go closed) ?_
      exact closed.keep _ full₃ ⟨has₃.first, nofun⟩
    | some fd =>
      refine follows_bind ?_
      have type₃ := searched.keep _ (allocated.keep _ type₁ trivial) trivial
      refine order_ask rfl ⟨has₃.first, d.type, type₃, fun writable => ?_⟩ fun _ k₄ stored => ?_
      · grind
      have has₄ : k₄.Has 0 {ip} := has₃.one.drop stored
      have full₄ := stored.keep _ full₃ nofun
      -- Whether the file is emptied or not, the entry is still locked and full.
      have finish (k₅ : Know) (has₅ : k₅.Has 0 {ip}) (full₅ : k₅.knows (.full ip)) :
          Rests (do iunlock ip; ask .endOp; pure (fd.val : Int)) k₅ := by
        refine follows_bind ?_
        exact order_iunlock full₅ fun k₆ released => order_endOp ((has₅.go released).locked (only_diff ip))
      refine follows_bind ?_
      split_ifs with truncate
      · refine order_ask rfl ⟨full₄, .inr ⟨d.type, stored.keep _ type₃ nofun, ?_⟩⟩ fun _ k₅ emptied =>
          finish k₅ (has₄.go emptied) (emptied.learn _ (.inl rfl))
        rw [truncate.2]
        decide
      · exact finish k₄ has₄ full₄

section

variable (has : k.AtRest)

include has

theorem order_open (path : Path) (omode : BitVec 32) : Rests (openPath path omode) k := by
  unfold openPath
  by_cases creates : omode &&& O_CREATE ≠ 0
  · simp only [if_pos creates]
    refine order_next rfl trivial fun _ k₁ began => ?_
    refine follows_bind ?_
    refine order_create (has.go began) (by decide) (fun k₂ rest => order_endOp rest) fun ip k₂ has₂ full typed =>
      order_openFile has₂ full omode fun _ => ?_
    obtain ⟨kind, known, other⟩ := typed
    exact ⟨kind, known, other (by decide)⟩
  · simp only [if_neg creates]
    refine order_lockPath has path fun ip k₁ has₁ locked => ?_
    refine order_next rfl trivial fun d k₂ ⟨_, _, read⟩ => ?_
    have full := read.keep _ locked trivial
    split_ifs with bad
    · exact order_leave (has₁.go read) full
    · refine order_openFile (has₁.go read) full omode fun writable => ⟨d.type, read.learn _ ⟨locked, rfl⟩, fun dir => ?_⟩
      have plain : omode = 0 := not_not.mp fun other => bad ⟨dir, other⟩
      subst plain
      exact absurd writable (by decide)

theorem order_makeNode (path : Option Path) (type major minor : Int) (typed : type ≠ 0) :
    Rests (makeNode path type major minor) k := by
  refine order_next rfl trivial fun _ k₁ began => ?_
  cases path with
  | none => exact order_endOp (has.go began)
  | some path =>
    refine follows_bind ?_
    exact order_create (has.go began) typed (fun k₂ rest => order_endOp rest) fun ip k₂ has₂ full _ =>
      order_leave has₂ full

theorem order_chdir (path : Option Path) : Rests (sysChdir path) k := by
  cases path with
  | none =>
    exact order_next rfl trivial fun _ k₁ began => order_endOp (has.go began)
  | some path =>
    refine order_lockPath has path fun ip k₃ has₃ locked => ?_
    refine order_next rfl trivial fun d k₄ ⟨_, _, read⟩ => ?_
    have has₄ := has₃.go read
    have full := read.keep _ locked trivial
    split_ifs with file
    · exact order_leave has₄ full
    refine follows_bind ?_
    refine order_iunlock full fun k₅ released => ?_
    have has₅ := (has₄.go released).locked (only_diff ip)
    refine order_next rfl trivial fun c k₆ ⟨here, asked⟩ => ?_
    have has₆ := has₅.go asked
    have here₆ : k₆.cwd = some c := asked.cwd.trans here
    refine follows_bind ?_
    refine order_iput (has₆.cwd (mine_nonneg ip) c here₆) ?_ fun k₇ dropped => ?_
    · rw [has₆.2]
      exact False.elim
    refine order_next rfl trivial fun _ k₈ ended => ?_
    refine order_next rfl trivial fun _ k₉ ⟨refs, cwd, locks, _⟩ => ⟨?_, ?_⟩
    · rw [refs, ended.refs, id, dropped.refs, has₆.1, here₆, cwd, home, home, add_sub_cancel_left, add_zero]
    · rw [locks, ended.locks, id, dropped.locks]
      exact has₆.2

theorem order_exec (path : Path) (loads commits : Bool) : Rests (exec path loads commits) k := by
  refine order_lockPath has path fun ip k₁ has₁ full => ?_
  cases loads with
  | true | false => exact order_leave has₁ full

theorem order_closeAtRest (next : ∀ k', k'.AtRest → Q () k') : Obeys Q (fileclose f) k := by
  refine order_fileclose (fun e => has.least e) ?_ fun k₁ closed => next k₁ (has.go closed)
  rw [Know.Tidy, has.2]
  exact fun _ => False.elim

theorem order_close (fd : Int) : Rests (sysClose fd) k := by
  refine follows_bind ?_
  refine order_argfd fun found k₁ read => ?_
  cases found with
  | none => exact has.go read
  | some found =>
    refine order_next rfl trivial fun _ k₂ stored => ?_
    refine follows_bind ?_
    exact order_closeAtRest ((has.go read).go stored) fun k₃ rest => rest

theorem order_dup (fd : Int) : Rests (sysDup fd) k := by
  refine follows_bind ?_
  refine order_argfd fun found k₁ read => ?_
  cases found with
  | none => exact has.go read
  | some found =>
    refine follows_bind ?_
    refine order_fdalloc _ fun new k₂ searched => ?_
    have has₂ := (has.go read).go searched
    cases new with
    | none => exact has₂
    | some new =>
      exact order_next rfl trivial fun _ k₃ doubled => has₂.go doubled

theorem order_pipealloc {page : Option Page} {Q : Option (FileId × FileId) → Know → Prop}
    (next : ∀ found k', k'.AtRest → Q found k') : Obeys Q (pipealloc page) k := by
  refine order_next rfl trivial fun f0 k₁ first => ?_
  have has₁ := has.go first
  cases f0 with
  | none => exact next none k₁ has₁
  | some f0 =>
    refine order_next rfl trivial fun f1 k₂ second => ?_
    have has₂ := has₁.go second
    cases f1 with
    | none =>
      refine follows_bind ?_
      exact order_closeAtRest has₂ fun k₃ rest => next none k₃ rest
    | some f1 =>
      refine order_next rfl trivial fun pi k₃ made => ?_
      have has₃ := has₂.go made
      cases pi with
      | none =>
        refine follows_bind ?_
        refine order_closeAtRest has₃ fun k₄ rest => ?_
        refine follows_bind ?_
        exact order_closeAtRest rest fun k₅ rest => next none k₅ rest
      | some pi =>
        refine order_next rfl trivial fun _ k₄ stored => ?_
        exact order_next rfl trivial fun _ k₅ stored' => next _ k₅ ((has₃.go stored).go stored')

theorem order_pipeBad (rf wf : FileId) : Rests (pipeBad rf wf) k := by
  refine follows_bind ?_
  refine order_closeAtRest has fun k₁ rest => ?_
  refine follows_bind ?_
  exact order_closeAtRest rest fun k₂ rest => rest

theorem order_pipe (page : Option Page) (copied : Bool) : Rests (sysPipe page copied) k := by
  refine follows_bind ?_
  refine order_pipealloc has fun found k₁ has₁ => ?_
  cases found with
  | none => exact has₁
  | some found =>
    refine follows_bind ?_
    refine order_fdalloc _ fun fd0 k₂ searched => ?_
    have has₂ := has₁.go searched
    cases fd0 with
    | none => exact order_pipeBad has₂ found.1 found.2
    | some fd0 =>
      refine follows_bind ?_
      refine order_fdalloc _ fun fd1 k₃ searched' => ?_
      have has₃ := has₂.go searched'
      cases fd1 with
      | none =>
        exact order_next rfl trivial fun _ k₄ cleared => order_pipeBad (has₃.go cleared) found.1 found.2
      | some fd1 =>
        cases copied with
        | true => exact has₃
        | false =>
          refine order_next rfl trivial fun _ k₄ cleared => ?_
          refine order_next rfl trivial fun _ k₅ cleared' => ?_
          exact order_pipeBad ((has₃.go cleared).go cleared') found.1 found.2

end

theorem order_dupFiles {np : Slot} (has : k.AtRest) (next : ∀ k', k'.AtRest → Q () k') : Obeys Q (dupFiles np fds) k := by
  induction fds generalizing k with
  | nil => exact next k has
  | cons fd rest ih =>
    exact order_next rfl trivial fun _ k₁ copied => ih (has.go copied)

theorem order_fork (has : k.AtRest) (np : Option Slot) (copied : Bool) : Rests (fork np copied) k := by
  refine order_next rfl trivial fun np k₁ allocated => ?_
  have has₁ := has.go allocated
  cases np with
  | none => exact has₁
  | some np =>
    cases copied with
    | false =>
      exact order_next rfl trivial fun _ k₂ freed => has₁.go freed
    | true =>
      refine follows_bind ?_
      refine order_dupFiles _ has₁ fun k₂ has₂ => ?_
      refine order_next rfl (has₂.cwd fun _ => Int.le_refl 0) fun _ k₃ doubled => ?_
      exact order_next rfl trivial fun _ k₄ started => (has₂.go doubled).go started

theorem order_closeFiles (has : k.AtRest) (next : ∀ k', k'.AtRest → Q () k') : Obeys Q (closeFiles fds) k := by
  induction fds generalizing k with
  | nil => exact next k has
  | cons fd rest ih =>
    refine order_next rfl trivial fun found k₁ read => ?_
    cases found with
    | none => exact ih (has.go read)
    | some f =>
      refine follows_bind ?_
      refine order_closeAtRest (has.go read) fun k₂ rested => ?_
      exact order_next rfl trivial fun _ k₃ stored => ih (rested.go stored)

theorem order_exit (has : k.AtRest) (self : Slot) : Rests (exit self) k := by
  unfold exit
  split_ifs with init
  · exact order_panic _
  refine follows_bind ?_
  refine order_closeFiles _ has fun k₁ has₁ => ?_
  refine order_next rfl trivial fun _ k₂ began => ?_
  refine order_next rfl trivial fun c k₃ ⟨here, asked⟩ => ?_
  have has₃ := (has₁.go began).go asked
  have here₃ : k₃.cwd = some c := asked.cwd.trans here
  refine follows_bind ?_
  refine order_iput (has₃.cwd (fun _ => Int.le_refl 0) c here₃) ?_ fun k₄ dropped => ?_
  · rw [has₃.2]
    exact False.elim
  refine order_next rfl trivial fun _ k₅ ended => ?_
  refine order_next rfl trivial fun _ k₆ ⟨refs, cwd, locks, _⟩ => ?_
  refine follows_bind ?_
  have has₆ : k₆.AtRest := by
    refine ⟨?_, ?_⟩
    · rw [refs, ended.refs, id, dropped.refs, has₃.1, here₃, cwd, home, home, add_zero, sub_self, add_zero]
    · rw [locks, ended.locks, id, dropped.locks]
      exact has₃.2
  exact order_ask rfl trivial fun _ k₇ zombie => has₆.go zombie

/-! ## Reads and writes -/

abbrev Order.all : Contract (Sum.elim Answer IoAnswer) Stage := Order.contract.sum Order.contractIo

theorem order_io {q : Io} {Q : IoAnswer q → Know → Prop} (asked : Order.preIo k q)
    (next : ∀ x k', Order.postIo q k x k' → Q x k') : Follows Order.all Q (io q) k := by
  refine ⟨asked, ?_⟩
  rintro x stage ⟨k', kept, rfl⟩
  exact next x k' kept

theorem order_setOff {off : Nat} {c : Prop} [Decidable c] (next : ∀ k', (k.Learns k' fun _ => False) → Q () k') :
    Follows Order.all Q (if c then io (.setOff f off) else pure ()) k := by
  split_ifs
  · exact order_io trivial fun _ k₁ stored => next k₁ stored
  · exact next k (.refl k)

theorem order_transfer {allowed : Bool} {why : Panic} {inode : IoOp Int} (has : k.AtRest) (ff : File) (r : Int)
    (next : allowed = true → ff.type = .inode → Follows Order.all (fun _ => Know.AtRest) inode k) :
    Follows Order.all (fun _ => Know.AtRest) (transfer ff allowed r why inode) k := by
  unfold transfer
  by_cases shut : allowed = false
  · rw [if_pos shut]
    exact has
  rw [if_neg shut]
  cases type : ff.type with
  | none => exact Safe.left (order_panic _)
  | pipe => exact has
  | device =>
    split_ifs <;> exact has
  | inode => exact next (Bool.eq_true_of_not_eq_false shut) type

theorem order_fileread (has : k.AtRest) (f : FileId) (r : Int) :
    Follows Order.all (fun _ => Know.AtRest) (fileread f r) k := by
  refine follows_bind ?_
  refine order_io trivial fun ff k₁ ⟨kind, plain, read⟩ => ?_
  have has₁ := has.go read
  refine order_transfer has₁ ff r fun _ type => follows_bind ?_
  refine Safe.left (order_ilock (.inr ⟨f, read.learn _ ⟨.inl type, .inl rfl⟩⟩) (may_unlocked has₁.2 ff.ip) fun k₂ _ locked => ?_)
  have has₂ := (has₁.go locked).locked (insert_empty_eq ff.ip)
  refine follows_bind ?_
  refine order_io trivial fun now k₃ ⟨_, _, again⟩ => ?_
  refine follows_bind ?_
  refine order_setOff fun k₄ stored => ?_
  refine follows_bind ?_
  have full := stored.keep _ (again.keep _ (locked.learn _ rfl) trivial) trivial
  refine Safe.left (order_iunlock full fun k₅ released => ?_)
  exact (((has₂.go again).go stored).go released).locked (only_diff ff.ip)

theorem order_filewriteFrom {n : Int} {chunk : Nat → Chunk} {Q : Nat → Know → Prop} (fuel i : Nat) {kind : Int}
    (has : k.AtRest) (known : k.knows (.file f ip) ∧ k.knows (.type ip kind)) (plain : kind ≠ T_DIR)
    (next : ∀ i k', k'.AtRest → Q i k') : Follows Order.all Q (filewriteFrom f ip n chunk fuel i) k := by
  induction fuel generalizing k i with
  | zero => exact next i k has
  | succ fuel ih =>
    unfold filewriteFrom
    split_ifs with more
    · refine follows_bind ?_
      refine Safe.left (order_ask rfl trivial fun _ k₁ began => ?_)
      have known₁ := known.imp (began.keep _ · trivial) (began.keep _ · trivial)
      refine follows_bind ?_
      refine Safe.left (order_ilock (.inr ⟨f, known₁.1⟩) (may_unlocked (has.go began).2 ip) fun k₂ _ locked => ?_)
      have has₂ := ((has.go began).go locked).locked (insert_empty_eq ip)
      refine follows_bind ?_
      refine order_io trivial fun ff k₃ found => ?_
      obtain ⟨_, _, read⟩ := found
      have full := read.keep _ (locked.learn _ rfl) trivial
      have before := locked.trans read
      have file₃ := before.keep _ known₁.1 ⟨.inr trivial, trivial⟩
      have kind₃ := before.keep _ known₁.2 ⟨.inr trivial, trivial⟩
      refine follows_bind ?_
      refine order_io ⟨full, kind, kind₃, plain⟩ fun r k₄ written => ?_
      refine follows_bind ?_
      refine order_setOff fun k₅ stored => ?_
      have has₅ := ((has₂.go read).go written).go stored
      refine follows_bind ?_
      refine Safe.left (order_iunlock (stored.keep _ (written.learn _ rfl) trivial) fun k₆ released => ?_)
      have has₆ := (has₅.go released).locked (only_diff ip)
      refine follows_bind ?_
      refine Safe.left (order_ask rfl trivial fun _ k₇ ended => ?_)
      split_ifs with short
      · exact next i k₇ (has₆.go ended)
      · have after := (written.trans stored).trans (released.trans ended)
        refine ih _ (has₆.go ended) ⟨after.keep _ file₃ ?_, after.keep _ kind₃ ?_⟩
        · exact ⟨⟨.inr trivial, trivial⟩, .inr trivial, trivial⟩
        · exact ⟨⟨.inr trivial, trivial⟩, .inr trivial, trivial⟩
    · exact next i k has

theorem order_filewrite (has : k.AtRest) (f : FileId) (n r : Int) (chunk : Nat → Chunk) :
    Follows Order.all (fun _ => Know.AtRest) (filewrite f n r chunk) k := by
  refine follows_bind ?_
  refine order_io trivial fun ff k₁ ⟨kind, plain, read⟩ => ?_
  have has₁ := has.go read
  refine order_transfer has₁ ff r fun allowed type => follows_bind ?_
  have known := And.intro (read.learn _ ⟨.inl type, .inl rfl⟩) (read.learn _ ⟨.inl type, .inr rfl⟩)
  exact order_filewriteFrom _ _ has₁ known (plain allowed) fun i k₂ rest => rest

/-! ## Every call -/

theorem order_syscall (has : k.AtRest) (self : Slot) (c : Call) : Rests (syscall self c) k := by
  cases c with
  | sysOpen path omode =>
    cases path with
    | none => exact has
    | some path => exact order_open has path omode
  | sysLink old new =>
    cases old with
    | none => exact has
    | some old =>
      cases new with
      | none => exact has
      | some new => exact order_link has old new
  | sysUnlink path =>
    cases path with
    | none => exact has
    | some path => exact order_unlink has path
  | sysMkdir path | sysMknod path major minor => exact order_makeNode has path _ _ _ (by decide)
  | sysChdir path => exact order_chdir has path
  | sysExec path loads commits =>
    cases path with
    | none => exact has
    | some path => exact order_exec has path loads commits
  | sysClose fd => exact order_close has fd
  | sysDup fd => exact order_dup has fd
  | sysPipe page copied => exact order_pipe has page copied
  | fork np copied => exact order_fork has np copied
  | exit => exact order_exit has self

theorem order_fsProgram (has : k.AtRest) (self : Slot) (c : FsCall) :
    Follows Order.all (fun _ => Know.AtRest) (fsProgram self c) k := by
  cases c with
  | call c => exact Safe.left (order_syscall has self c)
  | sysRead fd r =>
    refine follows_bind ?_
    refine Safe.left (order_argfd fun found k₁ read => ?_)
    cases found with
    | none => exact has.go read
    | some found => exact order_fileread (has.go read) found.2 r
  | sysWrite fd n r chunk =>
    refine follows_bind ?_
    refine Safe.left (order_argfd fun found k₁ read => ?_)
    cases found with
    | none => exact has.go read
    | some found => exact order_filewrite (has.go read) found.2 n r chunk

end

end Xv6.Fs
