import Xv6.Fs.Accounts
import Xv6.Fs.Creation

namespace Xv6.Fs
open Lib Function

/-! ## Calls that return -1 -/

/-- A state of the file system between calls. -/
structure Consistent (s : State) : Prop extends Base s where
  closed : ∀ f, (s.file f).ref = 0 → (s.file f).type = .none
  fits : ∀ x, short (s.disk x).nlink = (s.disk x).nlink

section
variable {p : Slot} {b s t : State} {e dp ip : Entry} {Q : Entry → State → Prop} {name : Name}

def Failing (b : State) (r : Int) (t : State) : Prop := r = -1 → Reads b t 0

theorem Reads.outstanding {h : Entry → Int} (reads : Reads b s h) (n : Int) : Reads b { s with outstanding := n } h :=
  ⟨reads.toHolds.outstanding n, reads.disk, reads.slots⟩

theorem does_giveUp (reads : Reads b s 0) : Does p (Failing b) (do ask .endOp; pure (-1)) s :=
  does_next rfl fun _ => reads.outstanding _

theorem Base.leaves (base : Base b) (here : At b s e) : Does p (Failing b) (do iunlockput e; ask .endOp; pure (-1)) s :=
  (base.unlockPutAt here).bind fun _ _ reads => does_giveUp reads

theorem Base.lockPath (base : Base b) (reads : Reads b s 0) (path : Path) {rest : Entry → Op Int}
    (next : ∀ ip u, At b u ip → (u.table ip).copy = b.disk (u.table ip).inum → (u.table ip).copy.type ≠ 0 →
      Does p (Failing b) (rest ip) u) :
    Does p (Failing b) (do
      match ← namei path with
      | none => do ask .endOp; pure (-1)
      | some ip => do ilock ip; rest ip) s := by
  unfold namei
  rw [does_bind, does_bind]
  refine Does.mono (base.walk reads path false) fun found t after => ?_
  cases found with
  | none => exact does_giveUp after.2
  | some found => exact after.2.1.ilock fun u here copy typed _ => next found.1 u here copy typed

theorem does_succeed {α : Type} {P : Int → State → Prop} (m : Op α) {f : α → Op Int}
    (rest : ∀ a t, Does p P (f a) t) : Does p P (m >>= f) s :=
  (does_anything m s).bind fun a t _ => rest a t

theorem failing_nonneg {r : Int} (nonneg : 0 ≤ r) : Failing b r t := by
  rintro rfl
  cases nonneg

/-! ### `sys_open` -/

theorem does_fdallocFrom {f : FileId} {Q : Option Fd → State → Prop} (full : Q none s) (found : ∀ fd t, Q (some fd) t)
    (fds : List Fd) : Does p Q (fdallocFrom f fds) s := by
  induction fds with
  | nil => exact full
  | cons fd rest ih =>
    refine does_next rfl ?_
    cases slot : (s.proc p).ofile fd with
    | none => exact does_next rfl (found fd _)
    | some _ => exact ih

theorem does_fileclose_new {f : FileId} {Q : Unit → State → Prop} (free : (s.file f).ref = 0)
    (closed : (s.file f).type = .none) (after : Q () s) :
    Does p Q (fileclose f) (s.setFile f { s.file f with ref := 1 }) := by
  have last : (s.setFile f { s.file f with ref := 1 }).fileclose f = .ok (some { s.file f with ref := 1 }, s) := by
    have again : update (update s.file f { s.file f with ref := 1 }) f (s.file f) = s.file := by
      rw [update_idem, update_eq_self]
    have same : { s.file f with type := .none, ref := 0 } = s.file f := by
      rw [← closed, ← free]
    simp only [State.fileclose, State.setFile, update_self]
    simp [same, again]
  refine does_next last ?_
  dsimp only
  rw [closed]
  exact after

theorem does_openFile {P : Int → State → Prop} (closed : ∀ f, (s.file f).ref = 0 → (s.file f).type = .none)
    (leaves : Does p P (do iunlockput e; ask .endOp; pure (-1)) s) (opened : ∀ r t, 0 ≤ r → P r t) (omode : BitVec 32) :
    Does p P (openFile e omode) s := by
  refine does_next rfl ?_
  by_cases device : (s.table e).copy.type = T_DEVICE ∧ ((s.table e).copy.major < 0 ∨ (s.table e).copy.major ≥ NDEV)
  · rw [if_pos device]
    exact leaves
  rw [if_neg device]
  rcases filealloc_cases s with full | ⟨f, unused, new⟩
  · exact does_next (congrArg Except.ok full) leaves
  refine does_next (congrArg Except.ok new) ?_
  rw [does_bind]
  refine does_fdallocFrom ?_ (fun fd t => ?_) _
  · rw [does_bind]
    exact does_fileclose_new unused (closed f unused) leaves
  · refine does_succeed _ fun _ _ => does_succeed _ fun _ _ => does_succeed _ fun _ _ =>
      does_succeed _ fun _ _ => opened _ _ ?_
    exact Int.natCast_nonneg _

theorem Base.opens (base : Base b) (closed : ∀ f, (b.file f).ref = 0 → (b.file f).type = .none)
    (here : At b s e) (omode : BitVec 32) : Does p (Failing b) (openFile e omode) s := by
  rw [← here.file] at closed
  exact does_openFile closed (base.leaves here) (fun _ _ => failing_nonneg) omode

theorem Made.opens {x : Nat} (made : Made b x e s)
    (closed : ∀ f, (b.file f).ref = 0 → (b.file f).type = .none) (omode : BitVec 32) :
    Does p (fun r t => r = -1 → t.disk ≠ b.disk) (openFile e omode) s := by
  rw [← made.file] at closed
  refine does_openFile closed ?_ (fun r t nonneg => ?_) omode
  · rw [does_bind]
    refine does_iunlockput_kept (fun last => made.linked last.2.2) (does_next rfl fun _ same => made.there ?_)
    rw [← made.absent, ← same]
    rfl
  · rintro rfl
    cases nonneg

/-! ### `create` -/

/-- The path leads to a directory that lacks its last name. -/
def State.lacks (b : State) (p : Slot) (path : Path) : Prop :=
  ∃ d name, b.seek p path true = some (d, name) ∧ b.lookup d name = none

def Created (b : State) (lacking : Prop) (N : Entry → State → Prop) : Option Entry → State → Prop
  | none, t => ¬ lacking ∧ Reads b t 0
  | some e, t => ¬ lacking ∧ At b t e ∨ lacking ∧ N e t

theorem Base.creates {N : Entry → State → Prop} {type major minor : Int} (base : Base b)
    (new : ∀ dp name s, At b s dp → (b.disk (s.table dp).inum).type = T_DIR →
      Does p N (createNew dp name type major minor) s) (reads : Reads b s 0) (path : Path) :
    Does p (Created b (b.lacks p path) N) (create path type major minor) s := by
  refine Does.bind (base.walk reads path true) fun found t after => ?_
  cases found with
  | none =>
    refine ⟨?_, after.2⟩
    rintro ⟨d, name, answer, -⟩
    rw [after.1] at answer
    cases answer
  | some found =>
    obtain ⟨dp, name⟩ := found
    rw [does_bind]
    refine after.2.1.ilock fun u here copy _ same => ?_
    rw [does_bind]
    refine does_dirlookup (fun type missing => ?_) fun i ip v type range names first taken => ?_
    · rw [copy] at type
      refine (new dp name u here type).bind fun ip t made => .inr ⟨⟨_, name, after.1, ?_⟩, made⟩
      rw [← same]
      exact here.lookup_none copy missing
    · have present : ¬ b.lacks p path := by
        rintro ⟨d, name', answer, none⟩
        rw [after.1] at answer
        cases answer
        rw [← same, here.lookup_some copy range names first] at none
        cases none
      refine (base.down (here.below copy type range names taken)).bind fun _ x after => ?_
      refine after.1.ilock fun y here _ _ _ => ?_
      refine does_next rfl ?_
      split_ifs with usable
      · exact .inl ⟨present, here⟩
      · exact (base.unlockPutAt here).bind fun _ _ reads => ⟨present, reads⟩

/-! ### `sys_unlink` -/

variable {Q : Bool → State → Prop}

theorem does_fullDirectory (after : ∀ full, Q full s) : Does p Q (fullDirectory ip) s := by
  refine does_next rfl ?_
  split_ifs
  · refine (does_bind _ _).mpr (does_next rfl ((does_scanFrom _ 2).bind ?_))
    rintro ⟨de, -⟩ t rfl
    exact after !de.isNone
  · exact after false

theorem does_unlinkEntry (off : Nat) : Does p (Failing b) (unlinkEntry dp ip off) s := by
  refine does_succeed _ fun written t => ?_
  split_ifs
  · exact does_succeed _ fun _ _ => does_succeed _ fun _ _ => does_succeed _ fun _ _ =>
      does_succeed _ fun _ _ => does_succeed _ fun _ _ => failing_nonneg (Int.le_refl 0)
  · exact does_panic

theorem Base.unlinks (base : Base b) (reads : Reads b s 0) (path : Path) : Does p (Failing b) (unlink path) s := by
  refine does_next rfl ?_
  refine Does.bind (base.walk (reads.outstanding _) path true) fun found t after => ?_
  cases found with
  | none => exact does_giveUp after.2
  | some found =>
    obtain ⟨dp, name⟩ := found
    rw [does_bind]
    refine after.2.1.ilock fun u here copy _ _ => ?_
    split_ifs with dots
    · exact base.leaves here
    rw [does_bind]
    refine does_dirlookup (fun _ _ => base.leaves here) fun i ip v type range names _ taken => ?_
    have below := here.below copy type range names taken
    refine below.toReads.ilock fun x reads same _ _ => ?_
    refine does_next rfl ?_
    split_ifs with unlinked
    · exact does_panic
    rw [does_bind]
    refine does_fullDirectory fun full => ?_
    split_ifs
    · refine Does.bind (base.up ⟨reads, ?_, ?_⟩) fun _ y here => base.leaves here
      · rw [same]
        exact below.upper
      · rw [same]
        exact below.lower
    · exact does_unlinkEntry _

/-! ### `sys_link` -/

theorem does_addLinks {n : Int} {Q : Unit → State → Prop}
    (after : Q () (s.update e { (s.table e).copy with nlink := short ((s.table e).copy.nlink + n) })) :
    Does p Q (addLinks e n) s :=
  does_next rfl (does_next rfl (does_ok rfl after))

theorem Reach.back {x : Nat} (reach : Reach t x) (slots : t.slots = b.slots)
    (disk : ∀ d, (t.disk d).type = (b.disk d).type ∧ (t.disk d).size = (b.disk d).size)
    (entries : ∀ e, 0 < (t.table e).ref → Reach b (t.table e).inum) : Reach b x := by
  induction reach with
  | root => exact .root
  | entry e used => exact entries e used
  | slot up type range filled ih =>
    rw [(disk _).1] at type
    rw [(disk _).2] at range
    rw [slots] at filled ⊢
    exact .slot ih type range filled

theorem short_back {n : Int} (fits : short n = n) : short (short (n + 1) + -1) = n := by
  simp only [short, Int.bmod] at fits ⊢
  omega

def moreLinks (d : Dinode) (n : Int) : Dinode := { d with nlink := short (d.nlink + n) }

theorem At.linked_base (here : At b s ip) (consistent : Consistent b)
    (copy : (s.table ip).copy = b.disk (s.table ip).inum) (typed : (s.table ip).copy.type ≠ 0) :
    Base (s.update ip (moreLinks (s.table ip).copy 1)) := by
  have same (d : Nat) : ((s.update ip (moreLinks (s.table ip).copy 1)).disk d).type = (b.disk d).type ∧
      ((s.update ip (moreLinks (s.table ip).copy 1)).disk d).size = (b.disk d).size ∧
      (d ≠ (s.table ip).inum → (s.update ip (moreLinks (s.table ip).copy 1)).disk d = b.disk d) := by
    rw [update_disk, update_apply, here.disk]
    split_ifs with this
    · rw [this, ← copy]
      exact ⟨rfl, rfl, fun other => absurd rfl other⟩
    · exact ⟨rfl, rfl, fun _ => rfl⟩
  have used (e : Entry) (based : 0 < (b.table e).ref) : 0 < (s.table e).ref := by
    rw [here.refs e]
    have := mine_nonneg ip e
    omega
  refine ⟨here.cache.update here.used typed, ?_, ?_⟩
  · intro x reach type unlinked
    by_cases this : x = (s.table ip).inum
    · refine ⟨ip, ?_, ?_⟩
      · rw [update_ref]
        exact here.used
      · rw [update_inum, this]
    · have back : Reach b x := by
        refine reach.back here.slots (fun d => ⟨(same d).1, (same d).2.1⟩) fun e used' => ?_
        rw [update_ref, here.refs e] at used'
        rw [update_inum]
        by_cases mine : e = ip
        · rw [mine]
          exact here.reach
        · rw [mine_other mine, add_zero] at used'
          rw [here.kept e used']
          exact .entry e used'
      rw [(same x).2.2 this] at type unlinked
      obtain ⟨e, based, found⟩ := consistent.pinned x back type unlinked
      refine ⟨e, ?_, ?_⟩
      · rw [update_ref]
        exact used e based
      · rw [update_inum, here.kept e based, found]
  · intro p e cwd
    rw [update_ref]
    refine used e (consistent.cwd p e ?_)
    rw [← here.proc]
    exact cwd

theorem Consistent.undoes (consistent : Consistent b) (here : At b s ip)
    (copy : (s.table ip).copy = b.disk (s.table ip).inum) (typed : (s.table ip).copy.type ≠ 0)
    (reads : Reads (s.update ip (moreLinks (s.table ip).copy 1)) t 0) : Does p (Failing b) (linkBad ip) t := by
  have held : 0 < ((s.update ip (moreLinks (s.table ip).copy 1)).table ip).ref := by
    rw [update_ref]
    exact here.used
  have there : (t.table ip).inum = (s.table ip).inum := by
    rw [reads.kept ip held, update_inum]
  refine reads.ilock fun u reads same _ found => ?_
  rw [update_disk, there, update_self] at found
  refine does_addLinks ?_
  have before : { (u.table ip).copy with nlink := short ((u.table ip).copy.nlink + -1) } = b.disk (s.table ip).inum := by
    rw [found, copy]
    dsimp only [moreLinks]
    rw [short_back (consistent.fits _)]
  rw [before]
  refine consistent.toBase.leaves ⟨⟨?_, ?_, ?_⟩, ?_⟩
  · have holds := (here.toHolds.update (d := moreLinks (s.table ip).copy 1) here.used typed).trans reads.toHolds
    rw [add_zero] at holds
    refine holds.update (holds.positive (mine_held ip)) ?_
    rw [← copy]
    exact typed
  · rw [update_disk, same, there, reads.disk, update_disk, update_idem, here.disk, update_eq_self]
  · exact reads.slots.trans here.slots
  · rw [update_inum, same, there]
    exact here.reach

theorem Base.adds (base : Base b) {inum : Nat} (here : At b s dp) (copy : (s.table dp).copy = b.disk (s.table dp).inum) :
    Does p (fun r t => r < 0 → At b t dp) (dirlink dp name inum) s := by
  unfold dirlink
  rw [does_bind]
  refine does_dirlookup (fun _ _ => ?_) fun i ip t type range names _ taken => ?_
  · refine (does_anything _ _).bind fun _ _ _ => (does_anything _ _).bind fun _ _ _ =>
      (does_anything _ _).bind fun written t _ => ?_
    split_ifs
    · exact fun negative => absurd negative (by decide)
    · exact does_panic
  · have below := here.below copy type range names taken
    refine (base.put below.toReads (below_held dp ip).2 below.lower).bind fun _ u after => ?_
    intro _
    refine ⟨?_, ?_⟩
    · rw [← add_sub_cancel_right (mine dp) (mine ip)]
      exact after.1
    · rw [after.2]
      exact below.upper

theorem Consistent.links (consistent : Consistent b) (reads : Reads b s 0) (old new : Path) :
    Does p (Failing b) (link old new) s := by
  have base := consistent.toBase
  refine does_next rfl (base.lockPath (reads.outstanding _) old fun ip u here copy typed => does_next rfl ?_)
  split_ifs with directory
  · exact base.leaves here
  rw [does_bind]
  refine does_addLinks ?_
  have linked := here.linked_base consistent copy typed
  have undo (t : State) (reads : Reads (u.update ip (moreLinks (u.table ip).copy 1)) t 0) :
      Does p (Failing b) (linkBad ip) t := consistent.undoes here copy typed reads
  rw [does_bind]
  refine does_iunlock ?_
  refine Does.bind (linked.walk ((Reads.refl linked.cache).lock none) new true) fun found t after => ?_
  cases found with
  | none => exact undo t after.2
  | some found =>
    obtain ⟨dp, name⟩ := found
    refine after.2.1.ilock fun v here copy _ _ => ?_
    refine does_next rfl ?_
    refine (linked.adds here copy).bind fun r x after => ?_
    split_ifs with failed
    · exact (linked.unlockPutAt (after failed)).bind fun _ y reads => undo y reads
    · exact does_succeed _ fun _ _ => does_succeed _ fun _ _ => does_succeed _ fun _ _ => failing_nonneg (Int.le_refl 0)

/-! ### The calls -/

theorem Base.makes (base : Base b) (reads : Reads b s 0) (path : Option Path)
    (type major minor : Int) : Does p (Failing b) (makeNode path type major minor) s := by
  refine does_next rfl ?_
  cases path with
  | none => exact does_giveUp (reads.outstanding _)
  | some path =>
    refine Does.bind (base.creates (N := fun _ _ => True) (fun _ _ _ _ _ => does_anything _ _)
      (reads.outstanding _) path) fun found t after => ?_
    cases found with
    | none => exact does_giveUp after.2
    | some ip =>
      exact does_succeed _ fun _ _ => does_succeed _ fun _ _ => failing_nonneg (Int.le_refl 0)

theorem Base.changes (base : Base b) (reads : Reads b s 0) (path : Option Path) :
    Does p (Failing b) (sysChdir path) s := by
  refine does_next rfl ?_
  cases path with
  | none => exact does_giveUp (reads.outstanding _)
  | some path =>
    refine base.lockPath (reads.outstanding _) path fun ip u here _ _ => does_next rfl ?_
    split_ifs with directory
    · exact base.leaves here
    · exact does_succeed _ fun _ _ => does_succeed _ fun _ _ => does_succeed _ fun _ _ =>
        does_succeed _ fun _ _ => does_succeed _ fun _ _ => failing_nonneg (Int.le_refl 0)

/-- A failing open has changed the disk if it was to make the file, and nothing otherwise. -/
def FailsOpen (b : State) (making : Prop) (r : Int) (t : State) : Prop :=
  r = -1 → (making → t.disk ≠ b.disk) ∧ (¬ making → Reads b t 0)

theorem Consistent.opens (consistent : Consistent b) (reads : Reads b s 0) (path : Path) (omode : BitVec 32) :
    Does p (FailsOpen b (omode &&& O_CREATE ≠ 0 ∧ b.lacks p path)) (openPath path omode) s := by
  have base := consistent.toBase
  have keeps {m : Op Int} {u : State} {making : Prop} (not : ¬ making) (fails : Does p (Failing b) m u) :
      Does p (FailsOpen b making) m u :=
    fails.mono fun r t reads failed => ⟨fun made => absurd made not, fun _ => reads failed⟩
  refine does_next rfl ?_
  split_ifs with creates
  · refine Does.bind (base.creates (N := fun e t => ∃ x, Made b x e t) (fun dp name s here dir => ?_)
      (reads.outstanding _) path) fun found t after => ?_
    · exact here.createNew (by rw [dir]; decide) (by decide) (by decide) 0 0
    cases found with
    | none => exact keeps (fun making => after.1 making.2) (does_giveUp after.2)
    | some ip =>
      rcases after with ⟨present, here⟩ | ⟨lacking, x, made⟩
      · exact keeps (fun making => present making.2) (base.opens consistent.closed here omode)
      · refine (made.opens consistent.closed omode).mono fun r t changed failed => ?_
        exact ⟨fun _ => changed failed, fun present => absurd ⟨creates, lacking⟩ present⟩
  · refine keeps (fun making => creates making.1) (base.lockPath (reads.outstanding _) path fun ip u here _ _ => does_next rfl ?_)
    split_ifs with directory
    · exact base.leaves here
    · exact base.opens consistent.closed here omode

def Call.onNames : Call → Prop
  | .sysOpen .. | .sysLink .. | .sysUnlink _ | .sysMkdir _ | .sysMknod .. | .sysChdir _ => True
  | _ => False

/-- The call is an open that is to make the file: a directory lacks its name. -/
def Call.makes (p : Slot) (s : State) : Call → Prop
  | .sysOpen (some path) omode => omode &&& O_CREATE ≠ 0 ∧ s.lacks p path
  | _ => False

theorem Consistent.fails (consistent : Consistent b) {c : Call} (onNames : c.onNames) :
    Does p (FailsOpen b (c.makes p b)) (syscall p c) b := by
  have base := consistent.toBase
  have reads := Reads.refl consistent.cache
  have keeps {m : Op Int} (fails : Does p (Failing b) m b) : Does p (FailsOpen b False) m b :=
    fails.mono fun r t reads failed => ⟨False.elim, fun _ => reads failed⟩
  have nothing : Does p (FailsOpen b False) (pure (-1)) b := keeps fun _ => reads
  cases c with
  | sysOpen path omode =>
    cases path with
    | none => exact nothing
    | some path => exact consistent.opens reads path omode
  | sysLink old new =>
    cases old with
    | none => exact nothing
    | some old =>
      cases new with
      | none => exact nothing
      | some new => exact keeps (consistent.links reads old new)
  | sysUnlink path =>
    cases path with
    | none => exact nothing
    | some path => exact keeps (base.unlinks reads path)
  | sysMkdir path => exact keeps (base.makes reads path T_DIR 0 0)
  | sysMknod path major minor => exact keeps (base.makes reads path T_DEVICE major minor)
  | sysChdir path => exact keeps (base.changes reads path)
  | _ => exact onNames.elim

/-- A call on names that returns -1 has changed nothing on the disk and nothing of its process, unless
it is an open that was to make the file; such an open has changed the disk. -/
theorem failed_call_unchanged (p : Slot) (c : Call) (consistent : Consistent s) (onNames : c.onNames)
    (failed : ((syscall p c).exec (perform p)).run s = .ok (-1, t)) :
    (t.disk = s.disk ∧ t.slots = s.slots ∧ (t.proc p).cwd = (s.proc p).cwd ∧ (t.proc p).ofile = (s.proc p).ofile ↔
      ¬ c.makes p s) ∧
    (c.makes p s → t.disk ≠ s.disk) := by
  have does := consistent.fails (p := p) onNames
  obtain ⟨changed, kept⟩ := (Goes.exec does).of_run failed rfl
  refine ⟨⟨fun same makes => changed makes same.1, fun spares => ?_⟩, changed⟩
  have reads := kept spares
  exact ⟨reads.disk, reads.slots, by rw [reads.proc], by rw [reads.proc]⟩

/-! ## A file that is left behind -/

theorem consistent_of_first (others : ∀ e, e ≠ 0 → (s.table e).ref = 0) (used : 0 < (s.table 0).ref)
    (copy : (s.table 0).valid → (s.table 0).copy = s.disk (s.table 0).inum ∧ (s.disk (s.table 0).inum).type ≠ 0)
    (linked : ∀ x, (s.disk x).type ≠ 0 → (s.disk x).nlink ≠ 0) (cwd : ∀ p e, (s.proc p).cwd = some e → e = 0)
    (closed : ∀ f, (s.file f).ref = 0 → (s.file f).type = .none) (fits : ∀ x, short (s.disk x).nlink = (s.disk x).nlink) :
    Consistent s := by
  have first (e : Entry) (used : 0 < (s.table e).ref) : e = 0 := by
    by_contra other
    have := others e other
    omega
  refine ⟨⟨⟨?_, ?_, ?_, ?_⟩, ?_, ?_⟩, closed, fits⟩
  · grind
  · intro e e' used used' _
    rw [first e used, first e' used']
  · grind
  · grind
  · exact fun x _ type unlinked => absurd unlinked (linked x type)
  · intro p e found
    rw [cwd p e found]
    exact used

end

def oneFile (inum : Nat) : Dinode :=
  if inum = ROOTINO then ⟨T_DIR, 0, 0, 1, 48⟩ else if inum = 2 then ⟨T_FILE, 0, 0, 1, 0⟩ else ⟨0, 0, 0, 0, 0⟩

def oneFileSlots (d i : Nat) : Dirent := if i = 2 then ⟨2, [102]⟩ else rootSlots d i

def linkNowhere : Call := .sysLink (some [slash, 102]) (some [slash, 110, slash, 103])

theorem failed_call_unchanged_linkNowhere : ∃ t,
    ((syscall initproc linkNowhere).exec (perform initproc)).run (boot 20 oneFile oneFileSlots) = .ok (-1, t) ∧
    t.disk = oneFile := by
  have done : (match ((syscall initproc linkNowhere).exec (perform initproc)).run (boot 20 oneFile oneFileSlots) with
      | .ok (r, _) => some r
      | .error _ => none) = some (-1) := by decide +kernel
  split at done
  · rename_i r t outcome
    cases done
    refine ⟨t, outcome, ((failed_call_unchanged initproc linkNowhere ?_ trivial outcome).1.mpr id).1⟩
    refine consistent_of_first ?_ (by decide) nofun ?_ ?_ (fun _ _ => rfl) ?_
    · intro e other
      simp only [boot, other, if_false]
    · intro x
      simp only [boot, oneFile]
      split_ifs <;> simp
    · grind [boot]
    · intro x
      simp only [boot, oneFile]
      split_ifs <;> rfl
  · cases done

def crowded : State :=
  { boot 20 rootOnly rootSlots with
    table := fun e => if e = 0 then ⟨ROOTINO, 2, true, rootOnly ROOTINO⟩ else ⟨0, 0, false, ⟨0, 0, 0, 0, 0⟩⟩
    file := fun f => if f = 0 then ⟨.inode, 16, true, false, 0, 0, 0, 0⟩ else ⟨.none, 0, false, false, 0, 0, 0, 0⟩
    proc := fun p => if p = initproc then ⟨.runnable, fun _ => some 0, some 0⟩ else ⟨.unused, fun _ => none, none⟩ }

theorem crowded_consistent : Consistent crowded := by
  refine consistent_of_first ?_ (by decide) (fun _ => ⟨rfl, by decide⟩) ?_ ?_ ?_ ?_
  · intro e other
    simp only [crowded, other, if_false]
  · intro x
    simp only [crowded, boot, rootOnly]
    split_ifs <;> simp
  · grind [crowded]
  · grind [crowded]
  · intro x
    simp only [crowded, boot, rootOnly]
    split_ifs <;> rfl

def createFile : Call := .sysOpen (some [slash, 102]) O_CREATE

/-- `open` has created the file before it finds that there is no descriptor. -/
theorem failed_open_creates : Consistent crowded ∧ createFile.onNames ∧ ∃ t,
    ((syscall initproc createFile).exec (perform initproc)).run crowded = .ok (-1, t) ∧
    (crowded.disk 2).type = 0 ∧ t.disk 2 = ⟨T_FILE, 0, 0, 1, 0⟩ ∧
    (crowded.disk ROOTINO).size = 32 ∧ (t.disk ROOTINO).size = 48 ∧ t.slots ROOTINO 2 = ⟨2, [102]⟩ := by
  have done : (match ((syscall initproc createFile).exec (perform initproc)).run crowded with
      | .ok (r, t) => some (r, t.disk 2, (t.disk ROOTINO).size, t.slots ROOTINO 2)
      | .error _ => none) = some (-1, ⟨T_FILE, 0, 0, 1, 0⟩, 48, ⟨2, [102]⟩) := by decide +kernel
  refine ⟨crowded_consistent, trivial, ?_⟩
  split at done
  · rename_i r t outcome
    simp only [Option.some.injEq, Prod.mk.injEq] at done
    obtain ⟨rfl, inode, size, slot⟩ := done
    exact ⟨t, outcome, by decide, inode, by decide, size, slot⟩
  · cases done

end Xv6.Fs
