import Xv6.Fs.Sequential
import Xv6.Fs.Accounts

namespace Xv6.Fs
open Lib

/-! ## What a process knows of inodes

It knows something of an entry only while it has a reference to it, and something about its contents
only while it has its lock. -/

inductive Fact where
  | type (e : Entry) (type : Int) -- the type of the inode
  | inum (e : Entry) (inum : Nat) -- the number of the inode
  | next (e : Entry) (inum : Nat) -- the entry is a directory; if the inode is one too, it is younger
  | sound (e : Entry) -- if the copy is valid, its type is right
  | full (e : Entry) -- the copy is valid and its type is right
  | empty (e : Entry) -- a directory without entries
  | sole (e : Entry) -- the inode is to be freed, and no other process knows its type
  | gone (e : Entry) -- the copy says that the inode is free
  | void (e : Entry) -- the copy is not valid
  | file (f : FileId) (e : Entry) -- an open file of the process has a reference to the entry

namespace Fact

def entry : Fact → Entry
  | type e _ | inum e _ | next e _ | sound e | full e | empty e | sole e | gone e | void e | file _ e => e

def Soft : Fact → Prop
  | type .. | inum .. | next .. | file .. => True
  | _ => False

end Fact

def home : Option Entry → Entry → Int
  | some e => mine e
  | none => 0

structure Know where
  refs : Entry → Int
  cwd : Option Entry
  locks : Set Entry
  knows : Fact → Prop

namespace Know

def Protects (k : Know) (e : Entry) : Prop := 1 ≤ k.refs e ∨ ∃ f, k.knows (.file f e)

/-- The references and locks are changed so, what `keep` says is still known, and what `learn` says is
known as well. -/
structure To (k k' : Know) (refs : (Entry → Int) → Entry → Int) (locks : Set Entry → Set Entry)
    (keep learn : Fact → Prop) : Prop where
  refs : k'.refs = refs k.refs
  cwd : k'.cwd = k.cwd
  locks : k'.locks = locks k.locks
  keep : ∀ F, k.knows F → keep F → k'.knows F
  learn : ∀ F, learn F → k'.knows F

abbrev Learns (k k' : Know) (learn : Fact → Prop) : Prop := To k k' id id (fun _ => True) learn

abbrev Changes (k k' : Know) (e : Entry) (learn : Fact → Prop) : Prop :=
  To k k' id id (fun F => F.entry ≠ e ∨ F.Soft) learn

def Has (k : Know) (refs : Entry → Int) (locks : Set Entry) : Prop := k.refs = home k.cwd + refs ∧ k.locks = locks

abbrev AtRest (k : Know) : Prop := k.Has 0 ∅

end Know

/-! ## The contract

A process waits for a lock while it has others only if these are of directories that are older than
the inode it waits for, should that be a directory. -/

def dots (name : Name) : Prop := name = dot ∨ name = dotdot

namespace Order

def pre (k : Know) : Req → Prop
  | .iget inum _ => inum < 65536
  | .idup e => 1 ≤ k.refs e
  | .acquire e => k.Protects e ∧ ∀ dp ∈ k.locks, k.knows (.type dp T_DIR) ∧
      ∃ inum, k.knows (.inum e inum) ∧ k.knows (.next dp inum)
  | .fill e => k.knows (.sound e)
  | .store e d => k.knows (.full e) ∧
      if d.type = 0 then k.knows (.empty e) ∧ k.knows (.sole e) ∧ d.nlink = 0 else k.knows (.type e d.type)
  | .iupdate e => k.knows (.full e) ∨ k.knows (.gone e) ∧ k.knows (.sole e)
  | .iunlock e => k.knows (.full e)
  | .putLast e | .dropRef e => 1 ≤ k.refs e ∧ (e ∈ k.locks → 2 ≤ k.refs e)
  | .itrunc e => k.knows (.full e) ∧ (k.knows (.sole e) ∨ ∃ type, k.knows (.type e type) ∧ type ≠ T_DIR)
  | .invalidate e => k.knows (.gone e) ∧ 1 ≤ k.refs e
  | .releasesleep e => k.knows (.void e) ∧ 1 ≤ k.refs e
  | .writeDirent e _ de => k.knows (.full e) ∧ k.knows (.type e T_DIR) ∧ de.inum < 65536 ∧
      (de.inum = 0 ∨ dots de.name ∨ k.knows (.next e de.inum) ∨
        ∃ ip type, type ≠ T_DIR ∧ k.knows (.type ip type) ∧ k.knows (.inum ip de.inum))
  | .tryAlloc _ type => type ≠ 0
  | .fileclose _ => ∀ e ∈ k.locks, 1 ≤ k.refs e
  | .setInode _ _ ip _ writable => 1 ≤ k.refs ip ∧ ∃ type, k.knows (.type ip type) ∧ (writable = true → type ≠ T_DIR)
  | .dupCwd _ => ∀ e, k.cwd = some e → 1 ≤ k.refs e
  | _ => True

def handed (ff : File) : Entry → Int :=
  match ff.type with
  | .inode | .device => mine ff.ip
  | _ => 0

def post : (r : Req) → Know → Answer r → Know → Prop
  | .ninodes, k, n, k' => n ≤ 65536 ∧ k.Learns k' fun _ => False
  | .iget inum _, k, e, k' => 0 ≤ k.refs e ∧ k.To k' (· + mine e) id (fun _ => True) (· = .inum e inum)
  | .idup e, k, _, k' => k.To k' (· + mine e) id (fun _ => True) fun _ => False
  | .acquire e, k, _, k' => e ∉ k.locks ∧ k.To k' id (insert e) (fun _ => True) (· = .sound e)
  | .fill e, k, _, k' => k.Changes k' e (· = .full e)
  | .inode e, k, d, k' => (k.knows (.full e) → d.type ≠ 0 ∧ ∀ type, k.knows (.type e type) → d.type = type) ∧
      (k.knows (.sole e) → d.nlink = 0) ∧
      k.Learns k' fun F => k.knows (.full e) ∧ F = .type e d.type
  | .inum e, k, inum, k' => (k.Protects e → inum < 65536) ∧ (∀ n, k.knows (.inum e n) → inum = n) ∧
      k.Learns k' fun F => k.Protects e ∧ F = .inum e inum
  | .store e d, k, _, k' =>
    if d.type = 0 then k.To k' id id (fun F => F.entry ≠ e) fun F => F = .gone e ∨ F = .sole e
    else k.Changes k' e (· = .full e)
  | .iupdate e, k, _, k' => (k.knows (.full e) → k.Changes k' e (· = .full e)) ∧
      (k.knows (.gone e) → k.To k' id id (fun F => F.entry ≠ e) (· = .gone e))
  | .iunlock e, k, _, k' => k.To k' id (· \ {e}) (fun F => F.entry ≠ e ∨ F.Soft) fun _ => False
  | .putLast e, k, true, k' => k.refs e = 1 ∧ e ∉ k.locks ∧
      k.To k' id (insert e) (fun F => F.entry ≠ e) fun F => F = .full e ∨ F = .sole e
  | .putLast e, k, false, k' =>
    k.To k' (· - mine e) id (fun F => F.entry ≠ e ∨ 2 ≤ k.refs e) fun _ => False
  | .dropRef e, k, _, k' =>
    k.To k' (· - mine e) id (fun F => F.entry ≠ e ∨ 2 ≤ k.refs e) fun _ => False
  | .itrunc e, k, _, k' => k.To k' id id (fun F => F.entry ≠ e ∨ F.Soft ∨ F = .sole e)
      fun F => F = .full e ∨ F = .empty e
  | .invalidate e, k, _, k' => k.To k' id id (fun F => F.entry ≠ e) (· = .void e)
  | .releasesleep e, k, _, k' => k.To k' id (· \ {e}) (fun F => F.entry ≠ e) fun _ => False
  | .readDirent e _, k, de, k' => (k.knows (.type e T_DIR) → ∀ v, de = some v → v.inum < 65536) ∧
      k.Learns k' fun F => ∃ v, de = some v ∧ k.knows (.type e T_DIR) ∧ v.inum ≠ 0 ∧ ¬ dots v.name ∧ F = .next e v.inum
  | .writeDirent e _ _, k, _, k' => k.Changes k' e (· = .full e)
  | .tryAlloc inum _, k, found, k' =>
    k.Learns k' fun F => found = true ∧ ∃ dp, k.knows (.type dp T_DIR) ∧ F = .next dp inum
  | .fileclose _, k, ff, k' => k.To k' (· + (ff.map handed).getD 0) id
      (fun F => 1 ≤ k.refs F.entry ∧ ∀ f e, F ≠ .file f e) fun _ => False
  | .setInode f _ ip .., k, _, k' => k.To k' (· - mine ip) id (· ≠ .sole ip) (· = .file f ip)
  | .cwd, k, e, k' => k.cwd = some e ∧ k.Learns k' fun _ => False
  | .setCwd e, k, _, k' => k'.refs = k.refs ∧ k'.cwd = e ∧ k'.locks = k.locks ∧ ∀ F, k.knows F → k'.knows F
  | _, k, _, k' => k.Learns k' fun _ => False

def preIo (k : Know) : Io → Prop
  | .writei e .. => k.knows (.full e) ∧ ∃ type, k.knows (.type e type) ∧ type ≠ T_DIR
  | _ => True

def postIo : (r : Io) → Know → IoAnswer r → Know → Prop
  | .file f, k, ff, k' => ∃ type, (ff.writable = true → type ≠ T_DIR) ∧ k.Learns k' fun F =>
    (ff.type = .inode ∨ ff.type = .device) ∧ (F = .file f ff.ip ∨ F = .type ff.ip type)
  | .setOff .., k, _, k' => k.Learns k' fun _ => False
  | .writei e .., k, _, k' => k.Changes k' e (· = .full e)

end Order

inductive Stage where
  | idle (k : Know)
  | made (k : Know) (inum : Nat) (type : Int)

namespace Stage

def after : (r : Req) → Answer r → Know → Stage
  | .tryAlloc inum type, true, k => made k inum type
  | _, _, k => idle k

def lift {α : Type} (Q : α → Know → Prop) (a : α) : Stage → Prop
  | idle k => Q a k
  | made .. => False

def AtRest : Stage → Prop
  | idle k => k.AtRest
  | made .. => False

end Stage

namespace Order

def postMade : (r : Req) → Know → Int → Answer r → Stage → Prop
  | .iget inum _, k, type, e, stage => ∃ k', post (.iget inum true) k e k' ∧ k'.knows (.type e type) ∧ stage = .idle k'
  | _, _, _, _, _ => False

def contract : Contract Answer Stage where
  pre r
    | .idle k => pre k r
    | .made _ inum _ => r = .iget inum true ∧ inum < 65536
  post r
    | .idle k, x, stage => ∃ k', post r k x k' ∧ stage = .after r x k'
    | .made k _ type, x, stage => postMade r k type x stage

def contractIo : Contract IoAnswer Stage where
  pre r
    | .idle k => preIo k r
    | .made .. => False
  post r
    | .idle k, x, stage => ∃ k', postIo r k x k' ∧ stage = .idle k'
    | .made .., _, _ => False

end Order

/-! ## Programs that keep to it -/

section
variable {R : Type} {A : R → Type} {α β : Type} {c : Contract A Stage} {k : Know}

abbrev Follows (c : Contract A Stage) (Q : α → Know → Prop) (m : Prog A α) (k : Know) : Prop :=
  Safe c (Stage.lift Q) m (.idle k)

theorem follows_bind {Q : β → Know → Prop} {m : Prog A α} {f : α → Prog A β}
    (first : Follows c (fun a => Follows c Q (f a)) m k) : Follows c Q (m >>= f) k := by
  rw [Follows, safe_bind]
  refine first.mono fun a stage after => ?_
  cases stage with
  | idle k => exact after
  | made k inum type => exact after.elim

end

/-! ## What the facts mean -/

structure Ages where
  birth : Nat → Nat
  clock : Nat
  past : ∀ inum, birth inum < clock

def State.kind (s : State) (e : Entry) : Int := (s.disk (s.table e).inum).type

def State.Faithful (s : State) (e : Entry) : Prop := (s.table e).copy.type = s.kind e ∧ s.kind e ≠ 0

def State.Bare (s : State) (e : Entry) : Prop := ∀ i, (s.slots (s.table e).inum i).inum = 0

def File.OfInode (v : File) : Prop := v.type = .inode ∨ v.type = .device

def Fact.Holds (a : Ages) (s : State) (p : Slot) (h : Held) : Fact → Prop
  | .type e kind => kind ≠ 0 ∧ s.kind e = kind
  | .inum e n => (s.table e).inum = n
  | .next e n => s.kind e = T_DIR ∧ ((s.disk n).type = T_DIR → a.birth (s.table e).inum < a.birth n)
  | .sound e => s.lock e = some p ∧ ((s.table e).valid = true → s.Faithful e)
  | .full e => s.lock e = some p ∧ (s.table e).valid = true ∧ s.Faithful e
  | .empty e => s.lock e = some p ∧ s.Bare e
  | .sole e => s.lock e = some p ∧ (s.table e).copy.nlink = 0 ∧ s.kind e ≠ 0
  | .gone e => s.lock e = some p ∧ (s.table e).copy.type = 0 ∧ s.Bare e
  | .void e => s.lock e = some p ∧ (s.table e).valid = false
  | .file f e => 1 ≤ h.own f ∧ (s.file f).OfInode ∧ (s.file f).ip = e

structure Mind (a : Ages) (s : State) (p : Slot) (h : Held) (k : Know) : Prop where
  refs : k.refs = h.refs
  cwd : k.cwd = h.proc.cwd
  nonneg : ∀ e, 0 ≤ k.refs e
  locks : ∀ e, e ∈ k.locks ↔ s.lock e = some p
  locked : ∀ e ∈ k.locks, k.Protects e
  guarded : ∀ F, k.knows F → k.Protects F.entry
  holds : ∀ F, k.knows F → F.Holds a s p h

def Stage.know : Stage → Know
  | idle k | made k .. => k

/-! ## The state -/

structure Tables (s : State) : Prop where
  unique : ∀ e e', 0 < (s.table e).ref → 0 < (s.table e').ref → (s.table e).inum = (s.table e').inum → e = e'
  faithful : ∀ e, s.lock e = none → 0 < (s.table e).ref → (s.table e).valid = true → s.Faithful e
  small : ∀ e, 0 < (s.table e).ref → (s.table e).inum < 65536
  ninodes : s.ninodes ≤ 65536

structure Ordered (a : Ages) (s : State) : Prop where
  free : ∀ inum, (s.disk inum).type = 0 → ∀ i, (s.slots inum i).inum = 0
  small : ∀ inum, (s.disk inum).type = T_DIR → ∀ i, (s.slots inum i).inum < 65536
  order : ∀ inum, (s.disk inum).type = T_DIR → ∀ i, (s.slots inum i).inum ≠ 0 → ¬ dots (s.slots inum i).name →
    (s.disk (s.slots inum i).inum).type = T_DIR → a.birth inum < a.birth (s.slots inum i).inum

/-- An open file stands for an inode that is allocated, and not for a directory if it may be written. -/
def Opened (s : State) : Prop :=
  ∀ f, (s.file f).OfInode → s.kind (s.file f).ip ≠ 0 ∧ ((s.file f).writable = true → s.kind (s.file f).ip ≠ T_DIR)

structure Ignorant (s : State) (e : Entry) (stage : Stage) : Prop where
  type : ∀ type, ¬ stage.know.knows (.type e type)
  next : ∀ inum, ¬ stage.know.knows (.next e inum)
  made : ∀ k type, stage ≠ .made k (s.table e).inum type

structure Tracked (a : Ages) (s : State) (held : Slot → Held × Stage) : Prop where
  ledger : Ledger s fun p => (held p).1
  tables : Tables s
  ordered : Ordered a s
  opened : Opened s
  mind : ∀ p, Mind a s p (held p).1 (held p).2.know
  made : ∀ p k inum type, (held p).2 = .made k inum type → type ≠ 0 ∧ (s.disk inum).type = type
  sole : ∀ p e, (held p).2.know.knows (.sole e) →
    (∀ f, (s.file f).OfInode → (s.file f).ip ≠ e) ∧ ∀ q, q ≠ p → Ignorant s e (held q).2

section
variable {a : Ages} {s : State} {held : Slot → Held × Stage} {p q : Slot} {e : Entry}

/-! ## References -/

theorem fileBalance_refs_nonneg (v : File) (e : Entry) : 0 ≤ (fileBalance v).2.1 e := by
  unfold fileBalance
  cases v.type with
  | none => exact Int.le_refl 0
  | pipe => exact Int.le_refl 0
  | inode | device => exact mine_nonneg v.ip e

theorem fileBalance_ofInode {v : File} (stands : v.OfInode) : (fileBalance v).2.1 v.ip = 1 := by
  unfold fileBalance
  rcases stands with type | type
  · rw [type]
    exact mine_self v.ip
  · rw [type]
    exact mine_self v.ip

section

variable (tracked : Tracked a s held)

include tracked

theorem Tracked.total (e : Entry) :
    ∑ p, (held p).2.know.refs e + ∑ f, (fileBalance (s.file f)).2.1 e = (s.table e).ref := by
  rw [← tracked.ledger.balanced.refs_total e]
  refine congrArg (· + _) (Finset.sum_congr rfl fun p _ => ?_)
  rw [(tracked.mind p).refs]

theorem Tracked.parts (e : Entry) : (∀ p, 0 ≤ (held p).2.know.refs e) ∧ ∀ f, 0 ≤ (fileBalance (s.file f)).2.1 e :=
  ⟨fun p => (tracked.mind p).nonneg e, fun _ => fileBalance_refs_nonneg _ e⟩

theorem Tracked.file_used {f : FileId} (stands : (s.file f).OfInode) : 0 < (s.table (s.file f).ip).ref := by
  have total := tracked.total (s.file f).ip
  obtain ⟨procs, files⟩ := tracked.parts (s.file f).ip
  have part := le_sum files f
  rw [fileBalance_ofInode stands] at part
  have := Finset.sum_nonneg fun p (_ : p ∈ Finset.univ) => procs p
  omega

theorem Tracked.used (protects : (held p).2.know.Protects e) : 0 < (s.table e).ref := by
  rcases protects with refers | ⟨f, known⟩
  · have total := tracked.total e
    obtain ⟨procs, files⟩ := tracked.parts e
    have part := le_sum procs p
    have := Finset.sum_nonneg fun f (_ : f ∈ Finset.univ) => files f
    omega
  · obtain ⟨_, stands, rfl⟩ := (tracked.mind p).holds _ known
    exact tracked.file_used stands

theorem Tracked.last (refers : 1 ≤ (held p).2.know.refs e) (one : (s.table e).ref = 1) :
    (held p).2.know.refs e = 1 ∧ (∀ f, (s.file f).OfInode → (s.file f).ip ≠ e) ∧
      ∀ q, q ≠ p → ¬ (held q).2.know.Protects e := by
  have total := tracked.total e
  obtain ⟨procs, files⟩ := tracked.parts e
  have part := le_sum procs p
  have rest := Finset.sum_nonneg fun f (_ : f ∈ Finset.univ) => files f
  have nofile (f : FileId) (stands : (s.file f).OfInode) : (s.file f).ip ≠ e := by
    rintro rfl
    have part' := le_sum files f
    rw [fileBalance_ofInode stands] at part'
    omega
  refine ⟨by omega, nofile, fun q other protects => ?_⟩
  rcases protects with refers' | ⟨f, known⟩
  · have alone := sum_alone procs (by omega) other
    omega
  · obtain ⟨_, stands, same⟩ := (tracked.mind q).holds _ known
    exact nofile f stands same

end

end

end Xv6.Fs
