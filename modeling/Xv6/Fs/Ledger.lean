import Xv6.Fs.Holdings
import Xv6.Lib.Threads

namespace Xv6.Fs
open Lib Function

attribute [local simp] Held.ends reference Held.locks locked State.setEntry Held.add State.setLock

/-! ## The accounts

Everything that the tables count is held by a process or stands in a file. -/

def isOpen : Option Pipe → Bool → Bool
  | none, _ => false
  | some pi, writable => if writable then pi.writeopen else pi.readopen

def stateBalance (s : State) : Balance :=
  (s.outstanding, fun e => (s.table e).ref, fun e => if s.lock e = none then 0 else 1,
    fun x => if isOpen (s.pipe x.1) x.2 then 1 else 0)

attribute [local simp] stateBalance

structure Balanced (s : State) (held : Slot → Held) : Prop where
  total : ∑ p, (held p).bal + ∑ f, fileBalance (s.file f) = stateBalance s
  locks : ∀ p e, (held p).locks e = if s.lock e = some p then 1 else 0
  ends : ∀ p x, 0 ≤ (held p).ends x

structure Files (s : State) (held : Slot → Held) : Prop where
  own : ∀ f, (s.file f).ref = ∑ p, (held p).own f
  nonneg : ∀ p f, 0 ≤ (held p).own f
  closed : ∀ f, (s.file f).ref = 0 → (s.file f).type = .none
  fresh : ∀ p f, f ∈ (held p).fresh → (s.file f).type = .none ∧ (s.file f).ref = 1 ∧ (held p).own f = 1

structure Procs (s : State) (held : Slot → Held) : Prop where
  same : ∀ p, (held p).proc = s.proc p
  idle : ∀ p, (s.proc p).status ≠ .runnable → AtRest (held p)
  empty : ∀ p, (s.proc p).status = .unused ∨ (s.proc p).status = .zombie →
    (∀ fd, (s.proc p).ofile fd = none) ∧ (s.proc p).cwd = none
  child : ∀ p c, (held p).child = some c → (s.proc c.slot).status = .used ∧
    (∀ fd ∈ c.todo, (s.proc c.slot).ofile fd = none) ∧ (c.cwd = false → (s.proc c.slot).cwd = none)
  parent : ∀ p q c c', (held p).child = some c → (held q).child = some c' → c.slot = c'.slot → p = q

structure Pipes (s : State) : Prop where
  counts : ∀ page, s.allocs page = s.frees page + if s.pipe page = none then 0 else 1
  live : ∀ page pi, s.pipe page = some pi → pi.readopen ∨ pi.writeopen

structure Ledger (s : State) (held : Slot → Held) : Prop where
  balanced : Balanced s held
  files : Files s held
  procs : Procs s held
  pipes : Pipes s

section
variable {s t : State} {held : Slot → Held} {p q : Slot} {h : Held} {e : Entry} {f : FileId} {d : Balance} {v : File}

/-! ### Balances -/

theorem total_update (total : ∑ p, (held p).bal + ∑ f, fileBalance (s.file f) = stateBalance s)
    (file : t.file = update s.file f v)
    (state : stateBalance t = stateBalance s + (h.bal - (held p).bal) + (fileBalance v - fileBalance (s.file f))) :
    ∑ q, (update held p h q).bal + ∑ f, fileBalance (t.file f) = stateBalance t := by
  rw [file, sum_update Held.bal held, sum_update fileBalance s.file, state, ← total]
  abel

theorem kept_file (s : State) (f : FileId) : s.file = update s.file f (s.file f) :=
  (update_eq_self ..).symm

theorem Balanced.adjust (balanced : Balanced s held) (lock : t.lock = s.lock) (file : t.file = update s.file f v)
    (state : stateBalance t = stateBalance s + (h.bal - (held p).bal) + (fileBalance v - fileBalance (s.file f)))
    (locks : h.locks = (held p).locks) (ends : ∀ x, 0 ≤ h.ends x) : Balanced t (update held p h) := by
  refine ⟨total_update balanced.total file state, ?_, ?_⟩
  · rw [lock, forall_update_iff held fun q h => ∀ e, h.locks e = if s.lock e = some q then 1 else 0, locks]
    exact ⟨balanced.locks p, fun q _ => balanced.locks q⟩
  · exact (forall_update_iff held fun _ h => ∀ x, 0 ≤ h.ends x).mpr ⟨ends, fun q _ => balanced.ends q⟩

theorem Balanced.lock (balanced : Balanced s held) {l : Option Slot} (lock : t.lock = update s.lock e l)
    (file : t.file = s.file) (state : stateBalance t = stateBalance s + (h.bal - (held p).bal))
    (own : ∀ e', h.locks e' = if t.lock e' = some p then 1 else 0) (others : ∀ q, q ≠ p → s.lock e ≠ some q ∧ l ≠ some q)
    (ends : h.ends = (held p).ends) : Balanced t (update held p h) := by
  refine ⟨total_update (f := 0) balanced.total (file.trans (kept_file s 0)) ?_, ?_, ?_⟩
  · rw [state]
    abel
  · rw [forall_update_iff held fun q h => ∀ e, h.locks e = if t.lock e = some q then 1 else 0]
    refine ⟨own, fun q other e' => ?_⟩
    rw [balanced.locks q e', lock]
    by_cases here : e' = e
    · grind
    · rw [update_of_ne here]
  · rw [forall_update_iff held fun _ h => ∀ x, 0 ≤ h.ends x, ends]
    exact ⟨balanced.ends p, fun q _ => balanced.ends q⟩

/-! ### Files -/

theorem Files.keep (files : Files s held) (file : t.file = s.file) (own : h.own = (held p).own)
    (fresh : h.fresh = (held p).fresh) : Files t (update held p h) := by
  have same (q : Slot) : (update held p h q).own = (held q).own ∧ (update held p h q).fresh = (held q).fresh := by grind
  refine ⟨?_, ?_, ?_, ?_⟩
  · intro f
    rw [file, files.own f]
    exact Finset.sum_congr rfl fun q _ => by rw [(same q).1]
  · intro q f
    rw [(same q).1]
    exact files.nonneg q f
  · rw [file]
    exact files.closed
  · intro q f
    rw [file, (same q).1, (same q).2]
    exact files.fresh q f

theorem Files.change (files : Files s held) (file : t.file = update s.file f v)
    (own : h.own = (held p).own + Pi.single f (v.ref - (s.file f).ref)) (nonneg : 0 ≤ h.own f)
    (closed : v.ref = 0 → v.type = .none) (others : ∀ q, q ≠ p → f ∉ (held q).fresh)
    (fresh : ∀ f' ∈ h.fresh, f' ∈ (held p).fresh ∧ f' ≠ f ∨ f' = f ∧ v.type = .none ∧ v.ref = 1 ∧ h.own f = 1) :
    Files t (update held p h) := by
  have elsewhere (f' : FileId) (other : f' ≠ f) : h.own f' = (held p).own f' := by simp [own, other]
  refine ⟨?_, ?_, ?_, ?_⟩
  · intro f'
    rw [sum_update (Held.own · f') held, ← files.own f', file]
    by_cases same : f' = f
    · subst same
      rw [update_self, own, Pi.add_apply, Pi.single_eq_same]
      omega
    · rw [update_of_ne same, elsewhere f' same]
      omega
  · refine (forall_update_iff held fun _ h => ∀ f, 0 ≤ h.own f).mpr ⟨fun f' => ?_, fun q _ => files.nonneg q⟩
    by_cases same : f' = f
    · exact same ▸ nonneg
    · exact elsewhere f' same ▸ files.nonneg p f'
  · rw [file]
    exact (forall_update_iff s.file fun _ w => w.ref = 0 → w.type = .none).mpr ⟨closed, fun f' _ => files.closed f'⟩
  · intro q f' member
    rw [file]
    by_cases here : q = p
    · subst here
      rw [update_self] at member ⊢
      rcases fresh f' member with ⟨old, other⟩ | ⟨rfl, type, ref, mine⟩
      · rw [update_of_ne other, elsewhere f' other]
        exact files.fresh q f' old
      · rw [update_self]
        exact ⟨type, ref, mine⟩
    · grind [files.fresh]

theorem Files.alone (files : Files s held) (mine : 1 ≤ (held p).own f) (other : q ≠ p) (member : f ∈ (held q).fresh) :
    False := by
  obtain ⟨_, ref, owned⟩ := files.fresh q f member
  have zero : (held p).own f = 0 := by
    refine sum_alone (f := fun r => (held r).own f) (fun r => files.nonneg r f) ?_ (Ne.symm other)
    rw [← files.own f]
    omega
  omega

/-! ### Processes -/

theorem Procs.own (procs : Procs s held) (proc : t.proc = update s.proc p h.proc) (runs : h.proc.status = .runnable)
    (ran : (s.proc p).status = .runnable) (child : h.child = (held p).child) : Procs t (update held p h) := by
  have others (q : Slot) (other : q ≠ p) : t.proc q = s.proc q := by rw [proc, update_of_ne other]
  have here : t.proc p = h.proc := by rw [proc, update_self]
  refine ⟨?_, ?_, ?_, ?_, ?_⟩
  · grind [procs.same]
  · grind [procs.idle]
  · grind [procs.empty]
  · grind [procs.child]
  · grind [procs.parent]

theorem Procs.keep (procs : Procs s held) (proc : t.proc = s.proc) (same : h.proc = (held p).proc)
    (child : h.child = (held p).child) (runs : (s.proc p).status = .runnable) : Procs t (update held p h) := by
  have mine : h.proc = s.proc p := same.trans (procs.same p)
  refine procs.own ?_ (by rw [mine, runs]) runs child
  rw [proc, mine, update_eq_self]

/-! ## What each operation does to the accounts -/

structure SameAccounts (s t : State) : Prop where
  outstanding : t.outstanding = s.outstanding
  ref : ∀ e, (t.table e).ref = (s.table e).ref
  lock : t.lock = s.lock
  file : t.file = s.file
  pipe : t.pipe = s.pipe
  allocs : t.allocs = s.allocs
  frees : t.frees = s.frees
  proc : t.proc = s.proc

theorem SameAccounts.balance (same : SameAccounts s t) : stateBalance t = stateBalance s := by
  simp only [stateBalance, same.outstanding, same.ref, same.lock, same.pipe]

theorem Ledger.quiet (ledger : Ledger s held) (same : SameAccounts s t) : Ledger t held := by
  obtain ⟨⟨total, locks, ends⟩, ⟨own, nonneg, closed, fresh⟩, ⟨procs, idle, empty, child, parent⟩, ⟨counts, live⟩⟩ :=
    ledger
  refine ⟨⟨?_, ?_, ends⟩, ⟨?_, nonneg, ?_, ?_⟩, ⟨?_, ?_, ?_, ?_, parent⟩, ⟨?_, ?_⟩⟩
  · rw [same.file, same.balance, total]
  · rwa [same.lock]
  · rwa [same.file]
  · rwa [same.file]
  · rwa [same.file]
  · rwa [same.proc]
  · rwa [same.proc]
  · rwa [same.proc]
  · rwa [same.proc]
  · rwa [same.allocs, same.frees, same.pipe]
  · rwa [same.pipe]

theorem sameAccounts_setEntry {v : Inode} (ref : v.ref = (s.table e).ref) : SameAccounts s (s.setEntry e v) := by
  refine ⟨rfl, fun e' => ?_, rfl, rfl, rfl, rfl, rfl, rfl⟩
  by_cases same : e' = e
  · subst same
    simp [ref]
  · simp [same]

theorem SameAccounts.trans {u : State} (one : SameAccounts s t) (two : SameAccounts t u) : SameAccounts s u :=
  ⟨two.outstanding.trans one.outstanding, fun e => (two.ref e).trans (one.ref e), two.lock.trans one.lock,
    two.file.trans one.file, two.pipe.trans one.pipe, two.allocs.trans one.allocs, two.frees.trans one.frees,
    two.proc.trans one.proc⟩

theorem sameAccounts_disk (s : State) (disk : Nat → Dinode) (slots : Nat → Nat → Dirent) :
    SameAccounts s { s with disk := disk, slots := slots } :=
  ⟨rfl, fun _ => rfl, rfl, rfl, rfl, rfl, rfl, rfl⟩

theorem sameAccounts_writeDirent (s : State) (e : Entry) (off : Nat) (de : Dirent) :
    SameAccounts s (s.writeDirent e off de).2 := by
  unfold State.writeDirent
  simp only
  split_ifs
  · exact sameAccounts_disk s s.disk s.slots
  · exact sameAccounts_disk s s.disk s.slots
  · refine (sameAccounts_setEntry (s := s) (e := e) ?_).trans (sameAccounts_disk _ _ _)
    rfl
  · exact sameAccounts_disk s _ _

theorem sameAccounts_tryAlloc (s : State) (inum : Nat) (type : Int) : SameAccounts s (s.tryAlloc inum type).2 := by
  unfold State.tryAlloc
  split_ifs
  · exact sameAccounts_disk s _ _
  · exact sameAccounts_disk s s.disk s.slots

theorem sameAccounts_itrunc (s : State) (e : Entry) : SameAccounts s (s.itrunc e) := by
  refine (sameAccounts_setEntry (s := s) (e := e) ?_).trans (sameAccounts_disk _ _ _)
  rfl

theorem sameAccounts_fill (taken : s.fill e = .ok ((), t)) : SameAccounts s t := by
  unfold State.fill at taken
  simp only at taken
  split_ifs at taken
  · cases taken
    exact sameAccounts_disk s s.disk s.slots
  · cases taken
    exact sameAccounts_setEntry rfl

/-! ### Transactions and references -/

theorem stateBalance_setEntry (s : State) (e : Entry) (v : Inode) :
    stateBalance (s.setEntry e v) = stateBalance s + (0, Pi.single e (v.ref - (s.table e).ref), 0, 0) := by
  refine Prod.ext ?_ (Prod.ext ?_ (Prod.ext ?_ ?_))
  · simp
  · funext e'
    by_cases same : e' = e
    · subst same
      simp
    · simp [same]
  · exact (add_zero _).symm
  · exact (add_zero _).symm

theorem stateBalance_addRef (s : State) (e : Entry) : stateBalance (s.addRef e 1) = stateBalance s + reference e := by
  rw [State.addRef, stateBalance_setEntry]
  simp

theorem stateBalance_dropRef (s : State) (e : Entry) : stateBalance (s.addRef e (-1)) = stateBalance s + -reference e := by
  rw [State.addRef, stateBalance_setEntry]
  simp [Pi.single_neg]

theorem Ledger.adjust (ledger : Ledger s held) (runs : (held p).proc.status = .runnable)
    (balance : stateBalance t = stateBalance s + d) (locks : d.2.2.1 = 0) (ends : d.2.2.2 = 0) (lock : t.lock = s.lock)
    (file : t.file = s.file) (pipe : t.pipe = s.pipe) (allocs : t.allocs = s.allocs) (frees : t.frees = s.frees)
    (proc : t.proc = s.proc) : Ledger t (Function.update held p ((held p).add d)) := by
  refine ⟨?_, ?_, ?_, ⟨?_, ?_⟩⟩
  · refine ledger.balanced.adjust (f := 0) lock (file.trans (kept_file s 0)) ?_ ?_ ?_
    · rw [balance, show ((held p).add d).bal = (held p).bal + d from rfl]
      abel
    · simp [locks]
    · intro x
      simpa [ends] using ledger.balanced.ends p x
  · exact ledger.files.keep file rfl rfl
  · exact ledger.procs.keep proc rfl rfl (by rw [← ledger.procs.same p, runs])
  · rw [allocs, frees, pipe]
    exact ledger.pipes.counts
  · rw [pipe]
    exact ledger.pipes.live

theorem findFree_ref (found : s.findFree = some e) : (s.table e).ref = 0 := by
  simpa using List.find?_some found

theorem iget_accounts {inum : Nat} (taken : s.iget inum = .ok (e, t)) :
    stateBalance t = stateBalance s + reference e ∧ t.lock = s.lock ∧ t.file = s.file ∧ t.pipe = s.pipe ∧
      t.allocs = s.allocs ∧ t.frees = s.frees ∧ t.proc = s.proc := by
  unfold State.iget at taken
  cases hit : s.findEntry inum with
  | some e' =>
    simp only [hit] at taken
    cases taken
    exact ⟨stateBalance_addRef s e, rfl, rfl, rfl, rfl, rfl, rfl⟩
  | none =>
    simp only [hit] at taken
    cases free : s.findFree with
    | none => simp [free] at taken
    | some e' =>
      simp only [free] at taken
      cases taken
      refine ⟨?_, rfl, rfl, rfl, rfl, rfl, rfl⟩
      rw [stateBalance_setEntry, findFree_ref free]
      simp

/-! ### Locks -/

theorem stateBalance_setLock (s : State) (e : Entry) (l : Option Slot) :
    stateBalance (s.setLock e l) = stateBalance s +
      (0, 0, Pi.single e ((if l = none then 0 else 1) - if s.lock e = none then 0 else 1), 0) := by
  refine Prod.ext ?_ (Prod.ext ?_ (Prod.ext ?_ ?_))
  · simp
  · simp
  · funext e'
    by_cases same : e' = e
    · subst same
      simp
    · simp [same]
  · exact (add_zero _).symm

theorem Ledger.relock {l : Option Slot} (ledger : Ledger s held) (runs : (held p).proc.status = .runnable)
    (before : s.lock e = none ∨ s.lock e = some p) (after : l = none ∨ l = some p) :
    Ledger (s.setLock e l) (update held p ((held p).add
      (0, 0, Pi.single e ((if l = none then 0 else 1) - if s.lock e = none then 0 else 1), 0))) := by
  refine ⟨?_, ledger.files.keep rfl rfl rfl, ledger.procs.keep rfl rfl rfl ?_, ⟨ledger.pipes.counts, ledger.pipes.live⟩⟩
  · refine ledger.balanced.lock (e := e) rfl rfl ?_ (fun e' => ?_) (fun q other => ?_) (by simp)
    · rw [stateBalance_setLock]
      simp
    · have held := ledger.balanced.locks p e'
      rw [Held.locks] at held
      by_cases same : e' = e
      · subst same
        rcases before with before | before <;> rcases after with rfl | rfl <;> simp [held, before]
      · simp [same, held]
    · rcases before with before | before <;> rcases after with rfl | rfl <;> simp [before, Ne.symm other]
  · rw [← ledger.procs.same p, runs]

theorem Ledger.acquire (ledger : Ledger s held) (runs : (held p).proc.status = .runnable) (free : s.lock e = none) :
    Ledger (s.setLock e (some p)) (update held p ((held p).add (locked e))) := by
  simpa [free] using ledger.relock runs (.inl free) (.inr rfl)

theorem Ledger.release (ledger : Ledger s held) (runs : (held p).proc.status = .runnable) (mine : s.lock e = some p) :
    Ledger (s.setLock e none) (update held p ((held p).add (-locked e))) := by
  simpa [mine, Pi.single_neg] using ledger.relock runs (.inr mine) (.inl rfl)

theorem Balanced.lock_mine (balanced : Balanced s held) (held_one : (held p).locks e = 1) : s.lock e = some p := by
  have before := balanced.locks p e
  split_ifs at before with mine
  · exact mine
  · omega

theorem Balanced.lock_free (balanced : Balanced s held) (free : s.lock e = none) : (held p).locks e = 0 := by
  simpa [free] using balanced.locks p e

end

end Xv6.Fs
