import Xv6.Fs.Failures
import Xv6.Fs.PathElements

namespace Xv6.Fs
open Lib Function
open Blocks (CString key)

section
variable {b s t : State} {p : Slot} {e dp : Entry} {d : Nat} {found : Option (Entry × Name)} {name : Name} {h : Entry → Int}

/-! ## Walking alone -/

/-- What a process needs to walk through directories: what paths lead to is allocated and stays so, the
directories have whole slots, and no inode is locked. -/
structure Tree (b : State) : Prop extends Base b where
  typed : ∀ x, Reach b x → (b.disk x).type ≠ 0
  even : ∀ d, Reach b d → (b.disk d).type = T_DIR → (b.disk d).size % direntSize = 0 ∧ (b.disk d).size < 2 ^ 32
  quiet : ∀ e, b.lock e = none

def Crowded (b : State) : Prop := ∀ e e', (b.table e).ref = 0 → (b.table e').ref = 0 → e = e'

abbrev Alone (p : Slot) (b : State) {α : Type} (Q : α → State → Prop) (m : Op α) (s : State) : Prop :=
  Goes (perform p) (fun stop => stop = .panic .igetNoInodes ∧ Crowded b) Q m s

theorem alone_bind {α β : Type} {Q : β → State → Prop} (m : Op α) (f : α → Op β) :
    Alone p b Q (m >>= f) s ↔ Alone p b (fun a => Alone p b Q (f a)) m s :=
  iff_of_eq (congrFun (goes_bind m f) s)

theorem Reads.crowded (reads : Reads b s h) (one : ∀ e e', h e ≠ 0 → h e' ≠ 0 → e = e') {inum : Nat}
    {stop : Stop} (taken : s.iget inum = .error stop) : stop = .panic .igetNoInodes ∧ Crowded b := by
  obtain ⟨isStop, all⟩ := iget_stop taken
  have held (e : Entry) (zero : (b.table e).ref = 0) : h e ≠ 0 := by
    have := all e
    have := reads.refs e
    omega
  exact ⟨isStop, fun e e' zero zero' => one e e' (held e zero) (held e' zero')⟩

structure Standing (b s : State) (e : Entry) : Prop extends At b s e where
  lock : s.lock = b.lock

structure Entered (p : Slot) (b s : State) (e : Entry) : Prop extends At b s e where
  lock : s.lock = update b.lock e (some p)
  copy : (s.table e).copy = b.disk (s.table e).inum

theorem loaded_lock (s : State) (e : Entry) : (s.loaded e).lock = s.lock := by
  unfold State.loaded
  split_ifs <;> rfl

theorem Tree.ilock (tree : Tree b) (here : Standing b s e) {Q : Unit → State → Prop}
    (after : ∀ t, Entered p b t e → Q () t) : Alone p b Q (ilock e) s := by
  have typed : (s.disk (s.table e).inum).type ≠ 0 := by
    rw [here.disk]
    exact tree.typed _ here.reach
  have free : s.lock e = none := by
    rw [here.lock]
    exact tree.quiet e
  refine goes_ilock here.used free typed (after _ ⟨⟨here.locked here.used typed, ?_⟩, ?_, ?_⟩)
  · rw [locked_inum]
    exact here.reach
  · rw [State.locked, loaded_lock, ← here.lock]
    rfl
  · rw [locked_inum]
    exact here.locked_copy here.used

theorem Tree.unlocked (tree : Tree b) (lock : s.lock = update b.lock e (some p)) : (s.setLock e none).lock = b.lock := by
  change update s.lock e none = b.lock
  rw [lock, update_idem]
  exact update_eq_self_iff.mpr (tree.quiet e).symm

theorem Tree.unlockPut (tree : Tree b) (reads : Reads b s h) (held : 1 ≤ h e)
    (reach : Reach b (s.table e).inum) (lock : s.lock = update b.lock e (some p)) :
    Alone p b (fun _ t => Reads b t (h - mine e) ∧ t.lock = b.lock ∧ ∀ e', (t.table e').inum = (s.table e').inum)
    (iunlockput e) s := by
  unfold iunlockput
  rw [alone_bind]
  refine goes_iunlock (by rw [lock, update_self]) (reads.positive held) ?_
  refine goes_iput_kept (tree.notLast (reads.lock none) held reach) ⟨(reads.lock none).drop held, tree.unlocked lock, fun e' => ?_⟩
  exact (addRef_same _ e e' (-1)).inum

theorem iget_lock {inum : Nat} (taken : s.iget inum = .ok (e, t)) : t.lock = s.lock := by
  rcases iget_cases taken with ⟨_, _, rfl⟩ | ⟨_, _, rfl⟩ <;> rfl

theorem Tree.down (tree : Tree b) (below : Below b s dp e) (lock : s.lock = update b.lock dp (some p)) :
    Alone p b (fun _ t => Standing b t e) (iunlockput dp) s := by
  refine (tree.unlockPut below.toReads (below_held dp e).1 below.upper lock).mono fun _ t after => ⟨⟨?_, ?_⟩, after.2.1⟩
  · rw [← add_sub_cancel_left (mine dp) (mine e)]
    exact after.1
  · rw [after.2.2]
    exact below.lower

theorem mine_one (e : Entry) : ∀ e₁ e₂, mine e e₁ ≠ 0 → mine e e₂ ≠ 0 → e₁ = e₂ := by
  have only {e' : Entry} (held : mine e e' ≠ 0) : e' = e := by
    by_contra other
    exact held (mine_other other)
  intro e₁ e₂ one two
  rw [only one, only two]

theorem Tree.dirlookup (tree : Tree b) (here : Entered p b s dp) (dir : (b.disk (s.table dp).inum).type = T_DIR)
    {Q : Option (Entry × Nat) → State → Prop} (missing : Q none s)
    (found : ∀ ip off t, Below b t dp ip → t.lock = s.lock → Q (some (ip, off)) t) : Alone p b Q (dirlookup dp name) s := by
  obtain ⟨even, small⟩ := tree.even _ here.reach dir
  have type : (s.table dp).copy.type = T_DIR := by rwa [here.copy]
  have whole (i : Nat) (low : i < slotCount (s.table dp).copy.size) : s.readDirent dp (i * direntSize) ≠ none := by
    rw [State.readDirent, if_pos]
    · simp
    · rw [here.copy] at low ⊢
      rw [slotCount] at low
      simp only [direntSize] at *
      omega
  exact goes_dirlookup (fun file => absurd type file) (fun i low none => absurd none (whole i low))
    (fun inum stop taken => here.toReads.crowded (mine_one dp) taken) (fun _ _ => missing)
    fun i ip t _ low names _ taken => found ip _ t (here.below here.copy type low names taken) (iget_lock taken)

theorem Tree.walkFrom (tree : Tree b) (parent : Bool) (elems : List Name) (name : Name) (here : Standing b s e) :
    Alone p b (fun _ _ => True) (namexFrom parent e name elems) s := by
  induction elems generalizing s e name with
  | nil =>
    unfold namexFrom
    split_ifs with wanted
    · exact (alone_bind _ _).mpr (goes_iput_kept (tree.notLast here.toReads (mine_held e) here.reach) trivial)
    · trivial
  | cons elem rest ih =>
    unfold namexFrom
    rw [alone_bind]
    refine tree.ilock here fun t inside => ?_
    have leave := tree.unlockPut inside.toReads (mine_held e) inside.reach inside.lock
    refine goes_next rfl ?_
    rw [inside.copy]
    split_ifs with file last
    · exact leave.bind fun _ _ _ => trivial
    · exact (alone_bind _ _).mpr (goes_iunlock (by rw [inside.lock, update_self]) inside.used trivial)
    · refine (alone_bind _ _).mpr ?_
      refine tree.dirlookup inside (not_not.mp file) (leave.bind fun _ _ _ => trivial) fun ip off u below lock => ?_
      exact (tree.down below (lock.trans inside.lock)).bind fun _ v after => ih elem after

def startOf (b : State) (cwd : Entry) (path : Path) : Nat :=
  if path.head? = some slash then ROOTINO else (b.table cwd).inum

theorem Tree.namex (tree : Tree b) {cwd : Entry} (isCwd : (b.proc p).cwd = some cwd) (path : Path) (parent : Bool) :
    Alone p b (fun _ _ => True) (namex path parent) b := by
  have reads : Reads b b 0 := .refl tree.cache
  unfold Fs.namex
  split_ifs with absolute
  · rw [alone_bind]
    cases taken : b.iget ROOTINO with
    | error stop => exact goes_stop taken (reads.crowded (fun _ _ held => absurd rfl held) taken)
    | ok result =>
      refine goes_ok taken (tree.walkFrom parent _ _ ⟨⟨?_, ?_⟩, iget_lock taken⟩)
      · rw [← zero_add (mine result.1)]
        exact reads.get taken
      · rw [iget_inum taken]
        exact .root
  · have used := tree.cwd p cwd isCwd
    refine goes_next (x := cwd) (t := b) (by simp only [perform, StateT.run, isCwd]) (goes_next rfl ?_)
    refine tree.walkFrom parent _ _ ⟨⟨?_, ?_⟩, rfl⟩
    · rw [← zero_add (mine cwd)]
      exact ⟨reads.toHolds.add used, rfl, rfl⟩
    · rw [(addRef_same b cwd cwd 1).inum]
      exact .entry cwd used

structure Kept (b t : State) (returned : Option Entry) : Prop where
  refs : ∀ e, (t.table e).ref = (b.table e).ref + if returned = some e then 1 else 0
  inums : ∀ e, 0 < (b.table e).ref → (t.table e).inum = (b.table e).inum
  disk : t.disk = b.disk
  slots : t.slots = b.slots

theorem Found.kept {parent : Bool} {answer : Option (Nat × Name)} (ends : Found b parent answer found t) :
    Kept b t (found.map Prod.fst) := by
  cases found with
  | none =>
    obtain ⟨-, back⟩ := ends
    exact ⟨fun e => (back.refs e).trans rfl, back.kept, back.disk, back.slots⟩
  | some r =>
    obtain ⟨-, here, -⟩ := ends
    refine ⟨fun e => (here.refs e).trans ?_, here.kept, here.disk, here.slots⟩
    by_cases same : e = r.1
    · subst same
      simp [mine_self]
    · grind [mine_other]

theorem Found.answer {parent : Bool} {answer : Option (Nat × Name)} (ends : Found b parent answer found t) :
    answer = found.map fun r => ((t.table r.1).inum, r.2) := by
  cases found with
  | none => exact ends.1
  | some r => exact ends.1

theorem seek_startOf {cwd : Entry} (isCwd : (b.proc p).cwd = some cwd) (path : Path) (parent : Bool) :
    b.seek p path parent = b.walk parent (startOf b cwd path) [] (components path) := by
  rw [State.seek, startOf, isCwd, elements_eq_components]
  split_ifs <;> rfl

end

theorem path_lookup (b : State) (p : Slot) (cwd : Entry) (path : Path) (name : CString) (tree : Tree b)
    (isCwd : (b.proc p).cwd = some cwd) (terminated : 0 ∉ path) :
    (∀ found t, ((Buffered.namei path name).exec (perform p)).run b = .ok (found, t) →
      found.map (fun e => (t.table e).inum) = b.follow (startOf b cwd path) (components path) ∧ Kept b t found) ∧
    (∀ found t, ((Buffered.nameiparent path name).exec (perform p)).run b = .ok (found, t) →
      found.map (fun r => ((t.table r.1).inum, key r.2)) = b.followParent (startOf b cwd path) (components path) ∧
        Kept b t (found.map Prod.fst)) ∧
    ∀ stop, ((Buffered.namei path name).exec (perform p)).run b = .error stop ∨
      ((Buffered.nameiparent path name).exec (perform p)).run b = .error stop → stop = .panic .igetNoInodes ∧ Crowded b := by
  have walked (parent : Bool) := tree.walk (p := p) (.refl tree.cache) path parent
  have whole : Does p (fun found t => found.map (fun e => (t.table e).inum) = b.follow (startOf b cwd path) (components path) ∧
      Kept b t found) (Buffered.namei path name) b := by
    rw [Buffered.namei_eq path name terminated]
    refine (walked false).bind fun found t ends => ⟨?_, ends.kept⟩
    rw [← walk_follow b _ [], ← seek_startOf isCwd, ends.answer, Option.map_map, Option.map_map]
    rfl
  have upper : Does p (fun found t => found.map (fun r => ((t.table r.1).inum, key r.2)) =
      b.followParent (startOf b cwd path) (components path) ∧ Kept b t (found.map Prod.fst))
      (Buffered.nameiparent path name) b := by
    have bound : Does p _ (nameiparent path) b := walked true
    rw [← Buffered.nameiparent_eq path name terminated, does_bind] at bound
    refine bound.mono fun found t ends => ?_
    have same : (Buffered.shown found).map Prod.fst = found.map Prod.fst := by cases found <;> rfl
    refine ⟨?_, same ▸ ends.kept⟩
    rw [← walk_followParent b _ [], ← seek_startOf isCwd, ends.answer, Buffered.shown, Option.map_map]
    rfl
  refine ⟨fun found t ok => whole.exec.of_run ok, fun found t ok => upper.exec.of_run ok, ?_⟩
  rintro stop (error | error)
  · rw [Buffered.namei_eq path name terminated] at error
    have alone : Alone p b (fun _ _ => True) (namei path) b := (tree.namex isCwd path false).bind fun _ _ _ => trivial
    exact alone.exec.of_stop error
  · have alone : Alone p b _ (nameiparent path) b := tree.namex isCwd path true
    rw [← Buffered.nameiparent_eq path name terminated, alone_bind] at alone
    exact alone.exec.of_stop error

theorem oneFile_reach {x : Nat} (reach : Reach (boot 20 oneFile oneFileSlots) x) : x = ROOTINO ∨ x = 2 := by
  cases reach with
  | root => exact .inl rfl
  | entry e used => grind [boot]
  | @slot d i up type range filled =>
    simp only [boot, oneFileSlots, rootSlots]
    split_ifs <;> simp

theorem oneFile_tree : Tree (boot 20 oneFile oneFileSlots) where
  cache := by
    refine ⟨fun e => ?_, fun e e' used used' _ => ?_, fun e _ valid => ?_, fun e _ valid => ?_⟩
    · simp only [boot]
      split_ifs <;> decide
    · have first {e : Entry} (used : 0 < ((boot 20 oneFile oneFileSlots).table e).ref) : e = 0 := by
        by_contra other
        simp [boot, other] at used
      rw [first used, first used']
    · simp only [boot] at valid
      split_ifs at valid
    · simp only [boot] at valid
      split_ifs at valid
  pinned x reach _ unlinked := by
    rcases oneFile_reach reach with rfl | rfl <;> exact absurd unlinked (by decide)
  typed x reach := by
    rcases oneFile_reach reach with rfl | rfl <;> decide
  cwd p e isCwd := by grind [boot]
  even d reach dir := by
    rcases oneFile_reach reach with rfl | rfl
    · decide
    · exact absurd dir (by decide)
  quiet _ := rfl

theorem path_lookup_oneFile : ∃ e t,
    ((Buffered.namei [slash, 102] fun _ => 0).exec (perform initproc)).run (boot 20 oneFile oneFileSlots) = .ok (some e, t) ∧
      (t.table e).inum = 2 ∧ Kept (boot 20 oneFile oneFileSlots) t (some e) := by
  have lookup := path_lookup (boot 20 oneFile oneFileSlots) initproc 0 [slash, 102] (fun _ => 0) oneFile_tree rfl (by decide)
  cases outcome : ((Buffered.namei [slash, 102] fun _ => 0).exec (perform initproc)).run (boot 20 oneFile oneFileSlots) with
  | error stop =>
    have crowded := (lookup.2.2 stop (.inl outcome)).2
    exact absurd (crowded 1 2 rfl rfl) (by decide)
  | ok result =>
    obtain ⟨found, kept⟩ := lookup.1 result.1 result.2 outcome
    obtain ⟨e, isEntry, inum⟩ := Option.map_eq_some_iff.mp found
    rw [isEntry] at kept
    exact ⟨e, result.2, by rw [← isEntry], inum, kept⟩

end Xv6.Fs
