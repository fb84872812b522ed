import Xv6.Fs.Sequential

namespace Xv6.Fs
open Lib

/-! ## The inode that a path names -/

namespace State

def lookup (b : State) (d : Nat) (name : Name) : Option Nat :=
  ((List.range (slotCount (b.disk d).size)).find? fun i => (b.slots d i).inum ≠ 0 ∧ (b.slots d i).name = name).map
    fun i => (b.slots d i).inum

def follow (b : State) : Nat → List Name → Option Nat
  | d, [] => some d
  | d, name :: rest => if (b.disk d).type = T_DIR then (b.lookup d name).bind (b.follow · rest) else none

def followParent (b : State) (d : Nat) (path : List Name) : Option (Nat × Name) :=
  path.getLast?.bind fun last => (b.follow d path.dropLast).bind fun x => if (b.disk x).type = T_DIR then some (x, last) else none

def walk (b : State) (parent : Bool) (d : Nat) (name : Name) : List Name → Option (Nat × Name)
  | [] => if parent then none else some (d, name)
  | elem :: rest =>
    if (b.disk d).type ≠ T_DIR then none
    else if parent ∧ rest = [] then some (d, elem)
    else (b.lookup d elem).bind fun next => b.walk parent next elem rest

end State

section
variable {b s t : State} {e dp : Entry} {h : Entry → Int} {Q : Option (Entry × Nat) → State → Prop}
  {name : Name} {p : Slot} {d : Nat}

abbrev State.names (s : State) (d i : Nat) (name : Name) : Prop := (s.slots d i).inum ≠ 0 ∧ (s.slots d i).name = name

theorem walk_follow (b : State) (d : Nat) (name : Name) (path : List Name) :
    (b.walk false d name path).map Prod.fst = b.follow d path := by
  induction path generalizing d name with
  | nil => rfl
  | cons elem rest ih =>
    rw [State.walk, State.follow]
    by_cases dir : (b.disk d).type = T_DIR
    · rw [if_neg (not_not.mpr dir), if_neg (by simp), if_pos dir, Option.map_bind]
      exact congrArg (Option.bind _) (funext fun next => ih next elem)
    · rw [if_pos dir, if_neg dir]
      rfl

theorem walk_followParent (b : State) (d : Nat) (name : Name) (path : List Name) :
    b.walk true d name path = b.followParent d path := by
  induction path generalizing d name with
  | nil => rfl
  | cons elem rest ih =>
    rw [State.walk]
    cases rest with
    | nil => simp [State.followParent, State.follow]
    | cons next rest =>
      obtain ⟨last, isLast⟩ : ∃ last, (next :: rest).getLast? = some last := ⟨_, List.getLast?_cons⟩
      have whole : (elem :: next :: rest).getLast? = some last := by rw [List.getLast?_cons_cons, isLast]
      simp only [ih, State.followParent, whole, isLast, List.dropLast_cons_cons, State.follow, Option.bind_some]
      by_cases dir : (b.disk d).type = T_DIR
      · rw [if_neg (not_not.mpr dir), if_neg (by simp), if_pos dir, Option.bind_assoc]
      · rw [if_pos dir, if_neg dir]
        rfl

theorem lookup_none (missing : ∀ i, i < slotCount (b.disk d).size → ¬ b.names d i name) : b.lookup d name = none := by
  rw [State.lookup, Option.map_eq_none_iff, List.find?_eq_none]
  intro i member
  rw [decide_eq_true_iff]
  exact missing i (List.mem_range.mp member)

theorem lookup_some {i : Nat} (range : i < slotCount (b.disk d).size) (names : b.names d i name)
    (first : ∀ j, j < i → ¬ b.names d j name) : b.lookup d name = some (b.slots d i).inum := by
  rw [State.lookup, Option.map_eq_some_iff]
  refine ⟨i, ?_, rfl⟩
  rw [List.find?_range_eq_some]
  refine ⟨decide_eq_true names, List.mem_range.mpr range, fun j less => ?_⟩
  rw [Bool.not_eq_true', decide_eq_false_iff_not]
  exact first j less

/-! ## Directories -/

theorem readDirent_slot {off : Nat} {de : Dirent} (found : s.readDirent e off = some de) :
    de = s.slots (s.table e).inum (off / direntSize) := by grind [State.readDirent]

theorem slot_offset (k : Nat) : k * direntSize / direntSize = k := Nat.mul_div_cancel k (by decide)

theorem next_offset (k : Nat) : k * direntSize + direntSize = (k + 1) * direntSize := (Nat.succ_mul k direntSize).symm

theorem goes_scanFrom {E : Stop → Prop} {short : Panic} {wanted : Dirent → Bool}
    {Q : Option Dirent × Nat → State → Prop} (n k : Nat)
    (broken : ∀ i, i < k + n → s.readDirent dp (i * direntSize) = none → E (.panic short))
    (missing : (∀ i, k ≤ i → i < k + n → wanted (s.slots (s.table dp).inum i) = false) → Q (none, (k + n) * direntSize) s)
    (found : ∀ i, i < k + n → wanted (s.slots (s.table dp).inum i) = true →
      (∀ j, k ≤ j → j < i → wanted (s.slots (s.table dp).inum j) = false) →
      Q (some (s.slots (s.table dp).inum i), i * direntSize) s) :
    Goes (perform p) E Q (scanFrom dp short wanted n (k * direntSize)) s := by
  induction n generalizing k with
  | zero => exact missing fun i low high => absurd low (Nat.not_le.mpr high)
  | succ n ih =>
    refine goes_next rfl ?_
    cases read : s.readDirent dp (k * direntSize) with
    | none => exact goes_stop rfl (broken k (by omega) read)
    | some de =>
      have slot := readDirent_slot read
      rw [slot_offset] at slot
      subst slot
      dsimp only
      split_ifs with here
      · exact found k (by omega) here fun j low less => absurd low (Nat.not_le.mpr less)
      · -- The slot is passed over.
        have both {i : Nat} (low : k ≤ i) (rest : k + 1 ≤ i → wanted (s.slots (s.table dp).inum i) = false) :
            wanted (s.slots (s.table dp).inum i) = false := by grind
        have count : k + 1 + n = k + (n + 1) := Nat.succ_add_eq_add_succ k n
        rw [next_offset]
        refine ih (k + 1) (fun i high => broken i (by omega)) (fun rest => ?_) fun i high this before =>
          found i (by omega) this fun j low less => both low fun later => before j later less
        rw [count]
        exact missing fun i low high => both low fun later => rest i later (by omega)

theorem goes_dirlookup {E : Stop → Prop} (file : (s.table dp).copy.type ≠ T_DIR → E (.panic .dirlookupNotDir))
    (broken : ∀ i, i < slotCount (s.table dp).copy.size → s.readDirent dp (i * direntSize) = none → E (.panic .dirlookupRead))
    (full : ∀ inum stop, s.iget inum = .error stop → E stop)
    (missing : (s.table dp).copy.type = T_DIR →
      (∀ i, i < slotCount (s.table dp).copy.size → ¬ s.names (s.table dp).inum i name) → Q none s)
    (found : ∀ i ip t, (s.table dp).copy.type = T_DIR → i < slotCount (s.table dp).copy.size →
      s.names (s.table dp).inum i name → (∀ j < i, ¬ s.names (s.table dp).inum j name) →
      s.iget (s.slots (s.table dp).inum i).inum = .ok (ip, t) → Q (some (ip, i * direntSize)) t) :
    Goes (perform p) E Q (dirlookup dp name) s := by
  refine goes_next rfl ?_
  split_ifs with directory
  · exact goes_stop rfl (file directory)
  · have type := not_not.mp directory
    rw [goes_bind]
    refine goes_scanFrom _ 0 (fun i low => broken i (by rwa [Nat.zero_add] at low)) (fun none => ?_) fun i low names first => ?_
    · exact missing type fun i low => of_decide_eq_false (none i (Nat.zero_le i) (by rwa [Nat.zero_add]))
    · rw [Nat.zero_add] at low
      cases taken : s.iget (s.slots (s.table dp).inum i).inum with
      | error stop =>
        dsimp only
        rw [goes_bind]
        exact goes_stop taken (full _ stop taken)
      | ok result =>
        refine goes_next taken (found i result.1 result.2 type low (of_decide_eq_true names) (fun j less => ?_) taken)
        exact of_decide_eq_false (first j (Nat.zero_le j) less)

theorem does_scanFrom {short : Panic} {wanted : Dirent → Bool} (n k : Nat) :
    Does p (fun _ t => t = s) (scanFrom dp short wanted n (k * direntSize)) s :=
  goes_scanFrom n k (fun _ _ _ => trivial) (fun _ => rfl) fun _ _ _ _ => rfl

theorem does_dirlookup (missing : (s.table dp).copy.type = T_DIR →
      (∀ i, i < slotCount (s.table dp).copy.size → ¬ s.names (s.table dp).inum i name) → Q none s)
    (found : ∀ i ip t, (s.table dp).copy.type = T_DIR → i < slotCount (s.table dp).copy.size →
      s.names (s.table dp).inum i name → (∀ j < i, ¬ s.names (s.table dp).inum j name) →
      s.iget (s.slots (s.table dp).inum i).inum = .ok (ip, t) → Q (some (ip, i * direntSize)) t) :
    Does p Q (dirlookup dp name) s :=
  goes_dirlookup (fun _ => trivial) (fun _ _ _ => trivial) (fun _ _ _ => trivial) missing found

/-! ## Paths -/

inductive Reach (s : State) : Nat → Prop where
  | root : Reach s ROOTINO
  | entry (e : Entry) (used : 0 < (s.table e).ref) : Reach s (s.table e).inum
  | slot {d i : Nat} (up : Reach s d) (type : (s.disk d).type = T_DIR) (range : i < slotCount (s.disk d).size)
      (filled : (s.slots d i).inum ≠ 0) : Reach s (s.slots d i).inum

/-- A state in which a call can look up paths: an inode without links that a path leads to is in use. -/
structure Base (b : State) : Prop where
  cache : Cache b
  pinned : ∀ x, Reach b x → (b.disk x).type ≠ 0 → (b.disk x).nlink = 0 → ∃ e, 0 < (b.table e).ref ∧ (b.table e).inum = x
  cwd : ∀ p e, (b.proc p).cwd = some e → 0 < (b.table e).ref

theorem Base.notLast (base : Base b) (reads : Reads b s h) (held : 1 ≤ h e)
    (reach : Reach b (s.table e).inum) : ¬ Last s e := by
  rintro ⟨one, valid, unlinked⟩
  have used := reads.positive held
  have copy := reads.cache.copy e used valid
  have typed := reads.cache.typed e used valid
  rw [copy, reads.disk] at unlinked
  rw [reads.disk] at typed
  obtain ⟨e', used', same⟩ := base.pinned _ reach typed unlinked
  have here : e' = e := by
    refine reads.cache.unique e e' used ?_ ((reads.kept e' used').trans same)
    rw [reads.refs e']
    have := reads.nonneg e'
    omega
  subst here
  have := reads.refs e'
  omega

theorem Reads.drop (reads : Reads b s h) (held : 1 ≤ h e) : Reads b (s.addRef e (-1)) (h - mine e) :=
  ⟨reads.toHolds.drop held, reads.disk, reads.slots⟩

theorem Reads.lock (reads : Reads b s h) (l : Option Slot) : Reads b (s.setLock e l) h :=
  ⟨reads.toHolds.lock l, reads.disk, reads.slots⟩

theorem Reads.locked (reads : Reads b s h) (used : 0 < (s.table e).ref)
    (typed : (s.disk (s.table e).inum).type ≠ 0) : Reads b (s.locked p e) h :=
  ⟨reads.toHolds.locked used typed, (loaded_image _ e).1.trans reads.disk, (loaded_image _ e).2.trans reads.slots⟩

theorem locked_inum (s : State) (p : Slot) (e e' : Entry) : ((s.locked p e).table e').inum = (s.table e').inum :=
  loaded_inum _ e e'

theorem Reads.locked_copy (reads : Reads b s h) (used : 0 < (s.table e).ref) :
    ((s.locked p e).table e).copy = b.disk (s.table e).inum := by
  rw [← reads.disk]
  exact (reads.cache.lock (some p)).loaded_copy used

theorem Reads.ilock (reads : Reads b s h) {Q : Unit → State → Prop}
    (after : ∀ t, Reads b t h → (∀ e', (t.table e').inum = (s.table e').inum) →
      (t.table e).valid → (t.table e).copy = b.disk (s.table e).inum → Q () t) : Does p Q (ilock e) s := by
  refine does_ilock reads.cache fun used typed => ?_
  exact after _ (reads.locked used typed) (locked_inum s _ e) (loaded_valid _ e) (reads.locked_copy used)

section

variable (base : Base b) (reads : Reads b s h)

include base reads

theorem Base.put (held : 1 ≤ h e) (reach : Reach b (s.table e).inum) :
    Does p (fun _ t => Reads b t (h - mine e) ∧ ∀ e', (t.table e').inum = (s.table e').inum) (iput e) s :=
  does_iput_kept (base.notLast reads held reach) ⟨reads.drop held, fun e' => (addRef_same s e e' (-1)).inum⟩

theorem Base.unlockPut (held : 1 ≤ h e) (reach : Reach b (s.table e).inum) :
    Does p (fun _ t => Reads b t (h - mine e) ∧ ∀ e', (t.table e').inum = (s.table e').inum) (iunlockput e) s :=
  does_iunlockput_kept (base.notLast reads held reach)
    ⟨(reads.lock none).drop held, fun e' => (addRef_same _ e e' (-1)).inum⟩

end

structure At (b s : State) (e : Entry) : Prop extends Reads b s (mine e) where
  reach : Reach b (s.table e).inum

theorem At.used (here : At b s e) : 0 < (s.table e).ref := here.positive (mine_held e)

theorem At.ilock (here : At b s e) {Q : Unit → State → Prop}
    (after : ∀ t, At b t e → (t.table e).copy = b.disk (t.table e).inum → (t.table e).copy.type ≠ 0 →
      (t.table e).inum = (s.table e).inum → Q () t) : Does p Q (ilock e) s := by
  refine here.toReads.ilock fun t reads same valid copy => ?_
  rw [← same e] at copy
  have reach : Reach b (t.table e).inum := by
    rw [same e]
    exact here.reach
  have typed := reads.cache.typed e (reads.positive (mine_held e)) valid
  rw [reads.disk, ← copy] at typed
  exact after t ⟨reads, reach⟩ copy typed (same e)

theorem At.lookup_none (here : At b s e) (copy : (s.table e).copy = b.disk (s.table e).inum)
    (missing : ∀ i, i < slotCount (s.table e).copy.size → ¬ s.names (s.table e).inum i name) :
    b.lookup (s.table e).inum name = none := by
  refine Fs.lookup_none fun i range => ?_
  rw [State.names, ← here.slots]
  exact missing i (by rwa [copy])

theorem At.lookup_some (here : At b s e) (copy : (s.table e).copy = b.disk (s.table e).inum) {i : Nat}
    (range : i < slotCount (s.table e).copy.size) (names : s.names (s.table e).inum i name)
    (first : ∀ j < i, ¬ s.names (s.table e).inum j name) :
    b.lookup (s.table e).inum name = some (s.slots (s.table e).inum i).inum := by
  rw [copy] at range
  rw [here.slots]
  refine Fs.lookup_some range ?_ fun j less => ?_
  · rw [State.names, ← here.slots]
    exact names
  · rw [State.names, ← here.slots]
    exact first j less

theorem mine_gone (e : Entry) : mine e - mine e = 0 := sub_self _

theorem Base.putAt (base : Base b) (here : At b s e) : Does p (fun _ t => Reads b t 0) (iput e) s := by
  have dropped := base.put (p := p) here.toReads (mine_held e) here.reach
  rw [mine_gone] at dropped
  exact dropped.mono fun _ _ after => after.1

theorem Base.unlockPutAt (base : Base b) (here : At b s e) : Does p (fun _ t => Reads b t 0) (iunlockput e) s := by
  have dropped := base.unlockPut (p := p) here.toReads (mine_held e) here.reach
  rw [mine_gone] at dropped
  exact dropped.mono fun _ _ after => after.1

structure Below (b s : State) (dp ip : Entry) : Prop extends Reads b s (mine dp + mine ip) where
  upper : Reach b (s.table dp).inum
  lower : Reach b (s.table ip).inum

theorem At.below (here : At b s dp) (copy : (s.table dp).copy = b.disk (s.table dp).inum) {i : Nat}
    (type : (s.table dp).copy.type = T_DIR) (range : i < slotCount (s.table dp).copy.size)
    (names : s.names (s.table dp).inum i name) (taken : s.iget (s.slots (s.table dp).inum i).inum = .ok (e, t)) :
    Below b t dp e := by
  rw [copy] at type range
  refine ⟨here.toReads.get taken, ?_, ?_⟩
  · rw [(iget_same taken here.used).inum]
    exact here.reach
  · rw [iget_inum taken, here.slots]
    refine .slot here.reach type range ?_
    rw [← here.slots]
    exact names.1

theorem below_held (dp e : Entry) : 1 ≤ (mine dp + mine e) dp ∧ 1 ≤ (mine dp + mine e) e := by
  have := mine_nonneg e dp
  have := mine_nonneg dp e
  rw [Pi.add_apply, Pi.add_apply, mine_self, mine_self]
  omega

theorem Base.down (base : Base b) (below : Below b s dp e) :
    Does p (fun _ t => At b t e ∧ (t.table e).inum = (s.table e).inum) (iunlockput dp) s := by
  refine (base.unlockPut below.toReads (below_held dp e).1 below.upper).mono fun _ t after => ⟨⟨?_, ?_⟩, after.2 e⟩
  · rw [← add_sub_cancel_left (mine dp) (mine e)]
    exact after.1
  · rw [after.2]
    exact below.lower

theorem Base.up (base : Base b) (below : Below b s dp e) : Does p (fun _ t => At b t dp) (iunlockput e) s := by
  refine (base.unlockPut below.toReads (below_held dp e).2 below.lower).mono fun _ t after => ⟨?_, ?_⟩
  · rw [← add_sub_cancel_right (mine dp) (mine e)]
    exact after.1
  · rw [after.2]
    exact below.upper

def Found (b : State) (parent : Bool) (answer : Option (Nat × Name)) : Option (Entry × Name) → State → Prop
  | none, t => answer = none ∧ Reads b t 0
  | some (e, name), t => answer = some ((t.table e).inum, name) ∧ At b t e ∧ (parent → (b.disk (t.table e).inum).type = T_DIR)

theorem Base.walkFrom (base : Base b) (parent : Bool) (elems : List Name) (name : Name) (here : At b s e) :
    Does p (Found b parent (b.walk parent (s.table e).inum name elems)) (namexFrom parent e name elems) s := by
  induction elems generalizing s e name with
  | nil =>
    unfold namexFrom State.walk
    split_ifs with wanted
    · exact (base.putAt here).bind fun _ t after => ⟨rfl, after⟩
    · exact ⟨rfl, here, fun yes => absurd yes wanted⟩
  | cons elem rest ih =>
    rw [State.walk]
    refine here.ilock fun t here copy _ same => ?_
    rw [← same]
    refine does_next rfl ?_
    rw [copy]
    split_ifs with file last
    · exact (base.unlockPutAt here).bind fun _ t after => ⟨rfl, after⟩
    · exact does_iunlock ⟨rfl, ⟨here.lock none, here.reach⟩, fun _ => not_not.mp file⟩
    · rw [does_bind]
      refine does_dirlookup (fun _ missing => ?_) fun i ip u type range names first taken => ?_
      · rw [here.lookup_none copy missing]
        exact (base.unlockPutAt here).bind fun _ t after => ⟨rfl, after⟩
      · rw [here.lookup_some copy range names first, ← iget_inum taken]
        refine (base.down (here.below copy type range names taken)).bind fun _ v after => ?_
        rw [Option.bind_some, ← after.2]
        exact ih elem after.1

/-- What `namex` finds for process `p`. -/
def State.seek (b : State) (p : Slot) (path : Path) (parent : Bool) : Option (Nat × Name) :=
  (if path.head? = some slash then some ROOTINO else (b.proc p).cwd.map fun e => (b.table e).inum).bind
    (b.walk parent · [] (elements path))

theorem Base.walk (base : Base b) (reads : Reads b s 0) (path : Path) (parent : Bool) :
    Does p (Found b parent (b.seek p path parent)) (namex path parent) s := by
  unfold namex State.seek
  split_ifs with absolute
  · refine does_iget fun e t taken => ?_
    rw [Option.bind_some, ← iget_inum taken]
    refine base.walkFrom parent _ _ ⟨?_, ?_⟩
    · rw [← zero_add (mine e)]
      exact reads.get taken
    · rw [iget_inum taken]
      exact .root
  · rw [← reads.proc]
    cases cwd : (s.proc p).cwd with
    | none =>
      have trap : (perform p .cwd).run s = .error (.panic .kerneltrap) := by
        simp only [perform, StateT.run, cwd]
      exact does_stop trap
    | some e =>
      refine does_ok (x := e) (t := s) (by simp only [perform, StateT.run, cwd]) ?_
      have based : 0 < (b.table e).ref := by
        rw [reads.proc] at cwd
        exact base.cwd p e cwd
      have used : 0 < (s.table e).ref := by
        rw [reads.refs e]
        exact Int.add_pos_of_pos_of_nonneg based (Int.le_refl 0)
      have inum : ((s.addRef e 1).table e).inum = (b.table e).inum := by rw [(addRef_same s e e 1).inum, reads.kept e based]
      rw [Option.map_some, Option.bind_some, ← inum]
      refine does_next rfl (base.walkFrom parent _ _ ⟨?_, ?_⟩)
      · rw [← zero_add (mine e)]
        exact ⟨reads.toHolds.add used, reads.disk, reads.slots⟩
      · rw [inum]
        exact .entry e based

end

end Xv6.Fs
