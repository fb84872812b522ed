import Xv6.Fs.Calls

namespace Xv6.Fs
open Lib Function

/-! ## One call at a time

A process runs a call while no other process does anything. -/

/-- If `m` returns, then as `Q` says. -/
def Does (p : Slot) {α : Type} (Q : α → State → Prop) (m : Op α) (s : State) : Prop :=
  Goes (perform p) (fun _ => True) Q m s

section
variable {p : Slot} {α β : Type} {b s t : State} {e e' : Entry} {Q R : α → State → Prop} {r : Req} {x : Answer r}
  {stop : Stop}

@[simp] theorem does_pure (a : α) : Does p Q (pure a) s ↔ Q a s := Iff.rfl

theorem does_bind {Q : β → State → Prop} (m : Op α) (f : α → Op β) :
    Does p Q (m >>= f) s ↔ Does p (fun a => Does p Q (f a)) m s :=
  iff_of_eq (congrFun (goes_bind m f) s)

theorem Does.mono {m : Op α} (does : Does p Q m s) (weaker : ∀ a t, Q a t → R a t) : Does p R m s :=
  Goes.mono does weaker

theorem Does.bind {Q : β → State → Prop} {m : Op α} {f : α → Op β} (first : Does p R m s)
    (rest : ∀ a t, R a t → Does p Q (f a) t) : Does p Q (m >>= f) s :=
  Goes.bind first rest

theorem does_ok {Q : Answer r → State → Prop} (taken : (perform p r).run s = .ok (x, t))
    (after : Q x t) : Does p Q (ask r) s := goes_ok taken after

theorem does_next {Q : β → State → Prop} {f : Answer r → Op β}
    (taken : (perform p r).run s = .ok (x, t)) (rest : Does p Q (f x) t) : Does p Q (ask r >>= f) s := goes_next taken rest

theorem does_stop {Q : Answer r → State → Prop} (taken : (perform p r).run s = .error stop) : Does p Q (ask r) s :=
  goes_stop taken trivial

theorem does_panic {why : Panic} : Does p Q (panic why) s := does_stop rfl

theorem does_anything (m : Op α) (s : State) : Does p (fun _ _ => True) m s := by
  induction m generalizing s with
  | ret a => trivial
  | ask r k ih =>
    rw [Does, Goes, ends]
    cases (perform p r).run s with
    | error stop => trivial
    | ok result => exact ih _ _

/-! ## The inode table -/

structure Cache (s : State) : Prop where
  nonneg : ∀ e, 0 ≤ (s.table e).ref
  unique : ∀ e e', 0 < (s.table e).ref → 0 < (s.table e').ref → (s.table e').inum = (s.table e).inum → e' = e
  copy : ∀ e, 0 < (s.table e).ref → (s.table e).valid → (s.table e).copy = s.disk (s.table e).inum
  typed : ∀ e, 0 < (s.table e).ref → (s.table e).valid → (s.disk (s.table e).inum).type ≠ 0

def mine (e : Entry) : Entry → Int := Pi.single e 1

theorem mine_self (e : Entry) : mine e e = 1 := Pi.single_eq_same ..

theorem mine_held (e : Entry) : 1 ≤ mine e e := Int.le_of_eq (mine_self e).symm

theorem mine_other {e e' : Entry} (other : e' ≠ e) : mine e e' = 0 := Pi.single_eq_of_ne other ..

theorem mine_nonneg (e e' : Entry) : 0 ≤ mine e e' := by
  by_cases here : e' = e
  · rw [here, mine_self]
    exact Int.one_nonneg
  · exact Int.le_of_eq (mine_other here).symm

structure Holds (b s : State) (h : Entry → Int) : Prop where
  base : ∀ e, 0 ≤ (b.table e).ref
  refs : ∀ e, (s.table e).ref = (b.table e).ref + h e
  kept : ∀ e, 0 < (b.table e).ref → (s.table e).inum = (b.table e).inum
  filled : ∀ e, 0 < (b.table e).ref → (b.table e).valid → (s.table e).valid
  nonneg : ∀ e, 0 ≤ h e
  ninodes : s.ninodes = b.ninodes
  file : s.file = b.file
  proc : s.proc = b.proc
  cache : Cache s

structure Reads (b s : State) (h : Entry → Int) : Prop extends Holds b s h where
  disk : s.disk = b.disk
  slots : s.slots = b.slots

theorem Holds.refl (cache : Cache b) : Holds b b 0 :=
  ⟨cache.nonneg, fun _ => (add_zero _).symm, fun _ _ => rfl, fun _ _ valid => valid, fun _ => Int.le_refl 0, rfl, rfl,
    rfl, cache⟩

theorem Reads.refl (cache : Cache b) : Reads b b 0 := ⟨.refl cache, rfl, rfl⟩

variable {h h' : Entry → Int} {Q : Unit → State → Prop} {inum : Nat} {E : Stop → Prop}

theorem Holds.trans (first : Holds b s h) (second : Holds s t h') : Holds b t (h + h') := by
  have held (e : Entry) (used : 0 < (b.table e).ref) : 0 < (s.table e).ref := by
    rw [first.refs e]
    have := first.nonneg e
    omega
  refine ⟨first.base, ?_, ?_, ?_, ?_, second.ninodes.trans first.ninodes, second.file.trans first.file,
    second.proc.trans first.proc, second.cache⟩
  · intro e
    rw [second.refs, first.refs, Pi.add_apply, add_assoc]
  · intro e used
    rw [second.kept e (held e used), first.kept e used]
  · exact fun e used valid => second.filled e (held e used) (first.filled e used valid)
  · exact fun e => Int.add_nonneg (first.nonneg e) (second.nonneg e)

theorem Holds.positive (holds : Holds b s h) (held : 1 ≤ h e) : 0 < (s.table e).ref := by
  have used := holds.refs e
  have base := holds.base e
  omega

structure SameEntry (v u : Inode) : Prop where
  inum : u.inum = v.inum
  valid : u.valid = v.valid
  copy : u.copy = v.copy

theorem setEntry_table (s : State) (e e' : Entry) (v : Inode) :
    (s.setEntry e v).table e' = if e' = e then v else s.table e' := by
  simp only [State.setEntry, update_apply]

theorem addRef_ref (s : State) (e e' : Entry) (n : Int) :
    ((s.addRef e n).table e').ref = (s.table e').ref + if e' = e then n else 0 := by
  grind [State.addRef, setEntry_table]

theorem addRef_same (s : State) (e e' : Entry) (n : Int) : SameEntry (s.table e') ((s.addRef e n).table e') := by
  rw [State.addRef, setEntry_table]
  split_ifs with here
  · subst here
    exact ⟨rfl, rfl, rfl⟩
  · exact ⟨rfl, rfl, rfl⟩

theorem Cache.lock (cache : Cache s) (l : Option Slot) : Cache (s.setLock e l) :=
  ⟨cache.nonneg, cache.unique, cache.copy, cache.typed⟩

theorem Holds.lock (holds : Holds b s h) (l : Option Slot) : Holds b (s.setLock e l) h :=
  ⟨holds.base, holds.refs, holds.kept, holds.filled, holds.nonneg, holds.ninodes, holds.file, holds.proc,
    holds.cache.lock l⟩

theorem Holds.outstanding (holds : Holds b s h) (n : Int) : Holds b { s with outstanding := n } h :=
  ⟨holds.base, holds.refs, holds.kept, holds.filled, holds.nonneg, holds.ninodes, holds.file, holds.proc,
    ⟨holds.cache.nonneg, holds.cache.unique, holds.cache.copy, holds.cache.typed⟩⟩

theorem Cache.addRef (cache : Cache s) {n : Int} (used : 0 < (s.table e).ref) (enough : 0 ≤ (s.table e).ref + n) :
    Cache (s.addRef e n) := by
  have same (e' : Entry) := addRef_same s e e' n
  have before (e' : Entry) (used' : 0 < ((s.addRef e n).table e').ref) : 0 < (s.table e').ref := by
    grind [State.addRef, setEntry_table]
  refine ⟨?_, ?_, ?_, ?_⟩
  · intro e'
    rw [State.addRef, setEntry_table]
    split_ifs with here
    · exact enough
    · exact cache.nonneg e'
  · intro e₁ e₂ used₁ used₂
    rw [(same e₁).inum, (same e₂).inum]
    exact cache.unique e₁ e₂ (before e₁ used₁) (before e₂ used₂)
  · intro e' used' valid
    rw [(same e').valid] at valid
    rw [(same e').inum, (same e').copy]
    exact cache.copy e' (before e' used') valid
  · intro e' used' valid
    rw [(same e').valid] at valid
    rw [(same e').inum]
    exact cache.typed e' (before e' used') valid

theorem Holds.change (holds : Holds b s h) {n : Int} (used : 0 < (s.table e).ref) (enough : 0 ≤ h e + n) (h' : Entry → Int)
    (here : h' e = h e + n) (others : ∀ e', e' ≠ e → h' e' = h e') : Holds b (s.addRef e n) h' := by
  have base := holds.base e
  have refs := holds.refs e
  refine ⟨holds.base, ?_, ?_, ?_, ?_, holds.ninodes, holds.file, holds.proc, holds.cache.addRef used (by omega)⟩
  · grind [State.addRef, setEntry_table, holds.refs]
  · intro e' based
    rw [(addRef_same s e e' n).inum]
    exact holds.kept e' based
  · intro e' based valid
    rw [(addRef_same s e e' n).valid]
    exact holds.filled e' based valid
  · intro e'
    by_cases same : e' = e
    · subst same
      omega
    · rw [others e' same]
      exact holds.nonneg e'

theorem Holds.add (holds : Holds b s h) (used : 0 < (s.table e).ref) : Holds b (s.addRef e 1) (h + mine e) := by
  have := holds.nonneg e
  refine holds.change used (by omega) _ ?_ fun e' other => ?_
  · rw [Pi.add_apply, mine_self]
  · rw [Pi.add_apply, mine_other other, add_zero]

theorem Holds.drop (holds : Holds b s h) (held : 1 ≤ h e) : Holds b (s.addRef e (-1)) (h - mine e) := by
  refine holds.change (holds.positive held) (by omega) _ ?_ fun e' other => ?_
  · rw [Pi.sub_apply, mine_self, Int.sub_eq_add_neg]
  · rw [Pi.sub_apply, mine_other other, Int.sub_zero]

/-! ## Writing an inode through to the disk -/

def State.update (s : State) (e : Entry) (d : Dinode) : State := (s.setCopy e d).iupdate e

theorem update_disk (s : State) (e : Entry) (d : Dinode) : (s.update e d).disk = update s.disk (s.table e).inum d := by
  simp only [State.update, State.iupdate, State.setDisk, State.setCopy, setEntry_table, if_pos]
  rfl

theorem update_table (s : State) (e e' : Entry) (d : Dinode) :
    (s.update e d).table e' = if e' = e then { s.table e with copy := d } else s.table e' :=
  setEntry_table s e e' _

theorem update_field {α : Type} (s : State) (e e' : Entry) (d : Dinode) (field : Inode → α)
    (blind : field { s.table e with copy := d } = field (s.table e)) : field ((s.update e d).table e') = field (s.table e') := by
  rw [update_table]
  split_ifs with here
  · rw [here, blind]
  · rfl

theorem update_inum (s : State) (e e' : Entry) (d : Dinode) : ((s.update e d).table e').inum = (s.table e').inum :=
  update_field s e e' d Inode.inum rfl

theorem update_ref (s : State) (e e' : Entry) (d : Dinode) : ((s.update e d).table e').ref = (s.table e').ref :=
  update_field s e e' d Inode.ref rfl

theorem update_valid (s : State) (e e' : Entry) (d : Dinode) : ((s.update e d).table e').valid = (s.table e').valid :=
  update_field s e e' d Inode.valid rfl

theorem Cache.update (cache : Cache s) {d : Dinode} (used : 0 < (s.table e).ref) (typed : d.type ≠ 0) :
    Cache (s.update e d) := by
  have other (e' : Entry) (used' : 0 < (s.table e').ref) (there : e' ≠ e) : (s.table e').inum ≠ (s.table e).inum :=
    fun same => there (cache.unique e e' used used' same)
  refine ⟨?_, ?_, ?_, ?_⟩
  · intro e'
    rw [update_ref]
    exact cache.nonneg e'
  · grind [update_ref, update_inum, cache.unique]
  · intro e'
    rw [update_ref, update_valid, update_inum, update_disk, update_table]
    intro used' valid
    split_ifs with here
    · rw [here, update_self]
    · grind [cache.copy]
  · intro e'
    rw [update_ref, update_valid, update_inum, update_disk]
    intro used' valid
    by_cases here : e' = e
    · rw [here, update_self]
      exact typed
    · grind [cache.typed]

theorem Holds.update (holds : Holds b s h) {d : Dinode} (used : 0 < (s.table e).ref) (typed : d.type ≠ 0) :
    Holds b (s.update e d) h := by
  refine ⟨holds.base, ?_, ?_, ?_, holds.nonneg, holds.ninodes, holds.file, holds.proc, holds.cache.update used typed⟩
  · intro e'
    rw [update_ref]
    exact holds.refs e'
  · intro e' based
    rw [update_inum]
    exact holds.kept e' based
  · intro e' based valid
    rw [update_valid]
    exact holds.filled e' based valid

/-! ## `iget` -/

section

variable (taken : s.iget inum = .ok (e, t))

include taken

theorem iget_cases :
    (0 < (s.table e).ref ∧ (s.table e).inum = inum ∧ t = s.addRef e 1) ∨
    ((s.table e).ref = 0 ∧ (∀ e', 0 < (s.table e').ref → (s.table e').inum ≠ inum) ∧
      t = s.setEntry e { s.table e with inum := inum, ref := 1, valid := false }) := by
  unfold State.iget at taken
  cases found : s.findEntry inum with
  | some e₁ =>
    simp only [found] at taken
    cases taken
    have here := List.find?_some found
    simp only [Bool.and_eq_true, decide_eq_true_eq, beq_iff_eq] at here
    exact .inl ⟨here.1, here.2, rfl⟩
  | none =>
    have missing (e' : Entry) (used : 0 < (s.table e').ref) : (s.table e').inum ≠ inum := by
      have no := List.find?_eq_none.mp found e' (List.mem_finRange e')
      simpa [used] using no
    simp only [found] at taken
    cases free : s.findFree with
    | none => simp [free] at taken
    | some e₁ =>
      simp only [free] at taken
      cases taken
      have here := List.find?_some free
      exact .inr ⟨by simpa using here, missing, rfl⟩

theorem iget_same (used : 0 < (s.table e').ref) : SameEntry (s.table e') (t.table e') := by
  rcases iget_cases taken with ⟨_, _, rfl⟩ | ⟨zero, _, rfl⟩
  · exact addRef_same s e e' 1
  · rw [setEntry_table, if_neg]
    · exact ⟨rfl, rfl, rfl⟩
    · rintro rfl
      omega

theorem iget_inum : (t.table e).inum = inum := by
  rcases iget_cases taken with ⟨_, here, rfl⟩ | ⟨_, _, rfl⟩
  · rw [(addRef_same s e e 1).inum, here]
  · rw [setEntry_table, if_pos rfl]

theorem iget_image : t.disk = s.disk ∧ t.slots = s.slots := by
  rcases iget_cases taken with ⟨_, _, rfl⟩ | ⟨_, _, rfl⟩ <;> exact ⟨rfl, rfl⟩

end

theorem Cache.take (cache : Cache s) (missing : ∀ e', 0 < (s.table e').ref → (s.table e').inum ≠ inum) :
    Cache (s.setEntry e { s.table e with inum := inum, ref := 1, valid := false }) := by
  refine ⟨?_, ?_, ?_, ?_⟩
  · intro e'
    rw [setEntry_table]
    split_ifs
    · exact Int.one_nonneg
    · exact cache.nonneg e'
  · grind [setEntry_table, cache.unique]
  · intro e'
    rw [setEntry_table]
    split_ifs
    · exact fun _ valid => nomatch valid
    · exact cache.copy e'
  · intro e'
    rw [setEntry_table]
    split_ifs
    · exact fun _ valid => nomatch valid
    · exact cache.typed e'

theorem Holds.get (holds : Holds b s h) (taken : s.iget inum = .ok (e, t)) : Holds b t (h + mine e) := by
  rcases iget_cases taken with ⟨used, _, rfl⟩ | ⟨zero, missing, rfl⟩
  · exact holds.add used
  · have unused : (b.table e).ref = 0 ∧ h e = 0 := by
      have := holds.base e
      have := holds.nonneg e
      have := holds.refs e
      omega
    have other (e' : Entry) (based : 0 < (b.table e').ref) : e' ≠ e := by
      rintro rfl
      omega
    refine ⟨holds.base, ?_, ?_, ?_, ?_, holds.ninodes, holds.file, holds.proc, holds.cache.take missing⟩
    · intro e'
      rw [setEntry_table, Pi.add_apply]
      split_ifs with here
      · subst here
        rw [mine_self, unused.1, unused.2]
        rfl
      · rw [mine_other here, add_zero]
        exact holds.refs e'
    · intro e' based
      rw [setEntry_table, if_neg (other e' based)]
      exact holds.kept e' based
    · intro e' based
      rw [setEntry_table, if_neg (other e' based)]
      exact holds.filled e' based
    · intro e'
      have := holds.nonneg e'
      have := mine_nonneg e e'
      rw [Pi.add_apply]
      omega

theorem Reads.get (reads : Reads b s h) (taken : s.iget inum = .ok (e, t)) : Reads b t (h + mine e) :=
  ⟨reads.toHolds.get taken, (iget_image taken).1.trans reads.disk, (iget_image taken).2.trans reads.slots⟩

theorem iget_stop (taken : s.iget inum = .error stop) : stop = .panic .igetNoInodes ∧ ∀ e, (s.table e).ref ≠ 0 := by
  unfold State.iget at taken
  split at taken
  · cases taken
  · split at taken
    next free =>
      cases taken
      refine ⟨rfl, fun e zero => ?_⟩
      have no := List.find?_eq_none.mp free e (List.mem_finRange e)
      simp [zero] at no
    next => cases taken

theorem does_iget {made : Bool} {Q : Entry → State → Prop} (after : ∀ e t, s.iget inum = .ok (e, t) → Q e t) :
    Does p Q (ask (.iget inum made)) s := by
  cases taken : s.iget inum with
  | error stop => exact does_stop taken
  | ok result => exact does_ok taken (after result.1 result.2 taken)

/-! ## `ilock` and `iput` -/

def State.loaded (s : State) (e : Entry) : State :=
  if (s.table e).valid then s
  else s.setEntry e { s.table e with copy := s.disk (s.table e).inum, valid := true }

theorem loaded_image (s : State) (e : Entry) : (s.loaded e).disk = s.disk ∧ (s.loaded e).slots = s.slots := by
  unfold State.loaded
  split_ifs <;> exact ⟨rfl, rfl⟩

theorem loaded_inum (s : State) (e e' : Entry) : ((s.loaded e).table e').inum = (s.table e').inum := by
  grind [State.loaded, setEntry_table]

theorem loaded_ref (s : State) (e e' : Entry) : ((s.loaded e).table e').ref = (s.table e').ref := by
  grind [State.loaded, setEntry_table]

theorem loaded_other (s : State) {e e' : Entry} (other : e' ≠ e) : (s.loaded e).table e' = s.table e' := by
  unfold State.loaded
  split_ifs with valid
  · rfl
  · rw [setEntry_table, if_neg other]

theorem loaded_valid (s : State) (e : Entry) : ((s.loaded e).table e).valid = true := by
  unfold State.loaded
  split_ifs with valid
  · exact valid
  · rw [setEntry_table, if_pos rfl]

theorem Cache.loaded_copy (cache : Cache s) (used : 0 < (s.table e).ref) :
    ((s.loaded e).table e).copy = s.disk (s.table e).inum := by
  unfold State.loaded
  split_ifs with valid
  · exact cache.copy e used valid
  · rw [setEntry_table, if_pos rfl]

theorem Cache.loaded (cache : Cache s) (used : 0 < (s.table e).ref) (typed : (s.disk (s.table e).inum).type ≠ 0) :
    Cache (s.loaded e) := by
  have image := loaded_image s e
  refine ⟨?_, ?_, ?_, ?_⟩
  · intro e'
    rw [loaded_ref]
    exact cache.nonneg e'
  · grind [loaded_ref, loaded_inum, cache.unique]
  · grind [loaded_inum, cache.loaded_copy, loaded_other, cache.copy]
  · grind [loaded_inum, typed, loaded_other]

theorem Holds.loaded (holds : Holds b s h) (used : 0 < (s.table e).ref) (typed : (s.disk (s.table e).inum).type ≠ 0) :
    Holds b (s.loaded e) h := by
  have frame : (s.loaded e).ninodes = s.ninodes ∧ (s.loaded e).file = s.file ∧ (s.loaded e).proc = s.proc := by
    unfold State.loaded
    split_ifs <;> exact ⟨rfl, rfl, rfl⟩
  refine ⟨holds.base, ?_, ?_, ?_, holds.nonneg, frame.1.trans holds.ninodes, frame.2.1.trans holds.file,
    frame.2.2.trans holds.proc, holds.cache.loaded used typed⟩
  · intro e'
    rw [loaded_ref]
    exact holds.refs e'
  · intro e' based
    rw [loaded_inum]
    exact holds.kept e' based
  · grind [loaded_valid, loaded_other, holds.filled]

def State.locked (s : State) (p : Slot) (e : Entry) : State := (s.setLock e (some p)).loaded e

theorem Holds.locked (holds : Holds b s h) (used : 0 < (s.table e).ref)
    (typed : (s.disk (s.table e).inum).type ≠ 0) : Holds b (s.locked p e) h :=
  (holds.lock (some p)).loaded used typed

theorem goes_ilock (used : 0 < (s.table e).ref) (free : s.lock e = none) (typed : (s.disk (s.table e).inum).type ≠ 0)
    (after : Q () (s.locked p e)) : Goes (perform p) E Q (ilock e) s := by
  refine goes_next (x := ()) (t := s.setLock e (some p)) ((if_neg (by omega)).trans (if_pos free)) ?_
  refine goes_ok (x := ()) (t := s.locked p e) ?_ after
  by_cases valid : (s.table e).valid = true
  · simp only [perform, StateT.run, State.fill, State.locked, State.loaded, State.setLock, valid, if_true]
  · simp [perform, StateT.run, State.fill, State.locked, State.loaded, State.setLock, valid, typed]

theorem does_ilock (cache : Cache s) (after : 0 < (s.table e).ref → (s.disk (s.table e).inum).type ≠ 0 → Q () (s.locked p e)) :
    Does p Q (ilock e) s := by
  by_cases unused : (s.table e).ref < 1
  · exact (does_bind _ _).mpr (does_stop (if_pos unused))
  have used : 0 < (s.table e).ref := by omega
  by_cases free : s.lock e = none
  swap
  · exact (does_bind _ _).mpr (does_stop ((if_neg unused).trans (if_neg free)))
  by_cases typed : (s.disk (s.table e).inum).type = 0
  · have empty : (s.table e).valid ≠ true := fun valid => cache.typed e used valid typed
    have stops : (perform p (.fill e)).run (s.setLock e (some p)) = .error (.panic .noType) := by
      simp [perform, StateT.run, State.fill, State.setLock, empty, typed]
    exact does_next (x := ()) ((if_neg unused).trans (if_pos free)) (does_stop stops)
  · exact goes_ilock used free typed (after used typed)

theorem goes_iunlock (held : s.lock e = some p) (used : 0 < (s.table e).ref) (after : Q () (s.setLock e none)) :
    Goes (perform p) E Q (iunlock e) s :=
  goes_ok (if_pos ⟨held, used⟩) after

theorem does_iunlock (after : Q () (s.setLock e none)) : Does p Q (iunlock e) s := by
  by_cases held : s.lock e = some p ∧ (s.table e).ref ≥ 1
  · exact does_ok (if_pos held) after
  · exact does_stop (if_neg held)

def Last (s : State) (e : Entry) : Prop :=
  (s.table e).ref = 1 ∧ (s.table e).valid ∧ (s.table e).copy.nlink = 0

theorem goes_iput_kept (more : ¬ Last s e) (after : Q () (s.addRef e (-1))) : Goes (perform p) E Q (iput e) s := by
  refine goes_next (x := false) (if_neg more) ?_
  exact after

theorem does_iput_kept (more : ¬ Last s e) (after : Q () (s.addRef e (-1))) :
    Does p Q (iput e) s := goes_iput_kept more after

theorem does_iunlockput_kept (more : ¬ Last s e) (after : Q () ((s.setLock e none).addRef e (-1))) :
    Does p Q (iunlockput e) s := by
  exact does_iunlock (does_iput_kept more after)

end

end Xv6.Fs
