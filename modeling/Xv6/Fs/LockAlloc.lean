import Xv6.Fs.LockEntries

namespace Xv6.Fs
open Lib Function

/-! ## Requests that change the type of an inode -/

structure Retyped (s t : State) (inum : Nat) : Prop where
  disk : ∀ n, n ≠ inum → t.disk n = s.disk n
  slots : t.slots = s.slots
  lock : t.lock = s.lock
  table : t.table = s.table
  file : t.file = s.file
  ninodes : t.ninodes = s.ninodes

def Ageing (a a' : Ages) (s t : State) : Prop :=
  ∀ m n, (s.disk m).type = T_DIR → ((s.disk n).type = T_DIR → a.birth m < a.birth n) →
    (t.disk n).type = T_DIR → a'.birth m < a'.birth n

section
variable {a a' : Ages} {s t : State} {held : Slot → Held × Stage} {p : Slot} {h h' : Held} {k : Know} {e : Entry}
  {inum : Nat}

section

variable (retyped : Retyped s t inum)

include retyped

theorem Retyped.same (e : Entry) : Same s t e :=
  ⟨congrFun retyped.lock e, by rw [retyped.table], by rw [retyped.table], congrFun retyped.slots _⟩

theorem Retyped.kind (other : (s.table e).inum ≠ inum) : t.kind e = s.kind e := by
  rw [State.kind, retyped.table, retyped.disk _ other]
  rfl

theorem Retyped.tables (tables : Tables s)
    (other : ∀ e, s.lock e = none → 0 < (s.table e).ref → (s.table e).valid = true → (s.table e).inum ≠ inum) : Tables t := by
  refine ⟨?_, ?_, ?_, ?_⟩
  · rw [retyped.table]
    exact tables.unique
  · intro e free used valid
    rw [retyped.lock] at free
    rw [retyped.table] at used valid
    refine (tables.faithful e free used valid).across (retyped.kind (other e free used valid)) ?_
    rw [retyped.table]
  · rw [retyped.table]
    exact tables.small
  · rw [retyped.ninodes]
    exact tables.ninodes

theorem Retyped.opened (opened : Opened s)
    (other : ∀ f, (s.file f).OfInode → (s.table (s.file f).ip).inum ≠ inum) : Opened t := by
  intro f stands
  rw [retyped.file] at stands ⊢
  rw [retyped.kind (other f stands)]
  exact opened f stands

variable {stage : Stage}

theorem Retyped.ignorant (before : Ignorant s e stage) : Ignorant t e stage := by
  refine ⟨before.type, before.next, ?_⟩
  rw [retyped.table]
  exact before.made

theorem Retyped.holdsFile {f : FileId} (holds : Fact.Holds a s p h (.file f e)) : Fact.Holds a' t p h (.file f e) := by
  refine ⟨holds.1, ?_⟩
  rw [retyped.file]
  exact holds.2

variable {F : Fact}

theorem Retyped.holds (ages : Ageing a a' s t) (holds : F.Holds a s p h)
    (other : (s.table F.entry).inum ≠ inum) : F.Holds a' t p h := by
  refine holds.across ?_ (retyped.kind other) ages (fun _ => retyped.same _) ?_
  · rw [retyped.table]
  · rintro f e rfl
    exact retyped.holdsFile holds

theorem Retyped.holds_free (ages : Ageing a a' s t) (holds : F.Holds a s p h)
    (free : (s.disk inum).type = 0) : F.Holds a' t p h := by
  by_cases other : (s.table F.entry).inum ≠ inum
  · exact retyped.holds ages holds other
  have zero : s.kind F.entry = 0 := by
    rw [State.kind, not_not.mp other]
    exact free
  have inum' (e : Entry) : (t.table e).inum = (s.table e).inum := by rw [retyped.table]
  have lock (e : Entry) (mine : s.lock e = some p) : t.lock e = some p := by rw [retyped.lock, mine]
  cases F with
  | type e n => exact absurd (holds.2.symm.trans zero) holds.1
  | inum e n => exact (inum' e).trans holds
  | next e n => exact absurd (holds.1.symm.trans zero) (by decide)
  | sound e =>
    refine ⟨lock e holds.1, fun valid => absurd zero (holds.2 ?_).2⟩
    rw [retyped.table] at valid
    exact valid
  | full e => exact absurd zero holds.2.2.2
  | empty e => exact ⟨lock e holds.1, holds.2.across (inum' e) (retyped.same e)⟩
  | sole e => exact absurd zero holds.2.2
  | gone e =>
    refine ⟨lock e holds.1, ?_, holds.2.2.across (inum' e) (retyped.same e)⟩
    rw [retyped.table]
    exact holds.2.1
  | void e =>
    refine ⟨lock e holds.1, ?_⟩
    rw [retyped.table]
    exact holds.2
  | file f e => exact retyped.holdsFile holds

theorem Retyped.holds_freed {q : Slot} (ages : Ageing a a' s t)
    (holds : F.Holds a s q h) (known : stage.know.knows F) (inums : F.entry ≠ e → (s.table F.entry).inum ≠ inum)
    (mine : s.lock e = some p) (other : q ≠ p) (ignorant : Ignorant s e stage) : F.Holds a' t q h := by
  by_cases different : F.entry ≠ e
  · exact retyped.holds ages holds (inums different)
  have soft : F.Soft := by
    by_contra hard
    have lock := holds.lock hard
    rw [not_not.mp different, mine] at lock
    exact other (Option.some.inj lock).symm
  have here : F.entry = e := not_not.mp different
  cases F with
  | type e' n =>
    obtain rfl : e' = e := here
    exact absurd known (ignorant.type n)
  | inum e' n =>
    change (t.table e').inum = n
    rw [retyped.table]
    exact holds
  | next e' n =>
    obtain rfl : e' = e := here
    exact absurd known (ignorant.next n)
  | file f e' => exact retyped.holdsFile holds
  | sound e' | full e' | empty e' | sole e' | gone e' | void e' => exact soft.elim

end

/-! ### `iupdate` of an inode that is freed -/

theorem Tracked.free (tracked : Tracked a s held) (here : (held p).2 = .idle k)
    (asked : k.knows (.gone e) ∧ k.knows (.sole e)) (kept : h' = (held p).1) (ledger : Books (s.iupdate e) held p h') :
    Follow (s.iupdate e) held p h' fun k' => k.To k' id id (fun F => F.entry ≠ e) (· = .gone e) := by
  subst kept
  have know := Stage.know_idle here
  have mind := tracked.know here
  obtain ⟨mine, zero, bare⟩ := mind.holds _ asked.1
  obtain ⟨nofiles, ignorant⟩ := tracked.sole p e (know ▸ asked.2)
  have used := tracked.used_by here (mind.guarded _ asked.1)
  have refers : 1 ≤ k.refs e := by
    rcases mind.guarded _ asked.1 with refers | ⟨f, known⟩
    · exact refers
    · obtain ⟨_, stands, same⟩ := mind.holds _ known
      exact absurd same (nofiles f stands)
  have retyped : Retyped s (s.iupdate e) (s.table e).inum :=
    ⟨fun n other => update_of_ne other .., rfl, rfl, rfl, rfl, rfl⟩
  have freed : ((s.iupdate e).disk (s.table e).inum).type = 0 := by
    rw [show (s.iupdate e).disk (s.table e).inum = (s.table e).copy from update_self ..]
    exact zero
  have dir {n : Nat} (type : ((s.iupdate e).disk n).type = T_DIR) : n ≠ (s.table e).inum := by
    rintro rfl
    rw [freed] at type
    cases type
  have ages : Ageing a a s (s.iupdate e) := by
    intro m n _ younger type
    rw [retyped.disk n (dir type)] at type
    exact younger type
  have inums {e' : Entry} (used' : 0 < (s.table e').ref) (other : e' ≠ e) : (s.table e').inum ≠ (s.table e).inum :=
    fun equal => other (tracked.tables.unique e' e used' used equal)
  refine ⟨a, _, tracked.step (.idle (k.next id id (fun F => F.entry ≠ e) (· = .gone e))) ledger ?_ ?_ ?_ ?_ nofun
    ?_ ?_ ?_ ?_ ?_, Know.to_next⟩
  · grind [retyped.tables, tracked.tables]
  · refine ⟨fun n type => ?_, fun n type => ?_, fun n type i => ?_⟩
    · by_cases same : n = (s.table e).inum
      · subst same
        exact bare
      · rw [retyped.disk n same] at type
        exact tracked.ordered.free n type
    · rw [retyped.disk n (dir type)] at type
      exact tracked.ordered.small n type
    · intro named plain
      rw [retyped.disk n (dir type)] at type
      exact ages n _ type (tracked.ordered.order n type i named plain)
  · exact retyped.opened tracked.opened fun f stands => inums (tracked.file_used stands) (nofiles f stands)
  · refine mind.next mind.refs.symm rfl mind.nonneg mind.locks ?_ ?_ ?_
    · intro e' member
      rcases mind.locked e' member with refers' | ⟨f, known⟩
      · exact .inl refers'
      · obtain ⟨_, stands, same⟩ := mind.holds _ known
        exact .inr ⟨f, .inl ⟨known, same ▸ nofiles f stands⟩⟩
    · intro F known other
      refine ⟨?_, retyped.holds ages (mind.holds F known) (inums (tracked.used_by here (mind.guarded F known)) other)⟩
      rcases mind.guarded F known with refers' | ⟨f, known'⟩
      · exact .inl refers'
      · exact .inr ⟨f, .inl ⟨known', other⟩⟩
    · rintro F rfl
      exact ⟨.inl refers, mine, zero, bare⟩
  · rintro e' (⟨known, _⟩ | learning) q other
    · exact retyped.ignorant ((tracked.sole p e' (know ▸ known)).2 q other)
    · cases learning
  · intro q other
    refine (tracked.mind q).away (fun _ => Iff.rfl) fun F known => ?_
    exact retyped.holds_freed ages ((tracked.mind q).holds F known) known
      (inums (tracked.used ((tracked.mind q).guarded F known))) mine other (ignorant q other)
  · intro q k' n type other made
    rw [retyped.disk]
    rintro rfl
    exact (ignorant q other).made k' type made
  · intro q e' other known
    have before := (tracked.sole q e' known).2 p (Ne.symm other)
    rw [here] at before
    refine ⟨rfl, ⟨?_, ?_, nofun⟩⟩
    · rintro type (⟨old, _⟩ | new)
      · exact before.type type old
      · cases new
    · rintro n (⟨old, _⟩ | new)
      · exact before.next n old
      · cases new
  · refine tracked.sole_files fun e' known => ?_
    rcases known with ⟨known, _⟩ | learning
    · exact know ▸ known
    · cases learning

/-! ### `ialloc` -/

def Ages.bear (a : Ages) (inum : Nat) : Ages where
  birth := update a.birth inum a.clock
  clock := a.clock + 1
  past n := by
    by_cases same : n = inum
    · rw [same, update_self]
      exact Nat.lt_succ_self _
    · rw [update_of_ne same]
      exact Nat.lt_succ_of_lt (a.past n)

theorem bear_new (a : Ages) {m : Nat} (other : m ≠ inum) : (a.bear inum).birth m < (a.bear inum).birth inum := by
  change update a.birth inum a.clock m < update a.birth inum a.clock inum
  rw [update_self, update_of_ne other]
  exact a.past m

theorem bear_old (a : Ages) {m n : Nat} (first : m ≠ inum) (second : n ≠ inum) :
    (a.bear inum).birth m < (a.bear inum).birth n ↔ a.birth m < a.birth n := by
  change update a.birth inum a.clock m < update a.birth inum a.clock n ↔ _
  rw [update_of_ne first, update_of_ne second]

theorem Tracked.allocate {type : Int} (tracked : Tracked a s held) (here : (held p).2 = .idle k) (typed : type ≠ 0)
    (free : (s.disk inum).type = 0) (kept : h' = (held p).1) (ledger : Books (s.setDisk inum ⟨type, 0, 0, 0, 0⟩) held p h') :
    ∃ a' k', Tracked a' (s.setDisk inum ⟨type, 0, 0, 0, 0⟩) (update held p (h', .made k' inum type)) ∧
      k.Learns k' fun F => ∃ dp, k.knows (.type dp T_DIR) ∧ F = .next dp inum := by
  subst kept
  have know := Stage.know_idle here
  have mind := tracked.know here
  have retyped : Retyped s (s.setDisk inum ⟨type, 0, 0, 0, 0⟩) inum :=
    ⟨fun n other => update_of_ne other .., rfl, rfl, rfl, rfl, rfl⟩
  have new : (s.setDisk inum ⟨type, 0, 0, 0, 0⟩).disk inum = ⟨type, 0, 0, 0, 0⟩ := update_self ..
  have other {n : Nat} (used : (s.disk n).type ≠ 0) : n ≠ inum := by
    rintro rfl
    exact used free
  have dir {n : Nat} (kind : (s.disk n).type = T_DIR) : n ≠ inum := by
    refine other ?_
    rw [kind]
    decide
  have ages : Ageing a (a.bear inum) s (s.setDisk inum ⟨type, 0, 0, 0, 0⟩) := by
    intro m n kind younger kind'
    by_cases same : n = inum
    · rw [same]
      exact bear_new a (dir kind)
    · rw [retyped.disk n same] at kind'
      exact (bear_old a (dir kind) same).mpr (younger kind')
  refine ⟨a.bear inum, _, tracked.step (.made (k.next id id (fun _ => True) fun F =>
    ∃ dp, k.knows (.type dp T_DIR) ∧ F = .next dp inum) inum type) ledger ?_ ?_ ?_ ?_ ?_ ?_ ?_ ?_ ?_ ?_, Know.to_next⟩
  · exact retyped.tables tracked.tables fun e unlocked used valid => other (tracked.tables.faithful e unlocked used valid).2
  · refine ⟨fun n kind => ?_, fun n kind i => ?_, fun n kind i named plain => ?_⟩
    · have same : n ≠ inum := by
        rintro rfl
        rw [new] at kind
        exact typed kind
      rw [retyped.disk n same] at kind
      exact tracked.ordered.free n kind
    · by_cases same : n = inum
      · subst same
        rw [show ((s.setDisk n ⟨type, 0, 0, 0, 0⟩).slots n i).inum = 0 from tracked.ordered.free n free i]
        exact Nat.zero_lt_succ _
      · rw [retyped.disk n same] at kind
        exact tracked.ordered.small n kind i
    · by_cases same : n = inum
      · subst same
        exact absurd (tracked.ordered.free n free i) named
      · rw [retyped.disk n same] at kind
        exact ages n _ kind (tracked.ordered.order n kind i named plain)
  · exact retyped.opened tracked.opened fun f stands => other (tracked.opened f stands).1
  · refine mind.next mind.refs.symm rfl mind.nonneg mind.locks (fun e member => (mind.locked e member).wider) ?_ ?_
    · exact fun F known _ => ⟨(mind.guarded F known).wider, retyped.holds_free ages (mind.holds F known) free⟩
    · rintro F ⟨dp, known, rfl⟩
      have kind := (mind.holds _ known).2
      refine ⟨(mind.guarded (.type dp T_DIR) known).wider, ?_, fun _ => bear_new a (dir kind)⟩
      rw [retyped.kind (dir kind)]
      exact kind
  · rintro _ _ _ ⟨⟩
    rw [new]
    exact ⟨typed, rfl⟩
  · rintro e (⟨known, _⟩ | ⟨dp, _, same⟩) q different
    · exact retyped.ignorant ((tracked.sole p e (know ▸ known)).2 q different)
    · cases same
  · intro q _
    refine (tracked.mind q).away (fun _ => Iff.rfl) fun F known => ?_
    exact retyped.holds_free ages ((tracked.mind q).holds F known) free
  · intro q k' n kind _ made
    obtain ⟨nonzero, same⟩ := tracked.made q k' n kind made
    rw [retyped.disk]
    exact other (same ▸ nonzero)
  · intro q e different known
    have before := (tracked.sole q e known).2 p (Ne.symm different)
    have alive := ((tracked.mind q).holds _ known).2.2
    rw [here] at before
    refine ⟨rfl, ⟨?_, ?_, ?_⟩⟩
    · rintro n (⟨old, _⟩ | ⟨dp, _, same⟩)
      · exact before.type n old
      · cases same
    · rintro n (⟨old, _⟩ | ⟨dp, dirKnown, same⟩)
      · exact before.next n old
      · injection same with same
        subst same
        exact before.type _ dirKnown
    · intro k' n same
      injection same with _ equal
      exact other alive equal.symm
  · refine tracked.sole_files fun e known => ?_
    rcases known with ⟨known, _⟩ | ⟨dp, _, same⟩
    · exact know ▸ known
    · cases same

end

end Xv6.Fs
