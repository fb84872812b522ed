import Xv6.Fs.Coherence

namespace Xv6.Itable
open Lib Function

attribute [local simp] State.setDisk State.dinode State.setEntry

section
variable {ι : Type} {s t : State ι} {p q : ι} {e : Entry} {k : Pc} {v : Inode}

structure Inv (s : State ι) : Prop where
  refs : Refs s
  entries : Entries s

theorem Inv.stop (inv : Inv s) (why : Panic) : Inv (s.stop why) :=
  ⟨⟨inv.refs.counts, inv.refs.unique, inv.refs.locked, inv.refs.holding, inv.refs.needing, inv.refs.dropping⟩,
    ⟨inv.entries.clean, inv.entries.agree⟩⟩

/-! ## Steps on one entry -/

def Wrote (s t : State ι) (e : Entry) : Prop :=
  t.disk = s.disk ∨ 0 < (s.table e).ref ∧ ∃ d, t.disk = (s.setDisk (s.table e).dev (s.table e).inum d).disk

theorem Wrote.other {e' : Entry} (wrote : Wrote s t e) (refs : Refs s) (other : e' ≠ e)
    (positive : 0 < (s.table e').ref) (table : t.table e' = s.table e') : t.dinode e' = s.dinode e' := by
  unfold State.dinode
  rw [table]
  rcases wrote with same | ⟨owned, d, disk⟩
  · rw [same]
  · rw [disk]
    by_cases dev : (s.table e').dev = (s.table e).dev
    · have inum : (s.table e').inum ≠ (s.table e).inum := fun inum => other (refs.unique e e' owned positive dev inum)
      simp [dev, inum]
    · simp [dev]

theorem Refs.acts {l : Option ι} {d : Bool} (refs : Refs s)
    (table : t.table = update s.table e v) (lock : t.lock = update s.lock e l)
    (dirty : t.dirty = update s.dirty e d) (wrote : Wrote s t e) (pcs : ∀ q, q ≠ p → t.pc q = s.pc q)
    (before : ∀ e', about (s.pc p) = some e' → e' = e) (after : ∀ e', about (t.pc p) = some e' → e' = e) :
    Acts s t p e where
  table e' other := by rw [table, update_of_ne other]
  lock e' other := by rw [lock, update_of_ne other]
  dirty e' other := by rw [dirty, update_of_ne other]
  disk e' other positive := wrote.other refs other positive (by rw [table, update_of_ne other])
  pcs := pcs
  before e' other found := other (before e' found)
  after e' other found := other (after e' found)

section

variable (s : State ι) (e : Entry)

theorem kept_lock : s.lock = update s.lock e (s.lock e) := (update_eq_self ..).symm

theorem kept_dirty : s.dirty = update s.dirty e (s.dirty e) := (update_eq_self ..).symm

theorem kept_table : s.table = update s.table e (s.table e) := (update_eq_self ..).symm

theorem dinode_write (d : Dinode) : (s.setDisk (s.table e).dev (s.table e).inum d).dinode e = d := by simp

theorem dinode_setCopy (d : Dinode) : (s.setCopy e d).dinode e = s.dinode e := by simp [State.setCopy]

end

theorem Refs.about_positive (refs : Refs s) (here : about (s.pc p) = some e) : 0 < (s.table e).ref :=
  refs.positive (refs.locked p e (refs.holding p e here))

/-! ## References -/

theorem stage_away (lock : t.lock = s.lock) (pcs : ∀ q, q ≠ p → t.pc q = s.pc q) (away : about (s.pc p) = none)
    (gone : about (t.pc p) = none) (e : Entry) : stage t e = stage s e := by
  unfold stage
  rw [lock]
  cases s.lock e with
  | none => rfl
  | some q =>
    by_cases own : q = p
    · subst own
      simp [away, gone]
    · simp only [pcs q own]

theorem Inv.get (inv : Inv s) (away : about (s.pc p) = none) (stays : Stays s t p)
    (table : t.table = update s.table e v) (lock : t.lock = s.lock) (new : t.refs = (q, e) :: s.refs)
    (dirty : t.dirty = s.dirty) (disk : t.disk = s.disk) (ref : v.ref = (s.table e).ref + 1)
    (hit : 0 < (s.table e).ref ∧ v = { s.table e with ref := v.ref } ∨
      (s.table e).ref = 0 ∧ v.valid = false ∧ ∀ e', 0 < (s.table e').ref →
        ¬ ((s.table e').dev = v.dev ∧ (s.table e').inum = v.inum)) : Inv t := by
  have here : t.table e = v := by rw [table, update_self]
  constructor
  · refine inv.refs.get table lock new ref ?_ stays
    rintro e' other positive ⟨dev, inum⟩
    rcases hit with ⟨owned, same⟩ | ⟨_, _, absent⟩
    · grind [inv.refs.unique]
    · exact absent e' positive ⟨dev, inum⟩
  · have gone : about (t.pc p) = none := by
      rcases stays.own with same | user
      · rw [same, away]
      · rw [user]
        rfl
    have acts : Acts s t p e := by
      refine inv.refs.acts table (lock.trans (kept_lock s e)) (dirty.trans (kept_dirty s e)) (.inl disk)
        stays.others ?_ ?_
      · simp [away]
      · simp [gone]
    refine inv.entries.acts acts ?_ ?_
    · rw [lock, dirty]
      exact inv.entries.clean e
    · intro _
      have staged := stage_away lock stays.others away gone e
      rcases hit with ⟨owned, same⟩ | ⟨zero, invalid, _⟩
      · have before := inv.entries.agree e owned
        have dinode : t.dinode e = s.dinode e := by
          rw [State.dinode, State.dinode, here, disk, same]
        rw [staged, here, dirty, dinode, same]
        cases found : stage s e with
        | _ =>
          rw [found] at before
          exact before
      · have free := inv.refs.free zero
        rw [staged, stage_free free, here, dirty]
        exact ⟨inv.entries.clean e free, fun valid => absurd valid (by simp [invalid])⟩

theorem findEntry_some {dev inum : Nat} (found : findEntry s dev inum = some e) :
    0 < (s.table e).ref ∧ (s.table e).dev = dev ∧ (s.table e).inum = inum := by
  have := List.find?_some found
  simpa [and_assoc] using this

theorem findEntry_none {dev inum : Nat} (missing : findEntry s dev inum = none) (e : Entry)
    (positive : 0 < (s.table e).ref) : ¬ ((s.table e).dev = dev ∧ (s.table e).inum = inum) := by
  have := List.find?_eq_none.mp missing e (List.mem_finRange e)
  simpa [positive] using this

theorem findFree_some (found : findFree s = some e) : (s.table e).ref = 0 := by
  simpa using List.find?_some found

theorem iget_pc (s : State ι) (p : ι) (dev inum : Nat) : (iget s p dev inum).pc = s.pc := by
  unfold iget
  cases findEntry s dev inum with
  | some e => rfl
  | none => cases findFree s <;> rfl

theorem Inv.idup (inv : Inv s) (user : s.pc p = .user) (member : (p, e) ∈ s.refs) :
    Inv { s.setEntry e { s.table e with ref := (s.table e).ref + 1 } with refs := (q, e) :: s.refs } := by
  refine inv.get (p := p) (e := e) ?_ ?_ rfl rfl rfl rfl rfl rfl (.inl ⟨inv.refs.positive member, rfl⟩)
  · rw [user]
    rfl
  · exact ⟨fun _ _ => rfl, .inl rfl⟩

theorem Entries.released {n : Nat} (entries : Entries s) (away : about (s.pc p) = none) (home : t.pc p = .user)
    (pcs : ∀ q, q ≠ p → t.pc q = s.pc q) (table : t.table = update s.table e { s.table e with ref := n })
    (fewer : n ≤ (s.table e).ref) (lock : t.lock = s.lock) (dirty : t.dirty = s.dirty) (disk : t.disk = s.disk) :
    Entries t := by
  constructor
  · rw [lock, dirty]
    exact entries.clean
  · intro e' positive
    have staged := stage_away lock pcs away (by rw [home]; rfl) e'
    rw [staged, dirty]
    by_cases same : e' = e
    · subst same
      have here : t.table e' = { s.table e' with ref := n } := by rw [table, update_self]
      have dinode : t.dinode e' = s.dinode e' := by rw [State.dinode, State.dinode, here, disk]
      rw [here] at positive
      have before := entries.agree e' (Nat.lt_of_lt_of_le positive fewer)
      rw [dinode, here]
      cases found : stage s e' with
      | _ =>
        rw [found] at before
        exact before
    · have here : t.table e' = s.table e' := by rw [table, update_of_ne same]
      have dinode : t.dinode e' = s.dinode e' := by rw [State.dinode, State.dinode, here, disk]
      rw [here] at positive
      rw [here, dinode]
      exact entries.agree e' positive

variable [DecidableEq ι]

/-! ## Changes of the holder -/

theorem State.goto_pc (s : State ι) (other : q ≠ p) : (s.goto p k).pc q = s.pc q :=
  update_of_ne other ..

@[simp] theorem State.goto_self (s : State ι) (k : Pc) : (s.goto p k).pc p = k := update_self ..

theorem State.goto_pc_self (s : State ι) (p : ι) : s.goto p (s.pc p) = s := by
  simp [State.goto]

theorem Inv.holder {d : Dinode} {k₀ : Pc} (inv : Inv s) (place : s.pc p = k₀) (here : about k₀ = some e) (u : State ι)
    (table : u.table = update s.table e v) (dev : v.dev = (s.table e).dev) (inum : v.inum = (s.table e).inum)
    (ref : v.ref = (s.table e).ref) (lock : u.lock = s.lock) (refs : u.refs = s.refs) (dirty : u.dirty = s.dirty)
    (pc : u.pc = s.pc) (wrote : Wrote s u e) (disk : u.dinode e = d) (next : k = .user ∨ about k = some e)
    (agree : Agree (s.table e) (s.dinode e) (s.dirty e) (phase k₀) → Agree v d (s.dirty e) (phase k)) :
    Inv (u.goto p k) := by
  subst place
  have held := inv.refs.holding p e here
  have pcs (q : ι) (other : q ≠ p) : (u.goto p k).pc q = s.pc q := by
    rw [State.goto_pc u other, pc]
  have place : about k = none ∨ about k = some e := by
    rcases next with rfl | next
    · exact .inl rfl
    · exact .inr next
  constructor
  · refine inv.refs.quiet (SameIds.update (e := e) table dev inum ref) lock refs pcs ?_
    rw [State.goto_self]
    rcases next with rfl | next
    · exact fits_user s p
    · constructor
      · grind
      · intro e' found
        cases k <;> simp_all [about, needs]
      · intro e' found
        cases k <;> simp_all [about]
  · have acts : Acts s (u.goto p k) p e := by
      refine inv.refs.acts table (lock.trans (kept_lock s e)) (dirty.trans (kept_dirty s e)) wrote pcs ?_ ?_
      · grind
      · grind [State.goto_self]
    refine inv.entries.acts acts ?_ ?_
    · intro free
      rw [show (u.goto p k).lock = s.lock from lock, held] at free
      cases free
    · intro _
      have positive := inv.refs.positive (inv.refs.locked p e held)
      have before := inv.entries.agree e positive
      rw [stage_about inv.refs here] at before
      have now : stage (u.goto p k) e = phase k := by
        rw [stage_held (p := p) (show (u.goto p k).lock e = some p from (congrFun lock e).trans held), State.goto_self]
        rcases next with rfl | next
        · rfl
        · rw [if_pos next]
      rw [now, show (u.goto p k).table e = v from (congrFun table e).trans (update_self ..),
        show (u.goto p k).dinode e = d from disk, show (u.goto p k).dirty e = s.dirty e from congrFun dirty e]
      exact agree before

/-! ## Inside `ilock` and `iput` -/

section

variable (inv : Inv s)

include inv

theorem Inv.acquire (free : s.lock e = none) (member : (p, e) ∈ s.refs) (away : about (s.pc p) = none)
    (here : about k = some e) (agree : Agree (s.table e) (s.dinode e) (s.dirty e) .idle →
      Agree (s.table e) (s.dinode e) (s.dirty e) (phase k)) : Inv ((s.setLock e (some p)).goto p k) := by
  have now : ((s.setLock e (some p)).goto p k).lock e = some p := update_self ..
  constructor
  · refine inv.refs.acquire free member ⟨?_, ?_, ?_⟩
    · intro e' found
      rw [here] at found
      cases found
      exact now
    · intro e' found
      cases k <;> simp_all [about, needs]
    · intro e' found
      cases k <;> simp_all [about]
  · refine inv.entries.acts (inv.refs.acts (p := p) (kept_table s e) rfl (kept_dirty s e) (.inl rfl) ?_ ?_ ?_) ?_ ?_
    · exact fun q other => State.goto_pc _ other
    · simp [away]
    · simp [here, eq_comm]
    · rw [now]
      nofun
    · intro positive
      have before := inv.entries.agree e positive
      rw [stage_free free] at before
      rw [stage_held now, State.goto_self, if_pos here]
      exact agree before

theorem Inv.ilockValid (place : s.pc p = .ilockValid e) (taken : kernelStep s p (.ilockValid e) = some t) : Inv t := by
  simp only [kernelStep] at taken
  split_ifs at taken with valid
  · cases taken
    refine inv.holder place rfl s (kept_table s e) rfl rfl rfl rfl rfl rfl rfl (.inl rfl) rfl (.inl rfl) ?_
    rintro ⟨_, agree⟩
    obtain ⟨same, type⟩ := agree valid
    exact ⟨valid, by rw [same], type, fun _ => same⟩
  · cases taken
    refine inv.holder place rfl _ rfl rfl rfl rfl rfl rfl rfl rfl (.inl rfl) rfl (.inr rfl) ?_
    rintro ⟨clean, _⟩
    refine ⟨clean, fun _ => ?_⟩
    simp [State.setCopy]

theorem Inv.ilockSet (place : s.pc p = .ilockSet e) (taken : kernelStep s p (.ilockSet e) = some t) : Inv t := by
  have disk : (s.setEntry e { s.table e with valid := true }).dinode e = s.dinode e := by
    simp
  simp only [kernelStep] at taken
  split_ifs at taken with type
  · cases taken
    refine Inv.stop ?_ _
    have same : s.setEntry e { s.table e with valid := true } =
        (s.setEntry e { s.table e with valid := true }).goto p (.ilockSet e) := by
      simp [State.goto, ← place]
    rw [same]
    refine inv.holder place rfl _ rfl rfl rfl rfl rfl rfl rfl rfl (.inl rfl) disk (.inr rfl) id
  · cases taken
    refine inv.holder place rfl _ rfl rfl rfl rfl rfl rfl rfl rfl (.inl rfl) disk (.inl rfl) ?_
    have named : (s.table e).copy.type ≠ 0 := by simpa using type
    rintro ⟨_, agree⟩
    have copied := agree named
    exact ⟨rfl, by rw [copied], copied ▸ named, fun _ => copied⟩

theorem Inv.iputFree (place : s.pc p = k) (here : about k = some e)
    (taken : kernelStep s p k = some t) (freeing : phase k = .freeing ∨ phase k = .freed) : Inv t := by
  have holds : about (s.pc p) = some e := by rw [place, here]
  have positive := inv.refs.about_positive holds
  cases k with
  | iputTrunc e' =>
    cases here
    cases taken
    exact inv.holder place rfl _ rfl rfl rfl rfl rfl rfl rfl rfl (.inl rfl) (dinode_setCopy s e _) (.inr rfl) id
  | iputTruncUpdate e' =>
    cases here
    cases taken
    refine inv.holder place rfl _ (kept_table s e) rfl rfl rfl rfl rfl rfl rfl (.inr ⟨positive, _, rfl⟩)
      (dinode_write s e _) (.inr rfl) ?_
    rintro ⟨clean, valid, type, set⟩
    exact ⟨clean, valid, rfl, type ▸ set⟩
  | iputType e' =>
    cases here
    cases taken
    exact inv.holder place rfl _ rfl rfl rfl rfl rfl rfl rfl rfl (.inl rfl) (dinode_setCopy s e _) (.inr rfl) And.left
  | iputUpdate e' =>
    cases here
    cases taken
    refine inv.holder place rfl _ (kept_table s e) rfl rfl rfl rfl rfl rfl rfl (.inr ⟨positive, _, rfl⟩)
      (dinode_write s e _) (.inr rfl) id
  | iputInvalid e' =>
    cases here
    cases taken
    refine inv.holder place rfl _ rfl rfl rfl rfl rfl rfl rfl rfl (.inl rfl) rfl (.inr rfl)
      fun clean => ⟨clean, rfl⟩
  | _ => simp [phase] at freeing

theorem Inv.unlock (held : s.lock e = some p) (pcs : ∀ q, q ≠ p → t.pc q = s.pc q) (here : t.pc p = k)
    (table : t.table = s.table) (lock : t.lock = update s.lock e none) (refs : t.refs = s.refs) (dirty : t.dirty = s.dirty)
    (disk : t.disk = s.disk) (before : ∀ e', about (s.pc p) = some e' → e' = e) (after : about k = none)
    (fits : Fits (s.setLock e none) p k) (agree : Agree (s.table e) (s.dinode e) (s.dirty e) (stage s e) →
      Agree (s.table e) (s.dinode e) (s.dirty e) .idle) : Inv t := by
  have positive := inv.refs.positive (inv.refs.locked p e held)
  have idle := agree (inv.entries.agree e positive)
  refine ⟨inv.refs.release held pcs here table lock refs fits, ?_⟩
  refine inv.entries.acts (inv.refs.acts (table.trans (kept_table s e)) lock (dirty.trans (kept_dirty s e))
    (.inl disk) pcs before ?_) ?_ ?_
  · rw [here, after]
    nofun
  · intro _
    rw [dirty]
    exact idle.1
  · intro _
    have free : t.lock e = none := by rw [lock, update_self]
    have same : t.dinode e = s.dinode e := by rw [State.dinode, State.dinode, table, disk]
    rw [stage_free free, table, same, dirty]
    exact idle

theorem Inv.iputRelease (place : s.pc p = .iputRelease e) : Inv ((s.setLock e none).goto p (.iputDrop e)) := by
  have here : about (s.pc p) = some e := by rw [place]; rfl
  have held := inv.refs.holding p e here
  refine inv.unlock held (fun q other => State.goto_pc _ other) (State.goto_self ..) rfl rfl rfl rfl rfl ?_ rfl
    ⟨nofun, ?_, ?_⟩ ?_
  · rw [here]
    exact fun e' found => (Option.some.inj found).symm
  · rintro e' ⟨⟩
    exact inv.refs.locked p e held
  · rintro e' ⟨⟩
    simp [State.setLock]
  · rw [stage_about inv.refs here, place]
    rintro ⟨clean, invalid⟩
    exact ⟨clean, fun valid => absurd valid (by simp [invalid])⟩

end

/-! ## Getting and putting -/

theorem Inv.moves (inv : Inv s) (away : about (s.pc p) = none) (gone : about k = none) (fits : Fits s p k) :
    Inv (s.goto p k) := by
  have pcs (q : ι) (other : q ≠ p) : (s.goto p k).pc q = s.pc q := State.goto_pc s other
  constructor
  · refine inv.refs.quiet (.of_eq rfl) rfl rfl pcs ?_
    rwa [State.goto_self]
  · refine ⟨inv.entries.clean, fun e positive => ?_⟩
    rw [stage_away (s := s) (t := s.goto p k) rfl pcs away (by rwa [State.goto_self]) e]
    exact inv.entries.agree e positive

theorem Inv.iget (inv : Inv s) (dev inum : Nat) (away : about (s.pc p) = none) (k : Pc) (next : k = s.pc p ∨ k = .user) :
    Inv ((iget s p dev inum).goto p k) := by
  have stays (u : State ι) (same : u.pc = s.pc) : Stays s (u.goto p k) p := by
    refine ⟨fun q other => by rw [State.goto_pc u other, same], ?_⟩
    rw [State.goto_self]
    exact next
  unfold Itable.iget
  cases hit : findEntry s dev inum with
  | some e =>
    obtain ⟨positive, _, _⟩ := findEntry_some hit
    exact inv.get (e := e) away (stays _ rfl) rfl rfl rfl rfl rfl rfl (.inl ⟨positive, rfl⟩)
  | none =>
    cases free : findFree s with
    | none =>
      refine Inv.stop (s := s.goto p k) ?_ _
      rcases next with rfl | rfl
      · exact inv.moves away away ⟨inv.refs.holding p, inv.refs.needing p, inv.refs.dropping p⟩
      · exact inv.moves away rfl (fits_user s p)
    | some e =>
      have zero := findFree_some free
      refine inv.get (e := e) away (stays _ rfl) rfl rfl rfl rfl rfl ?_ (.inr ⟨zero, rfl, ?_⟩)
      · simp [zero]
      · exact findEntry_none hit

theorem erase_other {refs : List (ι × Entry)} (q : ι) (e' : Entry) (other : (q, e') ≠ (p, e))
    (member : (q, e') ∈ refs) : (q, e') ∈ refs.erase (p, e) :=
  (List.mem_erase_of_ne other).mpr member

theorem Inv.drop (inv : Inv s) (away : about (s.pc p) = none) (member : (p, e) ∈ s.refs)
    (kept : s.lock e = some p → (p, e) ∈ s.refs.erase (p, e)) (home : k = .user) : Inv ((drop s p e).goto p k) := by
  subst home
  obtain ⟨stays, here⟩ := Stays.goto_user s p (Itable.drop s p e) rfl
  constructor
  · exact inv.refs.drop member ⟨erase_other, kept, rfl, here⟩ stays rfl rfl
  · exact inv.entries.released away here stays.others rfl (Nat.sub_le ..) rfl rfl rfl

theorem Inv.pass (inv : Inv s) (user : s.pc p = .user) (member : (p, e) ∈ s.refs)
    (kept : s.lock e = some p → (p, e) ∈ s.refs.erase (p, e)) : Inv { s with refs := (q, e) :: s.refs.erase (p, e) } := by
  obtain ⟨stays, here⟩ := Stays.of_user (t := { s with refs := (q, e) :: s.refs.erase (p, e) }) user rfl
  constructor
  · refine inv.refs.pass member ⟨?_, ?_, rfl, here⟩ stays rfl rfl
    · exact fun r e' other member => List.mem_cons_of_mem _ (erase_other r e' other member)
    · exact fun held => List.mem_cons_of_mem _ (kept held)
  · exact ⟨inv.entries.clean, inv.entries.agree⟩

theorem Spare.member (spare : Spare s p e) : (p, e) ∈ s.refs :=
  List.count_pos_iff.mp (Nat.lt_of_le_of_lt (Nat.zero_le _) spare)

theorem Spare.kept (spare : Spare s p e) (held : s.lock e = some p) : (p, e) ∈ s.refs.erase (p, e) := by
  rw [Spare, if_pos held] at spare
  rw [← List.count_pos_iff, List.count_erase_self]
  omega

end

end Xv6.Itable
