import Xv6.Fs.LockAccounts

namespace Xv6.Fs
open Lib Function

/-! ## Requests on one entry -/

section
variable {a : Ages} {s t : State} {held : Slot → Held × Stage} {p : Slot} {h' : Held} {k : Know} {e : Entry}
  {learn : Fact → Prop}

theorem add_locked_stays (h : Held) (e : Entry) : Stays h (h.add (locked e)) := ⟨add_zero h.refs, rfl, rfl⟩

theorem sub_locked_stays (h : Held) (e : Entry) : Stays h (h.add (-locked e)) := by
  refine ⟨?_, rfl, rfl⟩
  change h.bal.2.1 + -0 = h.bal.2.1
  rw [neg_zero, add_zero]

theorem Ordered.change (inum : Nat) (ordered : Ordered a s) (types : ∀ n, (t.disk n).type = (s.disk n).type)
    (slots : ∀ n, n ≠ inum → t.slots n = s.slots n) (free : (s.disk inum).type = 0 → ∀ i, (t.slots inum i).inum = 0)
    (dir : (s.disk inum).type = T_DIR → ∀ i, (t.slots inum i).inum < 65536 ∧ ((t.slots inum i).inum ≠ 0 →
      ¬ dots (t.slots inum i).name → (s.disk (t.slots inum i).inum).type = T_DIR →
      a.birth inum < a.birth (t.slots inum i).inum)) : Ordered a t := by
  refine ⟨fun n => ?_, fun n => ?_, fun n => ?_⟩
  · rw [types]
    by_cases here : n = inum
    · subst here
      exact free
    · rw [slots n here]
      exact ordered.free n
  · rw [types]
    by_cases here : n = inum
    · subst here
      exact fun kind i => (dir kind i).1
    · rw [slots n here]
      exact ordered.small n
  · simp only [types]
    by_cases here : n = inum
    · subst here
      exact fun kind i => (dir kind i).2
    · rw [slots n here]
      exact ordered.order n

theorem Ordered.same (ordered : Ordered a s) (types : ∀ n, (t.disk n).type = (s.disk n).type) (slots : t.slots = s.slots) :
    Ordered a t := by
  refine ordered.change 0 types (fun n _ => congrFun slots n) ?_ ?_
  · rw [slots]
    exact ordered.free 0
  · rw [slots]
    exact fun kind i => ⟨ordered.small 0 kind i, ordered.order 0 kind i⟩

/-! ### The lock -/

theorem setLock_local {l : Option Slot} (before : s.lock e = none ∨ s.lock e = some p) (after : l = none ∨ l = some p) :
    Local s (s.setLock e l) p e := by
  have here : (s.setLock e l).lock e = l := update_self ..
  refine ⟨fun _ => rfl, fun _ _ => rfl, rfl, rfl, fun _ other => update_of_ne other .., before, ?_, fun _ _ => rfl,
    rfl, rfl⟩
  rw [here]
  exact after

theorem Mind.taken (mind : Mind a s p h' k) (e' : Entry) :
    e' ∈ insert e k.locks ↔ (s.setLock e (some p)).lock e' = some p := by
  by_cases here : e' = e
  · subst here
    exact iff_of_true (Set.mem_insert ..) (update_self ..)
  · rw [show (s.setLock e (some p)).lock e' = s.lock e' from update_of_ne here .., Set.mem_insert_iff]
    exact (or_iff_right here).trans (mind.locks e')

theorem Mind.released (mind : Mind a s p h' k) (e' : Entry) : e' ∈ k.locks \ {e} ↔ (s.setLock e none).lock e' = some p := by
  by_cases here : e' = e
  · subst here
    rw [show (s.setLock e' none).lock e' = none from update_self ..]
    exact iff_of_false (fun member => member.2 rfl) nofun
  · rw [show (s.setLock e none).lock e' = s.lock e' from update_of_ne here ..]
    exact ⟨fun member => (mind.locks e').mp member.1, fun mine => ⟨(mind.locks e').mpr mine, here⟩⟩

theorem Mind.unlocked (mind : Mind a s p h' k) (free : s.lock e = none) : e ∉ k.locks := by
  intro member
  rw [(mind.locks e).mp member] at free
  cases free

abbrev Apart (e : Entry) (F : Fact) : Prop := F.entry ≠ e ∨ F.Soft

theorem Apart.still {locks : Set Entry → Set Entry} (protects : k.Protects e) :
    (k.next id locks (Apart e) learn).Protects e :=
  protects.mono (fun _ => Int.le_refl _) fun _ _ known => .inl ⟨known, .inr trivial⟩

theorem Apart.hard {F : Fact} (_known : k.knows F) (apart : Apart e F) (same : F.entry = e) (hard : ¬ F.Soft) :
    F.Holds a t p h' :=
  (apart.elim (fun other => other same) hard).elim

/-! ### The contents -/

theorem write_local (mine : s.lock e = some p) (lock : t.lock = s.lock) {v : Inode} (table : t.table = update s.table e v)
    (inum : v.inum = (s.table e).inum) (ref : v.ref = (s.table e).ref) (types : ∀ n, (t.disk n).type = (s.disk n).type)
    (slots : ∀ n, n ≠ (s.table e).inum → t.slots n = s.slots n) (file : t.file = s.file) (ninodes : t.ninodes = s.ninodes) :
    Local s t p e := by
  have here : t.table e = v := by rw [table, update_self]
  refine ⟨types, fun e' other => ?_, ?_, ?_, fun e' _ => congrFun lock e', .inr mine, ?_, slots, file, ninodes⟩
  · rw [table, update_of_ne other]
  · rw [here, inum]
  · rw [here, ref]
  · rw [lock]
    exact .inr mine

theorem setCopy_entry (s : State) (e : Entry) (d : Dinode) : (s.setCopy e d).table e = { s.table e with copy := d } :=
  update_self ..

/-! ### Writes to the inode and the slots -/

structure Wrote (s t : State) (e : Entry) (d : Dinode) (v : Nat → Dirent) : Prop where
  type : d.type = (s.table e).copy.type
  nlink : d.nlink = (s.table e).copy.nlink
  table : t.table = update s.table e { s.table e with copy := d }
  disk : t.disk = update s.disk (s.table e).inum d
  slots : t.slots = update s.slots (s.table e).inum v
  lock : t.lock = s.lock
  file : t.file = s.file
  ninodes : t.ninodes = s.ninodes

theorem apart_only (F : Fact) : Apart e F ↔ Apart e F ∨ F = .sole e ∧ Apart e (.sole e) :=
  ⟨.inl, fun either => either.elim id fun sole => sole.1 ▸ sole.2⟩

theorem writeDirent_cases (s : State) (e : Entry) (off : Nat) (de : Dirent) :
    (s.writeDirent e off de).2 = s ∨ ∃ d, Wrote s (s.writeDirent e off de).2 e d
      (update (s.slots (s.table e).inum) (off / direntSize) de) := by
  unfold State.writeDirent
  simp only
  split_ifs
  · exact .inl rfl
  · exact .inl rfl
  · refine .inr ⟨{ (s.table e).copy with size := off + direntSize }, rfl, rfl, rfl, ?_, rfl, rfl, rfl, rfl⟩
    unfold State.iupdate
    rw [setCopy_entry]
    rfl
  · exact .inr ⟨(s.table e).copy, rfl, rfl, (update_eq_self e s.table).symm, rfl, rfl, rfl, rfl, rfl⟩

theorem writei_cases (s : State) (e : Entry) (off n got : Nat) (data : Nat → Dirent) :
    (s.writei e off n got data).2 = s ∨ ∃ d v, Wrote s (s.writei e off n got data).2 e d v := by
  unfold State.writei
  simp only
  split_ifs
  · exact .inl rfl
  · exact .inl rfl
  · refine .inr ⟨{ (s.table e).copy with size := max (s.table e).copy.size (off + min got n) }, _, rfl, rfl, rfl, ?_, rfl, rfl,
      rfl, rfl⟩
    unfold State.iupdate
    rw [setCopy_entry]
    rfl

section
variable (tracked : Tracked a s held) (here : (held p).2 = .idle k)
include tracked here

theorem Tracked.acquire (protects : k.Protects e) (free : s.lock e = none) (kept : h' = (held p).1.add (locked e))
    (ledger : Books (s.setLock e (some p)) held p h') :
    Follow (s.setLock e (some p)) held p h' (Order.post (.acquire e) k ()) := by
  subst kept
  have mind := tracked.know here
  have used := tracked.used_by here protects
  have lock : (s.setLock e (some p)).lock e = some p := update_self ..
  refine (tracked.local (Stage.know_idle here) (setLock_local (.inl free) (.inr rfl)) used ledger (add_locked_stays _ _) ?_
    (tracked.ordered.same (fun _ => rfl) rfl) mind.taken (fun _ _ => trivial) ?_ ?_ ?_ nofun).mono
    fun k' moves => ⟨mind.unlocked free, moves⟩
  · rw [lock]
    exact nofun
  · exact protects.mono (fun _ => Int.le_refl _) fun _ _ known => .inl ⟨known, trivial⟩
  · intro F known _ same hard
    have mine := (mind.holds F known).lock hard
    rw [same, free] at mine
    cases mine
  · rintro F rfl
    exact ⟨rfl, id, lock, tracked.tables.faithful e free used⟩

theorem Tracked.iunlock (full : k.knows (.full e)) (kept : h' = (held p).1.add (-locked e))
    (ledger : Books (s.setLock e none) held p h') : Follow (s.setLock e none) held p h' (Order.post (.iunlock e) k ()) := by
  subst kept
  have mind := tracked.know here
  have protects := mind.guarded _ full
  obtain ⟨mine, _, faithful⟩ := mind.holds _ full
  exact tracked.local (Stage.know_idle here) (setLock_local (.inr mine) (.inl rfl)) (tracked.used_by here protects) ledger
    (sub_locked_stays _ _) (fun _ _ => faithful) (tracked.ordered.same (fun _ => rfl) rfl) mind.released
    (fun _ => .inl) (Apart.still protects) (fun _ => Apart.hard) (fun _ => False.elim) False.elim

theorem Tracked.releasesleep (asked : k.knows (.void e) ∧ 1 ≤ k.refs e) (kept : h' = (held p).1.add (-locked e))
    (ledger : Books (s.setLock e none) held p h') :
    Follow (s.setLock e none) held p h' (Order.post (.releasesleep e) k ()) := by
  subst kept
  have mind := tracked.know here
  obtain ⟨mine, invalid⟩ := mind.holds _ asked.1
  refine tracked.local (Stage.know_idle here) (setLock_local (.inr mine) (.inl rfl)) (tracked.used_by here (.inl asked.2))
    ledger (sub_locked_stays _ _) ?_ (tracked.ordered.same (fun _ => rfl) rfl) mind.released
    (fun _ other => other) (.inl asked.2) (fun F _ other same => absurd same other) (fun _ => False.elim) False.elim
  intro _ valid
  rw [show ((s.setLock e none).table e).valid = false from invalid] at valid
  cases valid

theorem Tracked.putLast (refers : 1 ≤ k.refs e) (last : (s.table e).ref = 1 ∧ (s.table e).valid ∧ (s.table e).copy.nlink = 0)
    (free : s.lock e = none) (fair : ∀ q k' type, q ≠ p → (held q).2 ≠ .made k' (s.table e).inum type)
    (kept : h' = (held p).1.add (locked e)) (ledger : Books (s.setLock e (some p)) held p h') :
    Follow (s.setLock e (some p)) held p h' (Order.post (.putLast e) k true) := by
  subst kept
  have know := Stage.know_idle here
  have mind := tracked.know here
  have used := tracked.used_by here (.inl refers)
  have lock : (s.setLock e (some p)).lock e = some p := update_self ..
  have faithful := tracked.tables.faithful e free used last.2.1
  obtain ⟨one, files, others⟩ := tracked.last (know ▸ refers) last.1
  rw [know] at one
  refine (tracked.local know (setLock_local (.inl free) (.inr rfl)) used ledger (add_locked_stays _ _) ?_
    (tracked.ordered.same (fun _ => rfl) rfl) mind.taken (fun _ other => other) (.inl refers)
    (fun F _ other same => absurd same other) ?_ ?_).mono fun k' moves => ⟨one, mind.unlocked free, moves⟩
  · rw [lock]
    exact nofun
  · rintro F (rfl | rfl)
    · exact ⟨rfl, id, lock, last.2.1, faithful⟩
    · exact ⟨rfl, id, lock, last.2.2, faithful.2⟩
  · intro _
    refine ⟨files, fun q other => ⟨fun type known => ?_, fun n known => ?_, fun k' type => fair q k' type other⟩⟩
    · exact others q other ((tracked.mind q).guarded _ known)
    · exact others q other ((tracked.mind q).guarded _ known)

variable {keep : Fact → Prop}

theorem Tracked.contents (moved : Local s t p e) (lock : t.lock = s.lock)
    (mine : s.lock e = some p) (protects : k.Protects e) (kept : h' = (held p).1) (ledger : Books t held p h')
    (ordered : Ordered a t) (elsewhere : ∀ F, F.entry ≠ e → keep F) (still : (k.next id id keep learn).Protects e)
    (hard : ∀ F, k.knows F → keep F → F.entry = e → ¬ F.Soft → F.Holds a t p (held p).1)
    (learns : ∀ F, learn F → F.entry = e ∧ ¬ F.Soft ∧ F.Holds a t p (held p).1) (alone : learn (.sole e) → k.knows (.sole e)) :
    Follow t held p h' fun k' => k.To k' id id keep learn := by
  subst kept
  have know := Stage.know_idle here
  refine tracked.local know moved (tracked.used_by here protects) ledger (.refl _) ?_ ordered ?_ elsewhere still
    hard learns ?_
  · rw [lock, mine]
    exact nofun
  · intro e'
    rw [lock]
    exact (tracked.know here).locks e'
  · exact fun learning => tracked.sole p e (know ▸ alone learning)

theorem Tracked.fill (asked : k.knows (.sound e)) (taken : s.fill e = .ok ((), t)) (kept : h' = (held p).1)
    (ledger : Books t held p h') : Follow t held p h' (Order.post (.fill e) k ()) := by
  have mind := tracked.know here
  have protects := mind.guarded _ asked
  obtain ⟨mine, sound⟩ := mind.holds _ asked
  have result : Local s t p e ∧ t.lock = s.lock ∧ t.disk = s.disk ∧ t.slots = s.slots ∧ (t.table e).valid = true ∧
      t.Faithful e := by
    unfold State.fill at taken
    simp only at taken
    split_ifs at taken with valid free
    · cases taken
      refine ⟨write_local mine rfl (update_eq_self e s.table).symm rfl rfl (fun _ => rfl) (fun _ _ => rfl) rfl rfl, rfl, rfl, rfl,
        valid, sound valid⟩
    · cases taken
      have entry : (s.setEntry e { s.table e with copy := s.disk (s.table e).inum, valid := true }).table e =
          { s.table e with copy := s.disk (s.table e).inum, valid := true } := update_self ..
      refine ⟨write_local mine rfl rfl rfl rfl (fun _ => rfl) (fun _ _ => rfl) rfl rfl, rfl, rfl, rfl, ?_, ?_⟩
      · rw [entry]
      · rw [State.Faithful, State.kind, entry]
        exact ⟨rfl, free⟩
  obtain ⟨moved, lock, disk, slots, valid, faithful⟩ := result
  refine tracked.contents here moved lock mine protects kept ledger ?_ (fun _ => .inl) (Apart.still protects)
    (fun _ => Apart.hard) ?_ (by simp)
  · exact tracked.ordered.same (fun n => by rw [disk]) slots
  · rintro F rfl
    refine ⟨rfl, id, ?_, valid, faithful⟩
    rw [lock]
    exact mine

theorem Tracked.store {d : Dinode} (asked : Order.pre k (.store e d)) (kept : h' = (held p).1)
    (ledger : Books (s.setCopy e d) held p h') : Follow (s.setCopy e d) held p h' (Order.post (.store e d) k ()) := by
  have mind := tracked.know here
  obtain ⟨full, typed⟩ := asked
  have protects := mind.guarded _ full
  obtain ⟨mine, valid, faithful⟩ := mind.holds _ full
  have moved : Local s (s.setCopy e d) p e :=
    write_local mine rfl rfl rfl rfl (fun _ => rfl) (fun _ _ => rfl) rfl rfl
  have ordered : Ordered a (s.setCopy e d) := tracked.ordered.same (fun _ => rfl) rfl
  have entry := setCopy_entry s e d
  have kind : (s.setCopy e d).kind e = s.kind e := by
    rw [State.kind, entry]
    rfl
  unfold Order.post
  by_cases free : d.type = 0
  · simp only [if_pos free] at typed ⊢
    obtain ⟨empty, sole, unlinked⟩ := typed
    have refers : 1 ≤ k.refs e := by
      rcases mind.guarded _ sole with refers | ⟨f, known⟩
      · exact refers
      · obtain ⟨_, stands, same⟩ := mind.holds _ known
        have know : (held p).2.know.knows (.sole e) := by rw [here]; exact sole
        exact absurd same ((tracked.sole p e know).1 f stands)
    refine tracked.contents here moved rfl mine protects kept ledger ordered (fun _ other => other) (.inl refers)
      (fun F _ other same => absurd same other) ?_ fun _ => sole
    rintro F (rfl | rfl)
    · refine ⟨rfl, id, mine, ?_, ?_⟩
      · rw [entry]
        exact free
      · intro i
        rw [entry]
        exact (mind.holds _ empty).2 i
    · refine ⟨rfl, id, mine, ?_, ?_⟩
      · rw [entry]
        exact unlinked
      · rw [kind]
        exact faithful.2
  · simp only [if_neg free] at typed ⊢
    refine tracked.contents here moved rfl mine protects kept ledger ordered (fun _ => .inl) (Apart.still protects)
      (fun _ => Apart.hard) ?_ (by simp)
    rintro F rfl
    refine ⟨rfl, id, mine, ?_, ?_, ?_⟩
    · rw [entry]
      exact valid
    · rw [entry, kind]
      exact (mind.holds _ typed).2.symm
    · rw [kind]
      exact faithful.2

theorem Tracked.iupdate (full : k.knows (.full e)) (kept : h' = (held p).1) (ledger : Books (s.iupdate e) held p h') :
    Follow (s.iupdate e) held p h' fun k' => k.Changes k' e (· = .full e) := by
  have mind := tracked.know here
  have protects := mind.guarded _ full
  obtain ⟨mine, valid, faithful⟩ := mind.holds _ full
  have types (n : Nat) : ((s.iupdate e).disk n).type = (s.disk n).type := by
    by_cases same : n = (s.table e).inum
    · subst same
      rw [show (s.iupdate e).disk (s.table e).inum = (s.table e).copy from update_self ..]
      exact faithful.1
    · rw [show (s.iupdate e).disk n = s.disk n from update_of_ne same ..]
  refine tracked.contents here ?_ rfl mine protects kept ledger (tracked.ordered.same types rfl) (fun _ => .inl)
    (Apart.still protects) (fun _ => Apart.hard) ?_ nofun
  · exact write_local mine rfl (update_eq_self e s.table).symm rfl rfl types (fun _ _ => rfl) rfl rfl
  · rintro F rfl
    have kind : (s.iupdate e).kind e = s.kind e := types _
    refine ⟨rfl, id, mine, valid, ?_⟩
    rw [State.Faithful, kind]
    exact faithful

theorem Tracked.invalidate (asked : k.knows (.gone e) ∧ 1 ≤ k.refs e) (kept : h' = (held p).1)
    (ledger : Books (s.setEntry e { s.table e with valid := false }) held p h') :
    Follow (s.setEntry e { s.table e with valid := false }) held p h' (Order.post (.invalidate e) k ()) := by
  have mind := tracked.know here
  have mine := (mind.holds _ asked.1).1
  refine tracked.contents here ?_ rfl mine (.inl asked.2) kept ledger (tracked.ordered.same (fun _ => rfl) rfl)
    (fun _ other => other) (.inl asked.2) (fun F _ other same => absurd same other) ?_ nofun
  · exact write_local mine rfl rfl rfl rfl (fun _ => rfl) (fun _ _ => rfl) rfl rfl
  · rintro F rfl
    refine ⟨rfl, id, mine, ?_⟩
    rw [show (s.setEntry e { s.table e with valid := false }).table e = { s.table e with valid := false } from
      update_self ..]

theorem Tracked.wrote {d : Dinode} {v : Nat → Dirent} (full : k.knows (.full e))
    (wrote : Wrote s t e d v) (kept : h' = (held p).1) (ledger : Books t held p h')
    (dir : s.kind e = T_DIR → ∀ i, (v i).inum < 65536 ∧ ((v i).inum ≠ 0 → ¬ dots (v i).name →
      (s.disk (v i).inum).type = T_DIR → a.birth (s.table e).inum < a.birth (v i).inum))
    (keeps : ∀ F, keep F ↔ Apart e F ∨ F = .sole e ∧ keep (.sole e))
    (learns : ∀ F, learn F → F = .full e ∨ F = .empty e ∧ ∀ i, (v i).inum = 0) :
    Follow t held p h' fun k' => k.To k' id id keep learn := by
  have mind := tracked.know here
  have protects := mind.guarded _ full
  obtain ⟨mine, valid, faithful⟩ := mind.holds _ full
  have entry : t.table e = { s.table e with copy := d } := by rw [wrote.table, update_self]
  have types (n : Nat) : (t.disk n).type = (s.disk n).type := by
    rw [wrote.disk]
    by_cases same : n = (s.table e).inum
    · rw [same, update_self, wrote.type]
      exact faithful.1
    · rw [update_of_ne same]
  have slots : t.slots (s.table e).inum = v := by rw [wrote.slots, update_self]
  have kind : t.kind e = s.kind e := by
    rw [State.kind, entry, types]
    rfl
  have lock : t.lock e = some p := by rw [wrote.lock, mine]
  refine tracked.contents here ?_ wrote.lock mine protects kept ledger ?_ (fun F other => (keeps F).mpr (.inl (.inl other)))
    ?_ ?_ ?_ ?_
  · refine write_local mine wrote.lock wrote.table rfl rfl types (fun n other => ?_) wrote.file wrote.ninodes
    rw [wrote.slots, update_of_ne other]
  · refine tracked.ordered.change (s.table e).inum types (fun n other => ?_) (fun free => ?_) ?_
    · rw [wrote.slots, update_of_ne other]
    · exact absurd free faithful.2
    · rw [slots]
      exact dir
  · exact protects.mono (fun _ => Int.le_refl _) fun f e' known => .inl ⟨known, (keeps _).mpr (.inl (.inr trivial))⟩
  · intro F known keeping same hard
    rcases (keeps F).mp keeping with apart | ⟨rfl, _⟩
    · exact Apart.hard known apart same hard
    · refine ⟨lock, ?_, ?_⟩
      · rw [entry]
        exact wrote.nlink.trans (mind.holds _ known).2.1
      · rw [kind]
        exact faithful.2
  · intro F learning
    rcases learns F learning with rfl | ⟨rfl, bare⟩
    · refine ⟨rfl, id, lock, ?_, ?_⟩
      · rw [entry]
        exact valid
      · rw [State.Faithful, kind, entry]
        exact ⟨wrote.type.trans faithful.1, faithful.2⟩
    · refine ⟨rfl, id, lock, ?_⟩
      intro i
      rw [entry, slots]
      exact bare i
  · grind

theorem Tracked.itrunc (full : k.knows (.full e)) (kept : h' = (held p).1) (ledger : Books (s.itrunc e) held p h') :
    Follow (s.itrunc e) held p h' (Order.post (.itrunc e) k ()) := by
  have wrote : Wrote s (s.itrunc e) e { (s.table e).copy with size := 0 } fun _ => ⟨0, []⟩ := by
    refine ⟨rfl, rfl, rfl, ?_, rfl, rfl, rfl, rfl⟩
    unfold State.itrunc State.iupdate
    rw [setCopy_entry]
    rfl
  refine tracked.wrote here full wrote kept ledger (fun _ _ => ⟨Nat.zero_lt_succ _, fun used => absurd rfl used⟩)
    (fun F => ?_) ?_
  · grind
  · simp

theorem Tracked.unwritten (full : k.knows (.full e)) (kept : h' = (held p).1) (ledger : Books s held p h') :
    Follow s held p h' fun k' => k.Changes k' e (· = .full e) := by
  subst kept
  refine (tracked.silent here (.refl s) (.refl _) ledger).mono fun k' learns => ?_
  refine ⟨learns.refs, learns.cwd, learns.locks, fun F known _ => learns.keep F known trivial, ?_⟩
  rintro F rfl
  exact learns.keep _ full trivial

theorem Tracked.writeDirent {off : Nat} {de : Dirent} {wrote : Bool} (asked : Order.pre k (.writeDirent e off de))
    (taken : s.writeDirent e off de = (wrote, t)) (kept : h' = (held p).1) (ledger : Books t held p h') :
    Follow t held p h' (Order.post (.writeDirent e off de) k wrote) := by
  have mind := tracked.know here
  obtain ⟨full, dir, small, links⟩ := asked
  obtain rfl : t = (s.writeDirent e off de).2 := by rw [taken]
  rcases writeDirent_cases s e off de with same | ⟨d, changed⟩
  · rw [same] at ledger ⊢
    exact tracked.unwritten here full kept ledger
  · refine tracked.wrote here full changed kept ledger (fun kind i => ?_) apart_only fun F => .inl
    by_cases new : i = off / direntSize
    · subst new
      rw [update_self]
      refine ⟨small, fun used plain isDir => ?_⟩
      rcases links with zero | special | younger | ⟨ip, type, other, typed, numbered⟩
      · exact absurd zero used
      · exact absurd special plain
      · exact (mind.holds _ younger).2 isDir
      · have found : (s.table ip).inum = de.inum := mind.holds _ numbered
        have kind' := (mind.holds _ typed).2
        rw [State.kind, found] at kind'
        exact absurd (kind'.symm.trans isDir) other
    · rw [update_of_ne new]
      exact ⟨tracked.ordered.small _ kind i, tracked.ordered.order _ kind i⟩

theorem Tracked.writei {off n got : Nat} {data : Nat → Dirent} {x : Int} (asked : Order.preIo k (.writei e off n got data))
    (taken : s.writei e off n got data = (x, t)) (kept : h' = (held p).1) (ledger : Books t held p h') :
    Follow t held p h' (Order.postIo (.writei e off n got data) k x) := by
  obtain ⟨full, type, typed, other⟩ := asked
  obtain rfl : t = (s.writei e off n got data).2 := by rw [taken]
  rcases writei_cases s e off n got data with same | ⟨d, v, changed⟩
  · rw [same] at ledger ⊢
    exact tracked.unwritten here full kept ledger
  · refine tracked.wrote here full changed kept ledger (fun kind => ?_) apart_only fun F => .inl
    exact absurd (((tracked.know here).holds _ typed).2.symm.trans kind) other

end

end

end Xv6.Fs
