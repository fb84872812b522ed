import Xv6.Fs.LockSteps
import Xv6.Fs.LockCalls
import Xv6.Fs.LedgerIo

namespace Xv6.Fs
open Lib Function

/-! ## Requests that leave the inodes -/

section
variable {a : Ages} {s t : State} {held : Slot → Held × Stage} {p : Slot} {h' : Held} {k : Know} {e : Entry} {f : FileId}

structure SameInodes (s t : State) : Prop where
  disk : t.disk = s.disk
  slots : t.slots = s.slots
  lock : t.lock = s.lock
  table : t.table = s.table
  ninodes : t.ninodes = s.ninodes
  file : t.file = s.file

theorem SameInodes.refl (s : State) : SameInodes s s := ⟨rfl, rfl, rfl, rfl, rfl, rfl⟩

theorem Stays.refl (h : Held) : Stays h h := ⟨rfl, rfl, rfl⟩

theorem Mind.same {h : Held} (mind : Mind a s p h k) (refs : h'.refs = h.refs) (cwd : h'.proc.cwd = h.proc.cwd) :
    Reckoned a t p h h' k id (fun _ => True) fun _ => False :=
  ⟨refs.trans mind.refs.symm, cwd, mind.nonneg, fun e member => (mind.locked e member).wider,
    fun F known _ => (mind.guarded F known).wider, fun _ => False.elim⟩

theorem SameInodes.alike (same : SameInodes s t) : Alike s t :=
  ⟨same.disk, same.slots, same.lock, fun _ _ => by rw [same.table], fun _ _ => by rw [same.table],
    fun _ _ => by rw [same.table]⟩

/-! ### References -/

theorem addRef_alike (s : State) (e : Entry) (n : Int) : Alike s (s.addRef e n) :=
  ⟨rfl, rfl, rfl, fun e' _ => (addRef_same s e e' n).inum, fun e' _ => (addRef_same s e e' n).valid,
    fun e' _ => (addRef_same s e e' n).copy⟩

theorem Alike.tables (alike : Alike s t) (tables : Tables s) (ninodes : t.ninodes = s.ninodes)
    (used : ∀ e, 0 < (t.table e).ref → 0 < (s.table e).ref) : Tables t := by
  refine ⟨?_, ?_, ?_, ?_⟩
  · grind [alike.inum, tables.unique]
  · intro e free used' valid
    rw [alike.lock] at free
    rw [alike.valid e (used e used')] at valid
    refine alike.near.faithful (used e used') (congrArg Dinode.type (alike.copy e (used e used'))) ?_
    exact tables.faithful e free (used e used') valid
  · intro e used'
    rw [alike.inum e (used e used')]
    exact tables.small e (used e used')
  · rw [ninodes]
    exact tables.ninodes

theorem iget_tables {inum : Nat} (tables : Tables s) (small : inum < 65536) (taken : s.iget inum = .ok (e, t)) :
    Tables t := by
  rcases iget_cases taken with ⟨used, here, rfl⟩ | ⟨zero, missing, rfl⟩
  · refine (addRef_alike s e 1).tables tables rfl fun e' used' => ?_
    rw [addRef_ref] at used'
    split_ifs at used' with same
    · rw [same]
      exact used
    · omega
  · have old {e' : Entry} (other : e' ≠ e) :
        (s.setEntry e { s.table e with inum := inum, ref := 1, valid := false }).table e' = s.table e' := by
      rw [setEntry_table, if_neg other]
    have new : (s.setEntry e { s.table e with inum := inum, ref := 1, valid := false }).table e =
        { s.table e with inum := inum, ref := 1, valid := false } := by
      rw [setEntry_table, if_pos rfl]
    refine ⟨?_, ?_, ?_, tables.ninodes⟩
    · intro e₁ e₂ used₁ used₂ equal
      by_cases first : e₁ = e
      · grind
      · grind [tables.unique]
    · intro e' free used valid
      by_cases same : e' = e
      · rw [same, new] at valid
        cases valid
      · rw [old same] at used valid
        rw [State.Faithful, State.kind, old same]
        exact tables.faithful e' free used valid
    · intro e' used
      by_cases same : e' = e
      · rw [same, new]
        exact small
      · rw [old same] at used ⊢
        exact tables.small e' used

theorem iget_alike {inum : Nat} (taken : s.iget inum = .ok (e, t)) : Alike s t := by
  have accounts := iget_accounts taken
  have image := iget_image taken
  exact ⟨image.1, image.2, accounts.2.1, fun _ used => (iget_same taken used).inum, fun _ used =>
    (iget_same taken used).valid, fun _ used => (iget_same taken used).copy⟩

theorem Tracked.take (learn : Fact → Prop) (tracked : Tracked a s held) (here : (held p).2.know = k) (alike : Alike s t)
    (file : t.file = s.file) (kept : h' = (held p).1.add (reference e)) (ledger : Books t held p h') (tables : Tables t)
    (learns : ∀ F, learn F → F.entry = e ∧ F.Holds a t p h') (harmless : Harmless held p learn) :
    Follow t held p h' fun k' => k.To k' (· + mine e) id (fun _ => True) learn := by
  have mind := tracked.mind p
  rw [here] at mind
  have more (e' : Entry) : k.refs e' ≤ (k.refs + mine e) e' := by
    have := mine_nonneg e e'
    rw [Pi.add_apply]
    omega
  have protects {e' : Entry} (before : k.Protects e') : (k.next (· + mine e) id (fun _ => True) learn).Protects e' :=
    before.mono more fun _ _ known => .inl ⟨known, trivial⟩
  subst kept
  refine tracked.count here alike file rfl ledger tables ⟨?_, rfl, ?_, ?_, ?_, ?_⟩ harmless
  · rw [mind.refs]
    rfl
  · exact fun e' => Int.le_trans (mind.nonneg e') (more e')
  · exact fun e' member => protects (mind.locked e' member)
  · exact fun F known _ => protects (mind.guarded F known)
  · intro F learning
    obtain ⟨same, holds⟩ := learns F learning
    refine ⟨.inl ?_, holds⟩
    have := mind.nonneg e
    change 1 ≤ (k.refs + mine e) F.entry
    rw [same, Pi.add_apply, mine_self]
    omega

theorem Tracked.iget_made {inum : Nat} {type : Int} (tracked : Tracked a s held) (here : (held p).2 = .made k inum type)
    (small : inum < 65536) (taken : s.iget inum = .ok (e, t)) (kept : h' = (held p).1.add (reference e))
    (ledger : Books t held p h') :
    Follow t held p h' fun k' => Order.post (.iget inum true) k e k' ∧ k'.knows (.type e type) := by
  have know : (held p).2.know = k := by rw [here]; rfl
  have mind := tracked.mind p
  rw [know] at mind
  obtain ⟨typed, onDisk⟩ := tracked.made p k inum type here
  refine (tracked.take (fun F => F = .inum e inum ∨ F = .type e type) know (iget_alike taken)
    (iget_accounts taken).2.2.1 kept ledger (iget_tables tracked.tables small taken) ?_ ⟨?_, ?_⟩).mono fun k' moves => ?_
  · rintro F (rfl | rfl)
    · exact ⟨rfl, iget_inum taken⟩
    · refine ⟨rfl, typed, ?_⟩
      rw [State.kind, iget_inum taken, (iget_image taken).1]
      exact onDisk
  · intro q e' other sole
    refine ⟨fun kind learning => ?_, fun n learning => ?_⟩
    · rcases learning with same | same
      · cases same
      · injection same with same
        subst same
        have used : 0 < (s.table e').ref := tracked.used ((tracked.mind q).guarded _ sole)
        have before := (tracked.sole q e' sole).2 p (Ne.symm other)
        refine before.made k type ?_
        rw [← (iget_same taken used).inum, iget_inum taken]
        exact here
    · rcases learning with same | same <;> cases same
  · rintro e' (same | same) <;> cases same
  · exact ⟨⟨mind.nonneg e, moves.mono (fun _ => id) fun _ => .inl⟩, moves.learn _ (.inr rfl)⟩

theorem Tracked.fresh_none (tracked : Tracked a s held) (fresh : f ∈ (held p).1.fresh) : ¬ (s.file f).OfInode := by
  have none := (tracked.ledger.files.fresh p f fresh).1
  rintro (stands | stands) <;> rw [none] at stands <;> cases stands

section
variable (tracked : Tracked a s held) (here : (held p).2 = .idle k)
include tracked here

theorem Tracked.know : Mind a s p (held p).1 k := by
  have mind := tracked.mind p
  rw [here] at mind
  exact mind

theorem Tracked.inodes (learn : Fact → Prop) (same : SameInodes s t) (stays : Stays (held p).1 h') (ledger : Books t held p h')
    (learns : ∀ F, learn F → k.Protects F.entry ∧ F.Holds a t p h') (harmless : Harmless held p learn) :
    Follow t held p h' fun k' => k.Learns k' learn := by
  have mind := tracked.know here
  have tables := same.alike.tables tracked.tables same.ninodes fun e used => by rwa [same.table] at used
  refine tracked.count (Stage.know_idle here) same.alike same.file stays.own ledger tables
    ⟨stays.refs.trans mind.refs.symm, stays.cwd, mind.nonneg, ?_, ?_, ?_⟩ harmless
  · exact fun e member => (mind.locked e member).wider
  · exact fun F known _ => (mind.guarded F known).wider
  · exact fun F learning => ⟨(learns F learning).1.wider, (learns F learning).2⟩

theorem Tracked.silent (same : SameInodes s t) (stays : Stays (held p).1 h') (ledger : Books t held p h') :
    Follow t held p h' fun k' => k.Learns k' fun _ => False :=
  tracked.inodes here (fun _ => False) same stays ledger (fun _ => False.elim) harmless_none

theorem Tracked.used_by (protects : k.Protects e) : 0 < (s.table e).ref := by
  refine tracked.used (p := p) ?_
  rw [here]
  exact protects

theorem Tracked.known_type {q : Slot} {type : Int} (other : q ≠ p) (sole : (held q).2.know.knows (.sole e))
    (known : k.knows (.type e type)) : False := by
  have ignorant := (tracked.sole q e sole).2 p (Ne.symm other)
  rw [here] at ignorant
  exact ignorant.type type known

theorem Tracked.known_full {q : Slot} (other : q ≠ p) (sole : (held q).2.know.knows (.sole e)) (known : k.knows (.full e)) :
    False := by
  have first := ((tracked.mind q).holds _ sole).1
  rw [((tracked.know here).holds _ known).1] at first
  exact other (Option.some.inj first).symm

section

variable (ledger : Books s held p h') (kept : h' = (held p).1)

include ledger kept

theorem Tracked.inode : Follow s held p h' (Order.post (.inode e) k (s.table e).copy) := by
  subst kept
  have mind := tracked.know here
  refine (tracked.inodes here (fun F => k.knows (.full e) ∧ F = .type e (s.table e).copy.type) (.refl s) (.refl _) ledger
    ?_ ⟨?_, ?_⟩).mono ?_
  · rintro F ⟨full, rfl⟩
    obtain ⟨_, _, same, typed⟩ := mind.holds _ full
    refine ⟨mind.guarded (.full e) full, ?_, same.symm⟩
    rw [same]
    exact typed
  · intro q e' other sole
    refine ⟨fun type ⟨full, same⟩ => ?_, fun n learning => nomatch learning.2⟩
    injection same with same
    subst same
    exact tracked.known_full here other sole full
  · exact fun e' learning => nomatch learning.2
  · intro k' learns
    refine ⟨fun full => ?_, fun sole => (mind.holds _ sole).2.1, learns⟩
    obtain ⟨_, _, same, typed⟩ := mind.holds _ full
    refine ⟨?_, fun type known => ?_⟩
    · rw [same]
      exact typed
    · rw [same]
      exact (mind.holds _ known).2

theorem Tracked.inum : Follow s held p h' (Order.post (.inum e) k (s.table e).inum) := by
  subst kept
  refine (tracked.inodes here (fun F => k.Protects e ∧ F = .inum e (s.table e).inum) (.refl s) (.refl _) ledger
    ?_ ⟨?_, ?_⟩).mono ?_
  · rintro F ⟨protects, rfl⟩
    exact ⟨protects, rfl⟩
  · exact fun q e' _ _ => ⟨fun type learning => (nomatch learning.2), fun n learning => nomatch learning.2⟩
  · exact fun e' learning => nomatch learning.2
  · intro k' learns
    refine ⟨fun protects => ?_, fun n known => (tracked.know here).holds _ known, learns⟩
    exact tracked.tables.small e (tracked.used_by here protects)

theorem Tracked.readDirent {off : Nat} : Follow s held p h' (Order.post (.readDirent e off) k (s.readDirent e off)) := by
  subst kept
  have mind := tracked.know here
  have slot (v : Dirent) (read : s.readDirent e off = some v) : ∃ i, s.slots (s.table e).inum i = v := by
    grind [State.readDirent]
  refine (tracked.inodes here (fun F => ∃ v, s.readDirent e off = some v ∧ k.knows (.type e T_DIR) ∧ v.inum ≠ 0 ∧
    ¬ dots v.name ∧ F = .next e v.inum) (.refl s) (.refl _) ledger ?_ ⟨?_, ?_⟩).mono ?_
  · rintro F ⟨v, read, dir, used, plain, rfl⟩
    obtain ⟨i, rfl⟩ := slot v read
    have kind := (mind.holds _ dir).2
    exact ⟨mind.guarded (.type e T_DIR) dir, kind, tracked.ordered.order _ kind i used plain⟩
  · intro q e' other sole
    refine ⟨fun type ⟨_, _, _, _, _, same⟩ => (nomatch same), fun n ⟨_, _, dir, _, _, same⟩ => ?_⟩
    injection same with same
    subst same
    exact tracked.known_type here other sole dir
  · rintro e' ⟨_, _, _, _, _, same⟩
    cases same
  · intro k' learns
    refine ⟨fun dir v read => ?_, learns⟩
    obtain ⟨i, rfl⟩ := slot v read
    exact tracked.ordered.small _ (mind.holds _ dir).2 i

end

theorem Tracked.iget {inum : Nat} {made : Bool} (asked : inum < 65536) (taken : s.iget inum = .ok (e, t))
    (kept : h' = (held p).1.add (reference e)) (ledger : Books t held p h') :
    Follow t held p h' (Order.post (.iget inum made) k e) := by
  refine (tracked.take (· = .inum e inum) (Stage.know_idle here) (iget_alike taken) (iget_accounts taken).2.2.1 kept ledger
    (iget_tables tracked.tables asked taken) ?_ ⟨?_, ?_⟩).mono fun k' moves => ⟨(tracked.know here).nonneg e, moves⟩
  · rintro F rfl
    exact ⟨rfl, iget_inum taken⟩
  · exact fun _ _ _ _ => ⟨nofun, nofun⟩
  · exact nofun

theorem Tracked.idup (asked : 1 ≤ k.refs e) (kept : h' = (held p).1.add (reference e))
    (ledger : Books (s.addRef e 1) held p h') : Follow (s.addRef e 1) held p h' (Order.post (.idup e) k ()) := by
  have alike := addRef_alike s e 1
  refine tracked.take (fun _ => False) (Stage.know_idle here) alike rfl kept ledger ?_ (fun _ => False.elim) harmless_none
  refine alike.tables tracked.tables rfl fun e' used' => ?_
  rw [addRef_ref] at used'
  split_ifs at used' with same
  · rw [same]
    exact tracked.used_by here (.inl asked)
  · omega

theorem Tracked.drop (asked : 1 ≤ k.refs e ∧ (e ∈ k.locks → 2 ≤ k.refs e)) (kept : h' = (held p).1.add (-reference e))
    (ledger : Books (s.addRef e (-1)) held p h') :
    Follow (s.addRef e (-1)) held p h' fun k' =>
      k.To k' (· - mine e) id (fun F => F.entry ≠ e ∨ 2 ≤ k.refs e) fun _ => False := by
  have mind := tracked.know here
  have alike := addRef_alike s e (-1)
  have left (e' : Entry) (other : e' ≠ e) : (k.refs - mine e) e' = k.refs e' := by
    rw [Pi.sub_apply, mine_other other, Int.sub_zero]
  have twice (many : 2 ≤ k.refs e) : 1 ≤ (k.refs - mine e) e := by
    rw [Pi.sub_apply, mine_self]
    omega
  have protects {e' : Entry} (before : k.Protects e') (enough : e' ≠ e ∨ 2 ≤ k.refs e) :
      (k.next (· - mine e) id (fun F => F.entry ≠ e ∨ 2 ≤ k.refs e) fun _ => False).Protects e' := by
    by_cases same : e' = e
    · subst same
      exact .inl (twice (enough.resolve_left fun other => other rfl))
    · rcases before with refers | ⟨f, known⟩
      · refine .inl ?_
        change 1 ≤ (k.refs - mine e) e'
        rw [left e' same]
        exact refers
      · exact .inr ⟨f, .inl ⟨known, .inl same⟩⟩
  subst kept
  refine tracked.count (Stage.know_idle here) alike rfl rfl ledger ?_ ⟨?_, rfl, ?_, ?_, ?_, fun _ => False.elim⟩ harmless_none
  · refine alike.tables tracked.tables rfl fun e' used' => ?_
    rw [addRef_ref] at used'
    split_ifs at used' <;> omega
  · rw [mind.refs]
    exact (sub_eq_add_neg _ (mine e)).symm
  · intro e'
    by_cases same : e' = e
    · subst same
      rw [Pi.sub_apply, mine_self]
      omega
    · rw [left e' same]
      exact mind.nonneg e'
  · grind [mind.locked]
  · exact fun F known enough => protects (mind.guarded F known) enough

/-! ### Open files -/

variable {v : File}

theorem Tracked.files {refs : (Entry → Int) → Entry → Int} {keep learn : Fact → Prop}
    (ledger : Books (s.setFile f v) held p h') (reckoned : Reckoned a (s.setFile f v) p (held p).1 h' k refs keep learn)
    (own : ∀ f' e, k.knows (.file f' e) → keep (.file f' e) → Fact.Holds a (s.setFile f v) p h' (.file f' e))
    (others : ∀ q, q ≠ p → (s.file f).OfInode → 1 ≤ (held q).1.own f → v.OfInode ∧ v.ip = (s.file f).ip)
    (opened : v.OfInode → s.kind v.ip ≠ 0 ∧ (v.writable = true → s.kind v.ip ≠ T_DIR))
    (filed : v.OfInode → (s.file f).OfInode ∧ v.ip = (s.file f).ip ∨
      ¬ keep (.sole v.ip) ∧ ∃ type, k.knows (.type v.ip type)) (harmless : Harmless held p learn) :
    Follow (s.setFile f v) held p h' fun k' => k.To k' refs id keep learn := by
  have old {f' : FileId} (other : f' ≠ f) : (s.setFile f v).file f' = s.file f' := update_of_ne other ..
  have new : (s.setFile f v).file f = v := update_self ..
  have alike : Alike s (s.setFile f v) := ⟨rfl, rfl, rfl, fun _ _ => rfl, fun _ _ => rfl, fun _ _ => rfl⟩
  have tables := tracked.tables
  refine tracked.alike (Stage.know_idle here) alike ledger ⟨tables.unique, tables.faithful, tables.small, tables.ninodes⟩ ?_
    reckoned own ?_ ?_ harmless
  · intro f' stands
    by_cases same : f' = f
    · subst same
      rw [new] at stands ⊢
      exact opened stands
    · rw [old same] at stands ⊢
      exact tracked.opened f' stands
  · grind
  · grind

theorem Tracked.sameFile (ledger : Books (s.setFile f v) held p h')
    (count : h'.refs = (held p).1.refs) (cwd : h'.proc.cwd = (held p).1.proc.cwd) (own : ∀ f, (held p).1.own f ≤ h'.own f)
    (type : v.type = (s.file f).type) (ip : v.ip = (s.file f).ip) (writable : v.writable = (s.file f).writable) :
    Follow (s.setFile f v) held p h' fun k' => k.Learns k' fun _ => False := by
  have mind := tracked.know here
  have stands : v.OfInode ↔ (s.file f).OfInode := by rw [File.OfInode, type, File.OfInode]
  refine tracked.files here ledger (mind.same count cwd) ?_ ?_ ?_ ?_ harmless_none
  · intro f' e known _
    obtain ⟨mine, open', same⟩ := mind.holds _ known
    refine ⟨Int.le_trans mine (own f'), ?_⟩
    by_cases equal : f' = f
    · subst equal
      rw [show (s.setFile f' v).file f' = v from update_self .., ip]
      exact ⟨stands.mpr open', same⟩
    · rw [show (s.setFile f v).file f' = s.file f' from update_of_ne equal ..]
      exact ⟨open', same⟩
  · exact fun _ _ open' _ => ⟨stands.mpr open', ip⟩
  · intro open'
    rw [ip, writable]
    exact tracked.opened f (stands.mp open')
  · exact fun open' => .inl ⟨stands.mp open', ip⟩

theorem Tracked.fileclose {ff : Option File} (mine : 1 ≤ (held p).1.own f) (asked : ∀ e ∈ k.locks, 1 ≤ k.refs e)
    (taken : s.fileclose f = .ok (ff, t)) (kept : post (.fileclose f) (held p).1 ff h') (ledger : Books t held p h') :
    Follow t held p h' (Order.post (.fileclose f) k ff) := by
  have mind := tracked.know here
  unfold State.fileclose at taken
  simp only at taken
  split_ifs at taken with low more
  · cases taken
    obtain rfl : h' = _ := kept
    refine tracked.files here ledger ⟨?_, rfl, ?_, ?_, ?_, fun _ => False.elim⟩ ?_ ?_ ?_ ?_ harmless_none
    · exact mind.refs.symm.trans (add_zero k.refs).symm
    · simp [mind.nonneg]
    · intro e member
      refine .inl ?_
      change 1 ≤ (k.refs + 0) e
      rw [add_zero]
      exact asked e member
    · intro F known keeping
      refine .inl ?_
      change 1 ≤ (k.refs + 0) F.entry
      rw [add_zero]
      exact keeping.1
    · exact fun f' e _ keeping => absurd rfl (keeping.2 f' e)
    · exact fun _ _ stands _ => ⟨stands, rfl⟩
    · exact fun stands => tracked.opened f stands
    · exact fun stands => .inl ⟨stands, rfl⟩
  · cases taken
    obtain ⟨_, rfl⟩ := kept
    have handed : (fileBalance (s.file f)).2.1 = Order.handed (s.file f) := by
      unfold fileBalance Order.handed
      cases (s.file f).type <;> rfl
    have more' (e : Entry) : k.refs e ≤ (k.refs + Order.handed (s.file f)) e := by
      have := fileBalance_refs_nonneg (s.file f) e
      rw [handed] at this
      rw [Pi.add_apply]
      omega
    refine tracked.files here ledger ⟨?_, rfl, ?_, ?_, ?_, fun _ => False.elim⟩ ?_ ?_ ?_ ?_ harmless_none
    · rw [mind.refs]
      exact congrArg (_ + ·) handed
    · exact fun e => Int.le_trans (mind.nonneg e) (more' e)
    · exact fun e member => .inl (Int.le_trans (asked e member) (more' e))
    · exact fun F known keeping => .inl (Int.le_trans keeping.1 (more' F.entry))
    · exact fun f' e _ keeping => absurd rfl (keeping.2 f' e)
    · intro q other _ mine'
      have nonneg (r : Slot) := tracked.ledger.files.nonneg r f
      have zero : (held q).1.own f = 0 := by
        refine sum_alone (f := fun r => (held r).1.own f) nonneg ?_ other
        rw [← tracked.ledger.files.own f]
        omega
      omega
    · rintro (closed | closed) <;> cases closed
    · rintro (closed | closed) <;> cases closed

theorem Tracked.holds_other {f' : FileId} (fresh : f ∈ (held p).1.fresh) (own : h'.own = (held p).1.own)
    (known : k.knows (.file f' e)) : Fact.Holds a (s.setFile f v) p h' (.file f' e) := by
  obtain ⟨mine, open', same⟩ := (tracked.know here).holds _ known
  have different : f' ≠ f := by
    rintro rfl
    exact tracked.fresh_none fresh open'
  refine ⟨?_, ?_⟩
  · rw [own]
    exact mine
  · rw [show (s.setFile f v).file f' = s.file f' from update_of_ne different ..]
    exact ⟨open', same⟩

theorem Tracked.setInode {ip : Entry} (fresh : f ∈ (held p).1.fresh)
    (asked : 1 ≤ k.refs ip ∧ ∃ type, k.knows (.type ip type) ∧ (v.writable = true → type ≠ T_DIR)) (stands : v.OfInode)
    (same : v.ip = ip) (refs : h'.refs = (held p).1.refs - mine ip) (cwd : h'.proc.cwd = (held p).1.proc.cwd)
    (own : h'.own = (held p).1.own) (ledger : Books (s.setFile f v) held p h') :
    Follow (s.setFile f v) held p h' fun k' => k.To k' (· - mine ip) id (· ≠ .sole ip) (· = .file f ip) := by
  have mind := tracked.know here
  obtain ⟨refers, type, known, other⟩ := asked
  have none := tracked.fresh_none fresh
  have protects {e : Entry} (before : k.Protects e) :
      (k.next (· - mine ip) id (· ≠ .sole ip) (· = .file f ip)).Protects e := by
    by_cases here : e = ip
    · subst here
      exact .inr ⟨f, .inr rfl⟩
    · rcases before with refers | ⟨f', known⟩
      · refine .inl ?_
        change 1 ≤ (k.refs - mine ip) e
        rw [Pi.sub_apply, mine_other here, Int.sub_zero]
        exact refers
      · exact .inr ⟨f', .inl ⟨known, nofun⟩⟩
  refine tracked.files here ledger ⟨?_, cwd, ?_, fun e member => protects (mind.locked e member),
    fun F known _ => protects (mind.guarded F known), ?_⟩ ?_ ?_ ?_ ?_ ⟨fun _ _ _ _ => ⟨nofun, nofun⟩, nofun⟩
  · rw [refs, mind.refs]
  · intro e
    rw [Pi.sub_apply]
    by_cases here : e = ip
    · subst here
      rw [mine_self]
      omega
    · rw [mine_other here, Int.sub_zero]
      exact mind.nonneg e
  · rintro F rfl
    refine ⟨.inr ⟨f, .inr rfl⟩, ?_, ?_⟩
    · rw [own, (tracked.ledger.files.fresh p f fresh).2.2]
    · rw [show (s.setFile f v).file f = v from update_self ..]
      exact ⟨stands, same⟩
  · exact fun f' e known _ => tracked.holds_other here fresh own known
  · exact fun _ _ open' _ => absurd open' none
  · intro _
    obtain ⟨typed, kind⟩ := mind.holds _ known
    rw [same, kind]
    exact ⟨typed, other⟩
  · grind

theorem Tracked.setPipe (fresh : f ∈ (held p).1.fresh) (pipe : v.type = .pipe)
    (refs : h'.refs = (held p).1.refs) (cwd : h'.proc.cwd = (held p).1.proc.cwd) (own : h'.own = (held p).1.own)
    (ledger : Books (s.setFile f v) held p h') : Follow (s.setFile f v) held p h' fun k' => k.Learns k' fun _ => False := by
  have mind := tracked.know here
  have none := tracked.fresh_none fresh
  have closed : ¬ v.OfInode := by
    rintro (stands | stands) <;> rw [pipe] at stands <;> cases stands
  refine tracked.files here ledger (mind.same refs cwd) ?_ (fun _ _ open' _ => absurd open' none)
    (fun open' => absurd open' closed) (fun open' => absurd open' closed) harmless_none
  exact fun f' e known _ => tracked.holds_other here fresh own known

end

end

end Xv6.Fs
