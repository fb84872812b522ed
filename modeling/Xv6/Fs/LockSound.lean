import Xv6.Fs.LockAlloc
import Xv6.Fs.LockFiles

namespace Xv6.Fs
open Lib Function

/-! ## Processes at rest -/

def Know.rest (cwd : Option Entry) : Know := ⟨home cwd, cwd, ∅, fun _ => False⟩

theorem rest_atRest (cwd : Option Entry) : (Know.rest cwd).AtRest := ⟨(add_zero _).symm, rfl⟩

section
variable {a : Ages} {s t : State} {held : Slot → Held × Stage} {held' : Slot → Held} {p q : Slot} {h' : Held} {k : Know}
  {r : Req}
  {e : Entry}

theorem rested_home (v : Proc) : (rested v).refs = home v.cwd := by
  unfold rested Held.refs cwdBalance home
  cases v.cwd <;> rfl

theorem Ledger.mind_rest (ledger : Ledger t held') (atRest : AtRest (held' q)) :
    Mind a t q (held' q) (Know.rest (held' q).proc.cwd) := by
  refine ⟨?_, rfl, ?_, ?_, nofun, nofun, nofun⟩
  · conv_rhs => rw [show held' q = rested (held' q).proc from atRest]
    exact (rested_home _).symm
  · intro e
    cases (held' q).proc.cwd with
    | none => exact Int.le_refl 0
    | some c => exact mine_nonneg c e
  · intro e
    have locks := ledger.balanced.locks q e
    rw [show held' q = rested (held' q).proc from atRest, rested_locks] at locks
    refine iff_of_false (Set.notMem_empty e) fun mine => ?_
    rw [if_pos mine] at locks
    cases locks

theorem Tracked.settle (rests : Slot → Prop) (tracked : Tracked a s held) (alike : Alike s t) (tables : Tables t)
    (files : ∀ f, (t.file f).type = (s.file f).type ∧ (t.file f).ip = (s.file f).ip ∧ (t.file f).writable = (s.file f).writable)
    (ledger : Ledger t held') (resting : ∀ r, rests r → AtRest (held' r))
    (others : ∀ r, ¬ rests r → Stays (held r).1 (held' r)) :
    ∃ stages : Slot → Stage, Tracked a t (fun r => (held' r, stages r)) ∧
      ∀ r, ¬ rests r ∧ stages r = (held r).2 ∨ rests r ∧ (stages r).AtRest := by
  have stands (f : FileId) : (t.file f).OfInode ↔ (s.file f).OfInode := by rw [File.OfInode, (files f).1, File.OfInode]
  have each (r : Slot) : ∃ stage : Stage, Mind a t r (held' r) stage.know ∧
      (¬ rests r ∧ stage = (held r).2 ∨ rests r ∧ stage = .idle (Know.rest (held' r).proc.cwd)) := by
    by_cases rest : rests r
    · exact ⟨.idle (Know.rest (held' r).proc.cwd), ledger.mind_rest (resting r rest), .inr ⟨rest, rfl⟩⟩
    · obtain ⟨refs, own, cwd⟩ := others r rest
      have mind := tracked.mind r
      refine ⟨(held r).2, ⟨mind.refs.trans refs.symm, mind.cwd.trans cwd.symm, mind.nonneg, ?_, mind.locked, mind.guarded, ?_⟩,
        .inl ⟨rest, rfl⟩⟩
      · rw [alike.lock]
        exact mind.locks
      · intro F known
        have used := tracked.used (mind.guarded F known)
        refine (mind.holds F known).frame alike.near used (fun _ => alike.same used) ?_
        rintro f e rfl
        obtain ⟨mine, open', same⟩ := mind.holds _ known
        exact ⟨own ▸ mine, (stands f).mpr open', (files f).2.1.trans same⟩
  choose stages minds cases using each
  have old {r : Slot} {F : Fact} (known : (stages r).know.knows F) : (held r).2.know.knows F := by
    rcases cases r with ⟨_, same⟩ | ⟨_, same⟩
    · rwa [same] at known
    · rw [same] at known
      exact known.elim
  have oldMade {r : Slot} {k : Know} {inum : Nat} {type : Int} (here : stages r = .made k inum type) :
      (held r).2 = .made k inum type := by grind
  refine ⟨stages, ⟨ledger, tables, alike.ordered tracked.ordered, ?_, minds, ?_, ?_⟩, fun r => ?_⟩
  · intro f open'
    have open' := (stands f).mp open'
    rw [(files f).2.1, (files f).2.2, alike.near.kind (tracked.file_used open')]
    exact tracked.opened f open'
  · intro r k inum type here
    rw [alike.disk]
    exact tracked.made r k inum type (oldMade here)
  · intro r e known
    obtain ⟨none, ignorant⟩ := tracked.sole r e (old known)
    have used : 0 < (s.table e).ref := tracked.used ((tracked.mind r).guarded _ (old known))
    refine ⟨fun f open' => ?_, fun q other => ⟨fun type there => ?_, fun n there => ?_, fun k' type there => ?_⟩⟩
    · rw [(files f).2.1]
      exact none f ((stands f).mp open')
    · exact (ignorant q other).type type (old there)
    · exact (ignorant q other).next n (old there)
    · rw [alike.inum e used] at there
      exact (ignorant q other).made k' type (oldMade there)
  · rcases cases r with ⟨rest, same⟩ | ⟨rest, same⟩
    · exact .inl ⟨rest, same⟩
    · refine .inr ⟨rest, ?_⟩
      rw [same]
      exact rest_atRest _

theorem Tracked.setCwd (tracked : Tracked a s held) (here : (held p).2 = .idle k) {c : Option Entry} {v : Proc}
    (kept : h' = { (held p).1 with proc := { (held p).1.proc with cwd := c } }) (ledger : Books (s.setProc p v) held p h') :
    Follow (s.setProc p v) held p h' (Order.post (.setCwd c) k ()) := by
  subst kept
  have know := Stage.know_idle here
  have mind := tracked.know here
  have tables := tracked.tables
  have ordered := tracked.ordered
  refine ⟨a, { k with cwd := c }, tracked.step (.idle _) ledger
    ⟨tables.unique, tables.faithful, tables.small, tables.ninodes⟩ ⟨ordered.free, ordered.small, ordered.order⟩ tracked.opened
    ⟨mind.refs, rfl, mind.nonneg, mind.locks, mind.locked, mind.guarded, ?_⟩ nofun ?_ ?_ (fun _ _ _ _ _ _ => rfl) ?_ ?_,
    rfl, rfl, rfl, fun _ => id⟩
  · intro F known
    have used := tracked.used_by here (mind.guarded F known)
    have alike : Alike s (s.setProc p v) := ⟨rfl, rfl, rfl, fun _ _ => rfl, fun _ _ => rfl, fun _ _ => rfl⟩
    refine (mind.holds F known).frame alike.near used (fun _ => alike.same used) ?_
    rintro f e rfl
    exact mind.holds _ known
  · intro e known q other
    obtain ⟨type, next, made⟩ := (tracked.sole p e (know ▸ known)).2 q other
    exact ⟨type, next, made⟩
  · intro q _
    refine tracked.away ⟨fun _ => rfl, fun _ _ => rfl⟩ (fun _ => Iff.rfl) (fun _ _ _ => ⟨rfl, rfl, rfl, rfl⟩) ?_
    exact fun _ stands _ => ⟨stands, rfl⟩
  · intro q e other known
    have before := (tracked.sole q e known).2 p (Ne.symm other)
    rw [here] at before
    exact ⟨rfl, before.type, before.next, nofun⟩
  · exact tracked.sole_files fun e known => know ▸ known

/-! ## Requests -/

def Moves (t : State) (held : Slot → Held × Stage) (p : Slot) (r : Req) (x : Answer r) : Prop :=
  ∃ a' h' stage, Tracked a' t (update held p (h', stage)) ∧ post r (held p).1 x h' ∧
    Order.contract.post r (held p).2 x stage

theorem Moves.of {x : Answer r} (here : (held p).2 = .idle k) (plain : r.allocates = false)
    (kept : post r (held p).1 x h') (follow : Follow t held p h' (Order.post r k x)) : Moves t held p r x := by
  obtain ⟨a', k', after, done⟩ := follow
  refine ⟨a', h', .idle k', after, kept, ?_⟩
  rw [here]
  exact ⟨k', done, (after_idle plain x).symm⟩

theorem Tracked.quiet {x : Answer r} (tracked : Tracked a s held) (here : (held p).2 = .idle k)
    (ledger : Books t held p h') (plain : r.allocates = false) (kept : post r (held p).1 x h') (same : SameInodes s t)
    (stays : Stays (held p).1 h') (enough : ∀ k', (k.Learns k' fun _ => False) → Order.post r k x k') : Moves t held p r x :=
  .of here plain kept ((tracked.silent here same stays ledger).mono enough)

theorem single_nonneg (f f' : FileId) : (0 : Int) ≤ (Pi.single f 1 : FileId → Int) f' := by grind

theorem add_ends_refs (h : Held) (b : Balance) (none : b.2.1 = 0) : (h.add b).refs = h.refs := by
  change h.bal.2.1 + b.2.1 = h.bal.2.1
  rw [none, add_zero]

theorem Tracked.perform_own {x : Answer r} (tracked : Tracked a s held) (here : (held p).2 = .idle k)
    (asked : contract.pre r (held p).1) (order : Order.pre k r)
    (fair : ∀ e, r = .putLast e → (s.table e).ref = 1 ∧ (s.table e).valid ∧ (s.table e).copy.nlink = 0 →
      ∀ q k' type, q ≠ p → (held q).2 ≠ .made k' (s.table e).inum type) (own : r.forks = false)
    (taken : (perform p r).run s = .ok (x, t)) : Moves t held p r x := by
  obtain ⟨h', ledger, kept⟩ := tracked.ledger.perform_own asked own taken
  cases r with
  | panic why => cases x
  | beginOp =>
    cases taken
    obtain rfl : h' = _ := kept
    exact tracked.quiet here ledger rfl rfl ⟨rfl, rfl, rfl, rfl, rfl, rfl⟩ ⟨add_ends_refs _ op rfl, rfl, rfl⟩ fun _ => id
  | endOp =>
    cases taken
    obtain rfl : h' = _ := kept
    exact tracked.quiet here ledger rfl rfl ⟨rfl, rfl, rfl, rfl, rfl, rfl⟩ ⟨add_ends_refs _ (-op) neg_zero, rfl, rfl⟩
      fun _ => id
  | ninodes =>
    cases taken
    obtain rfl : h' = _ := kept
    exact tracked.quiet here ledger rfl rfl (.refl _) (.refl _) fun _ learns =>
      ⟨tracked.tables.ninodes, learns⟩
  | iget inum _ => exact .of here rfl kept (tracked.iget here order taken kept ledger)
  | idup e =>
    cases taken
    exact .of here rfl kept (tracked.idup here order kept ledger)
  | acquire e =>
    simp only [Fs.perform, StateT.run] at taken
    split_ifs at taken with low free
    cases taken
    exact .of here rfl kept (tracked.acquire here order.1 free kept ledger)
  | fill e => exact .of here rfl kept (tracked.fill here order taken kept ledger)
  | inode e =>
    cases taken
    exact .of here rfl kept (tracked.inode here ledger kept)
  | inum e =>
    cases taken
    exact .of here rfl kept (tracked.inum here ledger kept)
  | store e d =>
    cases taken
    exact .of here rfl kept (tracked.store here order kept ledger)
  | iupdate e =>
    cases taken
    have exclusive (full : k.knows (.full e)) (gone : k.knows (.gone e)) : False := by
      have mind := tracked.know here
      obtain ⟨_, _, same, typed⟩ := mind.holds _ full
      exact typed (same.symm.trans (mind.holds _ gone).2.1)
    rcases order with full | ⟨gone, sole⟩
    · obtain ⟨a', k', after, changes⟩ := tracked.iupdate here full kept ledger
      exact .of here rfl kept ⟨a', k', after, fun _ => changes, fun gone => (exclusive full gone).elim⟩
    · obtain ⟨a', k', after, freed⟩ := tracked.free here ⟨gone, sole⟩ kept ledger
      exact .of here rfl kept ⟨a', k', after, fun full => (exclusive full gone).elim, fun _ => freed⟩
  | iunlock e =>
    simp only [Fs.perform, StateT.run] at taken
    split_ifs at taken with mine
    cases taken
    exact .of here rfl kept (tracked.iunlock here order kept ledger)
  | putLast e =>
    simp only [Fs.perform, StateT.run, State.putLast] at taken
    split_ifs at taken with last free
    · cases taken
      exact .of here rfl kept (tracked.putLast here order.1 last free (fair e rfl last) kept.2 ledger)
    · cases taken
      exact .of here rfl kept (tracked.drop here order kept ledger)
  | itrunc e =>
    cases taken
    exact .of here rfl kept (tracked.itrunc here order.1 kept ledger)
  | invalidate e =>
    cases taken
    exact .of here rfl kept (tracked.invalidate here order kept ledger)
  | releasesleep e =>
    cases taken
    exact .of here rfl kept (tracked.releasesleep here order kept ledger)
  | dropRef e =>
    cases taken
    exact .of here rfl kept (tracked.drop here order kept ledger)
  | readDirent e off =>
    cases taken
    exact .of here rfl kept (tracked.readDirent here ledger kept)
  | writeDirent e off de => exact .of here rfl kept (tracked.writeDirent here order (Except.ok.inj taken) kept ledger)
  | tryAlloc inum type =>
    simp only [Fs.perform, StateT.run, State.tryAlloc] at taken
    split_ifs at taken with free
    · cases taken
      obtain ⟨a', k', after, learns⟩ := tracked.allocate here order free kept ledger
      refine ⟨a', h', _, after, kept, ?_⟩
      rw [here]
      refine ⟨k', learns.mono (fun _ => id) fun F learning => learning.2, rfl⟩
    · cases taken
      obtain rfl : h' = _ := kept
      obtain ⟨a', k', after, learns⟩ := tracked.silent here (.refl _) (.refl _) ledger
      refine ⟨a', _, _, after, rfl, ?_⟩
      rw [here]
      exact ⟨k', learns.mono (fun _ => id) fun F learning => absurd learning.1 (by simp), rfl⟩
  | filealloc =>
    have ran : s.filealloc = (x, t) := Except.ok.inj taken
    rcases filealloc_cases s with full | ⟨f, _, new⟩
    · cases full.symm.trans ran
      obtain rfl : h' = _ := kept
      exact tracked.quiet here ledger rfl rfl (.refl _) (.refl _) fun _ => id
    · cases new.symm.trans ran
      obtain ⟨zero, missing, rfl⟩ := kept
      refine .of here rfl ⟨zero, missing, rfl⟩ (tracked.sameFile here ledger rfl rfl ?_ rfl rfl rfl)
      exact fun f' => le_add_of_nonneg_right (single_nonneg f f')
  | filedup f =>
    simp only [Fs.perform, StateT.run] at taken
    split_ifs at taken with low
    cases taken
    obtain rfl : h' = _ := kept
    refine .of here rfl rfl (tracked.sameFile here ledger rfl rfl ?_ rfl rfl rfl)
    exact fun f' => le_add_of_nonneg_right (single_nonneg f f')
  | fileclose f => exact .of here rfl kept (tracked.fileclose here asked.2 order taken kept ledger)
  | setInode f device ip readable writable =>
    cases taken
    obtain rfl : h' = _ := kept
    refine .of here rfl rfl (tracked.setInode here asked.2 order ?_ ?_ ?_ rfl rfl ledger)
    · cases device with
      | none => exact .inl rfl
      | some major => exact .inr rfl
    · cases device <;> rfl
    · exact (sub_eq_add_neg _ _).symm
  | setPipe f page writable =>
    cases taken
    obtain rfl : h' = _ := kept
    refine .of here rfl rfl (tracked.setPipe here asked.2.1 rfl ?_ rfl rfl ledger)
    exact add_ends_refs _ _ neg_zero
  | newPipe page =>
    cases page with
    | none =>
      cases taken
      obtain rfl : h' = _ := kept
      exact tracked.quiet here ledger rfl rfl (.refl _) (.refl _) fun _ => id
    | some page =>
      simp only [Fs.perform, StateT.run, State.newPipe] at taken
      split_ifs at taken with free
      cases taken
      obtain ⟨first, second, rfl⟩ := kept
      exact tracked.quiet here ledger rfl ⟨first, second, rfl⟩ ⟨rfl, rfl, rfl, rfl, rfl, rfl⟩
        ⟨add_ends_refs _ _ (add_zero 0), rfl, rfl⟩ fun _ => id
  | pipeclose page writable =>
    obtain rfl : h' = _ := kept
    refine tracked.quiet here ledger rfl rfl ?_ ⟨add_ends_refs _ _ neg_zero, rfl, rfl⟩ fun _ => id
    simp only [Fs.perform, StateT.run, State.pipeclose] at taken
    cases open' : s.pipe page with
    | none => simp [open'] at taken
    | some pi =>
      simp only [open'] at taken
      split_ifs at taken
      · cases taken
        exact ⟨rfl, rfl, rfl, rfl, rfl, rfl⟩
      · cases taken
        exact ⟨rfl, rfl, rfl, rfl, rfl, rfl⟩
  | ofile fd =>
    cases taken
    obtain ⟨same, rfl⟩ := kept
    exact tracked.quiet here ledger rfl ⟨same, rfl⟩ (.refl _) (.refl _) fun _ => id
  | setOfile fd f | setZombie =>
    cases taken
    obtain rfl : h' = _ := kept
    exact tracked.quiet here ledger rfl rfl ⟨rfl, rfl, rfl, rfl, rfl, rfl⟩ ⟨rfl, rfl, rfl⟩ fun _ => id
  | cwd =>
    simp only [Fs.perform, StateT.run] at taken
    cases at' : (s.proc p).cwd with
    | none => simp [at'] at taken
    | some e =>
      simp only [at'] at taken
      cases taken
      obtain ⟨same, rfl⟩ := kept
      exact tracked.quiet here ledger rfl ⟨same, rfl⟩ (.refl _) (.refl _) fun _ learns =>
        ⟨(tracked.know here).cwd.trans same, learns⟩
  | setCwd e =>
    cases taken
    exact .of here rfl kept (tracked.setCwd here kept ledger)
  | _ => cases own

end

end Xv6.Fs
