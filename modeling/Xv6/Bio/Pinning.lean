import Xv6.Bio.Progress

namespace Xv6.BlockStore
open Lib Function
open Bio (Buf Bcache)
open Commit (Block Layout storeHead)
open GroupCommit (Log)

attribute [local simp] pending facts recordWrite

/-! ## References and pins -/

section
variable {ι : Type} {l : Layout} {s t : State ι} {p q : ι} {b : Buf} {x : Nat} {k : Pc} {xs : List Nat}

structure SameBlocks (s t : State ι) : Prop where
  dev : ∀ b, (t.bcache.buf b).dev = (s.bcache.buf b).dev
  blockno : ∀ b, t.blockno b = s.blockno b

theorem SameBlocks.of_eq (bcache : t.bcache = s.bcache) : SameBlocks s t := by
  constructor
  · intro b
    rw [bcache]
  · intro b
    rw [State.blockno, bcache]
    rfl

theorem SameBlocks.update {v : Bio.BufState} (buf : t.bcache.buf = update s.bcache.buf b v)
    (dev : v.dev = (s.bcache.buf b).dev) (blockno : v.blockno = s.blockno b) : SameBlocks s t := by
  constructor
  · intro b'
    rw [buf]
    exact update_dev s.bcache b b' dev
  · intro b'
    rw [State.blockno, buf]
    exact update_blockno s.bcache b b' blockno

theorem SameBlocks.pins (same : SameBlocks s t) (pending : pending t = BlockStore.pending s) (b : Buf) :
    pins t b = BlockStore.pins s b := by
  simp only [BlockStore.pins, same.dev, same.blockno, pending]

theorem Shared.same (shared : Shared s) (bcache : t.bcache = s.bcache) (lock : t.lock = s.lock) (refs : t.refs = s.refs)
    (dirty : t.dirty = s.dirty) (pending : pending t = BlockStore.pending s) : Shared t where
  cache := by
    rw [bcache]
    exact shared.cache
  locked := by
    rw [lock, refs]
    exact shared.locked
  device := by
    rw [refs, bcache]
    exact shared.device
  dirty := by
    rw [dirty, lock]
    exact shared.dirty
  counts b := by
    rw [bcache, refs, (SameBlocks.of_eq bcache).pins pending]
    exact shared.counts b

theorem pending_unpin (logged : Logged l s) {tail : Nat} (entry : s.log.lh[tail]? = some (s.blockno b))
    (unpinned : s.unpinned = s.log.lh.take tail) :
    pending s = s.blockno b :: s.log.lh.drop (tail + 1) ∧ s.unpinned.length = tail := by
  obtain ⟨below, found⟩ := List.getElem?_eq_some_iff.mp entry
  have length : s.unpinned.length = tail := by
    rw [unpinned, List.length_take]
    omega
  refine ⟨?_, length⟩
  rw [pending, length, logged.pinned, List.drop_eq_getElem_cons below, found]

theorem recordBlock_of_mem (member : x ∈ xs) : GroupCommit.recordBlock xs x = xs := by
  induction xs with
  | nil => cases member
  | cons y xs ih =>
    unfold GroupCommit.recordBlock
    split_ifs with same
    · rw [same]
    · rw [ih ((List.mem_cons.mp member).resolve_left (Ne.symm same))]

theorem recordBlock_of_notMem (absent : x ∉ xs) : GroupCommit.recordBlock xs x = xs ++ [x] := by
  induction xs with
  | nil => rfl
  | cons y xs ih =>
    unfold GroupCommit.recordBlock
    rw [if_neg (by rintro rfl; simp at absent), ih (by simp_all), List.cons_append]

structure Recorded (s t : State ι) (b : Buf) : Prop where
  refcnt : ∀ c, (t.bcache.buf c).refcnt = (s.bcache.buf c).refcnt + if c = b ∧ s.blockno b ∉ s.log.lh then 1 else 0
  pending : ∀ x, x ∈ pending t ↔ x ∈ pending s ∨ x = s.blockno b
  pinned : t.pinned = t.log.lh

theorem recordWrite_recorded (logged : Logged l s) (quiet : s.unpinned = []) : Recorded s (s.record b) b := by
  have all : pending s = s.log.lh := by simp [quiet, logged.pinned]
  by_cases old : s.blockno b ∈ s.log.lh
  · constructor
    · intro c
      simp [old]
    · grind [pending, recordWrite]
    · simp [old, recordBlock_of_mem old, logged.pinned]
  · constructor
    · intro c
      simp only [recordWrite, if_neg old, Bio.bpin, Bcache.setBuf]
      by_cases same : c = b
      · subst same
        simp [old]
      · simp [same]
    · grind [pending, recordWrite]
    · simp [old, recordBlock_of_notMem old, logged.pinned]

theorem recordWrite_blocks (log : Log) : SameBlocks s (recordWrite s b log) :=
  ⟨fun c => recordWrite_dev c log, fun c => recordWrite_blockno c log⟩

theorem shared_logWrite (shared : Shared s) (logged : Logged l s) (quiet : s.unpinned = []) (held : s.lock b = some p) :
    Shared (s.record b) := by
  have recorded := recordWrite_recorded (b := b) logged quiet
  have blocks : SameBlocks s (s.record b) :=
    recordWrite_blocks _
  have device := shared.device p b (shared.locked p b held)
  have all : pending s = s.log.lh := by simp [quiet, logged.pinned]
  refine ⟨?_, shared.locked, ?_, ?_, ?_⟩
  · by_cases old : s.blockno b ∈ s.log.lh
    · simpa only [recordWrite, if_pos old] using shared.cache
    · simpa only [recordWrite, if_neg old] using Bio.bpin_inv shared.cache b
  · intro q c member
    rw [blocks.dev]
    exact shared.device q c member
  · intro c dirty
    by_cases same : c = b
    · subst same
      simp at dirty
    · exact shared.dirty c (by simpa [same] using dirty)
  · intro c
    rw [recorded.refcnt, shared.counts c]
    simp only [pins, blocks.dev, blocks.blockno, recorded.pending, all, Nat.add_assoc]
    congr 1
    by_cases same : c = b
    · grind
    · have other : (s.bcache.buf c).dev = ROOTDEV → s.blockno c ≠ s.blockno b :=
        fun device' equal => same (shared.unique device device' equal)
      simp only [same, false_and, ↓reduceIte, Nat.add_zero]
      refine if_congr (and_congr_right fun device' => ?_) rfl rfl
      simp [other device']

theorem code_jump {pc : Pc} (found : code l s pc = some (.jump k)) : commits pc = true := by
  cases pc with
  | user | bread | lockBuf | fill | relse | unref => cases found
  | _ => rfl

theorem Control.move (control : Control s) (pcs : ∀ q, q ≠ p → t.pc q = s.pc q)
    (stays : commits (t.pc p) = true → commits (s.pc p) = true) (outstanding : t.log.outstanding = s.log.outstanding)
    (committing : t.log.committing = s.log.committing) (inOp : t.inOp = s.inOp)
    (rest : s.log.committing = false → t.unpinned = []) : Control t := by
  have before (q : ι) (inside : commits (t.pc q) = true) : commits (s.pc q) = true := by
    by_cases same : q = p
    · subst same
      exact stays inside
    · rwa [← pcs q same]
  constructor
  · rw [outstanding, inOp]
    exact control.active
  · grind [control.committing]
  · grind [control.solo]
  · rw [committing, inOp]
    exact control.idle
  · rw [committing]
    exact rest

variable [DecidableEq ι]

theorem count_erase {refs : List (ι × Buf)} (member : (p, b) ∈ refs) (b' : Buf) :
    (refs.map Prod.snd).count b' = ((refs.erase (p, b)).map Prod.snd).count b' + if b' = b then 1 else 0 := by
  rw [((List.perm_cons_erase member).map Prod.snd).count_eq, List.map_cons]
  by_cases same : b' = b
  · subst same
    simp
  · simp [same, Ne.symm same]

theorem shared_hit {r : Reader} (shared : Shared s) (found : (s.bcache.buf b).dev = ROOTDEV ∧ s.blockno b = x) :
    Shared (s.hit p x b r) := by
  have blocks : SameBlocks s (s.hit p x b r) := .update rfl rfl rfl
  refine ⟨Bio.inv_same shared.cache rfl rfl, ?_, ?_, shared.dirty, ?_⟩
  · exact fun q c held => List.mem_cons_of_mem _ (shared.locked q c held)
  · grind [shared.device]
  · intro c
    rw [blocks.pins rfl]
    have count := shared.counts c
    by_cases same : c = b
    · grind
    · simpa [same, Ne.symm same] using count

theorem shared_recycle {r : Reader} (shared : Shared s) (logged : Logged l s)
    (absent : ∀ b, ¬ ((s.bcache.buf b).dev = ROOTDEV ∧ s.blockno b = x)) (unused : (s.bcache.buf b).refcnt = 0) :
    Shared (s.recycle p x b r) := by
  have fresh : x ∉ pending s := by grind [logged.cached]
  refine ⟨Bio.recycle_inv shared.cache absent, ?_, ?_, shared.dirty, ?_⟩
  · exact fun q c held => List.mem_cons_of_mem _ (shared.locked q c held)
  · intro q c member
    by_cases same : c = b
    · subst same
      simp
    · grind [shared.device]
  · intro c
    have count := shared.counts c
    change (update s.bcache.buf b _ c).refcnt = (b :: s.refs.map Prod.snd).count c + _
    by_cases same : c = b
    · subst same
      have none : pins (s.recycle p x c r) c = 0 := by
        simp only [pins, State.blockno, State.goto, Bcache.setBuf, update_self]
        exact if_neg fun both => fresh both.2
      simp only [none, update_self, List.count_cons_self]
      omega
    · rw [update_of_ne same, List.count_cons_of_ne (Ne.symm same), count]
      simp only [pins, State.blockno, State.goto, Bcache.setBuf, update_of_ne same]
      rfl

theorem shared_unref (shared : Shared s) (member : (p, b) ∈ s.refs) (free : s.lock b ≠ some p) :
    Shared ({ s with bcache := Bio.brelse s.bcache b, refs := s.refs.erase (p, b) }.goto p k) := by
  have blocks : SameBlocks s ({ s with bcache := Bio.brelse s.bcache b, refs := s.refs.erase (p, b) }.goto p k) :=
    .update (Bio.brelse_buf s.bcache b) rfl rfl
  refine ⟨Bio.brelse_inv shared.cache b, ?_, ?_, shared.dirty, ?_⟩
  · grind [shared.locked]
  · grind [blocks.dev, shared.device]
  · intro c
    rw [blocks.pins rfl]
    have count := shared.counts c
    rw [count_erase member c] at count
    change ((Bio.brelse s.bcache b).buf c).refcnt = ((s.refs.erase (p, b)).map Prod.snd).count c + _
    rw [Bio.brelse_buf]
    by_cases same : c = b
    · grind
    · simpa [same] using count

theorem shared_unpin {tail : Nat} (shared : Shared s) (logged : Logged l s)
    (entry : (Fact.entry b tail).Holds l s p) (unpinned : s.unpinned = s.log.lh.take tail) : Shared (s.unpin p b k) := by
  have blocks : SameBlocks s (s.unpin p b k) := .update rfl rfl rfl
  obtain ⟨before, length⟩ := pending_unpin logged entry.2 unpinned
  have after : pending (s.unpin p b k) = s.log.lh.drop (tail + 1) := by
    simp only [pending, State.goto, List.length_append, List.length_singleton, length, logged.pinned]
  have fresh : s.blockno b ∉ s.log.lh.drop (tail + 1) := by
    have nodup : (pending s).Nodup := by
      rw [pending, logged.pinned]
      exact logged.nodup.sublist (List.drop_sublist _ _)
    rw [before] at nodup
    exact (List.nodup_cons.mp nodup).1
  have device := shared.device p b entry.1
  refine ⟨Bio.inv_same shared.cache rfl rfl, shared.locked, ?_, shared.dirty, ?_⟩
  · intro q c member
    rw [blocks.dev]
    exact shared.device q c member
  · intro c
    have count := shared.counts c
    simp only [pins, before] at count
    simp only [pins, blocks.dev, blocks.blockno, after]
    change (update s.bcache.buf b _ c).refcnt = (s.refs.map Prod.snd).count c + _
    by_cases same : c = b
    · grind
    · have other : (s.bcache.buf c).dev = ROOTDEV → s.blockno c ≠ s.blockno b :=
        fun device' equal => same (shared.unique device device' equal)
      rw [update_of_ne same, count]
      congr 1
      refine if_congr (and_congr_right fun device' => ?_) rfl rfl
      simp [other device']

theorem effect_shared (inv : Inv l s) (effect : Effect l s p t) : Shared t := by
  cases effect with
  | hit x r b place found => exact shared_hit inv.toShared found
  | recycle x r b place absent unused => exact shared_recycle inv.toShared inv.toLogged absent unused
  | acquire x b r place free =>
    have member := (inv.places p).awaited b (by rw [place]; rfl)
    refine ⟨inv.cache, ?_, inv.device, ?_, inv.counts⟩
    · grind [inv.locked]
    · grind [inv.dirty]
  | fill x b r place invalid =>
    have blocks : SameBlocks s (s.fill p b (r.after b)) := .update rfl rfl rfl
    refine ⟨Bio.inv_same inv.cache rfl rfl, inv.locked, ?_, inv.dirty, ?_⟩
    · grind [inv.device]
    · intro c
      rw [blocks.pins rfl]
      refine Eq.trans ?_ (inv.counts c)
      by_cases same : c = b
      · subst same
        simp
      · simp [same]
  | release b k place held =>
    have clean := ((inv.places p).claimed b (by simp [place, claims])).2
    refine ⟨inv.cache, ?_, inv.device, ?_, inv.counts⟩
    · grind [inv.locked]
    · grind [inv.dirty]
  | unref b k place =>
    have loc := inv.places p
    rw [place] at loc
    exact shared_unref inv.toShared (loc.awaited b rfl) (loc.leaving b k rfl)
  | unpin tail lbuf dbuf place =>
    have told := (inv.places p).facts
    rw [place] at told
    exact shared_unpin inv.toShared inv.toLogged (told (.entry dbuf tail) (by simp)) (told (.unpinned tail) (by simp))
  | clear place =>
    have told := (inv.places p).facts
    rw [place] at told
    have done : s.unpinned = s.log.lh := told .allUnpinned (by simp)
    refine inv.toShared.same rfl rfl rfl rfl ?_
    simp [State.goto, done, inv.pinned]
  | change b v place owns =>
    refine ⟨inv.cache, inv.locked, inv.device, ?_, inv.counts⟩
    intro c dirty
    by_cases same : c = b
    · subst same
      simp [owns.1]
    · exact inv.dirty c (by simpa [same] using dirty)
  | logWrite b place owns small =>
    have quiet : s.unpinned = [] := by
      apply inv.rest
      by_contra committing
      have outside := inv.idle (by simpa using committing) p
      rw [owns.2.1] at outside
      cases outside
    exact shared_logWrite inv.toShared inv.toLogged quiet owns.1
  | _ => exact inv.toShared.same rfl rfl rfl rfl rfl

/-! ## One process commits at a time -/

theorem commits_after (r : Reader) (b : Buf) : commits (r.after b) = commits (.fill x b r) := by
  cases r <;> rfl

theorem goto_pc_self (s : State ι) (p : ι) (k : Pc) : (s.goto p k).pc p = k := update_self ..

theorem control_finish (control : Control s) (place : s.pc p = .finish) (quiet : s.unpinned = []) :
    Control ({ s with log := { s.log with committing := false } }.goto p .user) := by
  have nobody (q : ι) : commits (({ s with log := { s.log with committing := false } }.goto p .user).pc q) = false := by
    by_cases same : q = p
    · subst same
      rw [goto_pc_self]
      rfl
    · rw [show State.pc _ q = s.pc q from update_of_ne same ..]
      by_contra inside
      exact same (control.solo q p (by simpa using inside) (by rw [place]; rfl))
  refine ⟨control.active, ?_, ?_, nofun, fun _ => quiet⟩
  · intro q inside
    rw [nobody] at inside
    cases inside
  · intro q q' inside
    rw [nobody] at inside
    cases inside

theorem control_beginOp (control : Control s) (outside : s.inOp p = false) (idle : s.log.committing = false) :
    Control { s with
      log := { s.log with outstanding := s.log.outstanding + 1 }
      inOp := update s.inOp p true } := by
  refine ⟨?_, control.committing, control.solo, ?_, control.rest⟩
  · obtain ⟨a, members, count⟩ := control.active
    have fresh : p ∉ a := by
      rw [members, outside]
      nofun
    refine ⟨insert p a, ?_, ?_⟩
    · grind
    · simp [Finset.card_insert_of_notMem fresh, count]
  · grind

theorem control_endOp (control : Control s) (inside : s.inOp p = true) :
    Control { s with
      log := { s.log with outstanding := s.log.outstanding - 1 }
      inOp := update s.inOp p false } := by
  refine ⟨?_, control.committing, control.solo, ?_, control.rest⟩
  · obtain ⟨a, members, count⟩ := control.active
    refine ⟨a.erase p, ?_, ?_⟩
    · grind
    · grind
  · grind [control.idle]

theorem control_commit (control : Control s) (inside : s.inOp p = true) (idle : s.log.committing = false)
    (last : s.log.outstanding = 1) :
    Control ({ s with
      log := { s.log with outstanding := 0, committing := true }
      inOp := update s.inOp p false }.goto p .commit) := by
  obtain ⟨a, members, count⟩ := control.active
  obtain ⟨p', only⟩ := Finset.card_eq_one.mp (show a.card = 1 by omega)
  have nobody (q : ι) (other : q ≠ p) : commits (({ s with
      log := { s.log with outstanding := 0, committing := true }
      inOp := update s.inOp p false }.goto p .commit).pc q) = false := by
    rw [show State.pc _ q = s.pc q from update_of_ne other ..]
    by_contra active
    have committing := control.committing q (by simpa using active)
    rw [idle] at committing
    cases committing
  have quiet (q : ι) : update s.inOp p false q = false := by grind
  refine ⟨⟨∅, ?_, rfl⟩, fun _ _ => rfl, ?_, fun _ => quiet, nofun⟩
  · grind
  · grind

theorem effect_control (inv : Inv l s) (effect : Effect l s p t) : Control t := by
  have pcs (q : ι) (other : q ≠ p) := effect_pc effect other
  have quiet (working : commits (s.pc p) = true) (none : s.log.committing = false) : t.unpinned = [] := by
    rw [inv.committing p working] at none
    cases none
  cases effect with
  | stop why | change b v place | logWrite b place => exact inv.toControl.move pcs id rfl rfl rfl inv.rest
  | jump k found => exact inv.toControl.move pcs (fun _ => code_jump found) rfl rfl rfl inv.rest
  | hit x r b place | recycle x r b place | acquire x b r place | release b k place | unref b k place =>
    refine inv.toControl.move pcs ?_ rfl rfl rfl inv.rest
    rw [goto_pc_self, place]
    exact id
  | filled x b r place | fill x b r place =>
    refine inv.toControl.move pcs ?_ rfl rfl rfl inv.rest
    rw [goto_pc_self, place, @commits_after x]
    exact id
  | copy b v k found => exact inv.toControl.move pcs (fun _ => (code_copy found).2) rfl rfl rfl inv.rest
  | bwrite b k found => exact inv.toControl.move pcs (fun _ => (code_bwrite found).2) rfl rfl rfl inv.rest
  | unpin tail lbuf dbuf place =>
    have working : commits (s.pc p) = true := by rw [place]; rfl
    exact inv.toControl.move pcs (fun _ => working) rfl rfl rfl (quiet working)
  | clear place => exact inv.toControl.move pcs (fun _ => by rw [place]; rfl) rfl rfl rfl fun _ => rfl
  | finish place =>
    have told := (inv.places p).facts
    rw [place] at told
    exact control_finish inv.toControl place (told (.unpinned 0) (by simp))
  | beginOp place outside idle => exact control_beginOp inv.toControl outside idle
  | endOp place inside => exact control_endOp inv.toControl inside
  | commit place inside idle last => exact control_commit inv.toControl inside idle last
  | bread x place | brelse b place =>
    refine inv.toControl.move pcs ?_ rfl rfl rfl inv.rest
    rw [goto_pc_self]
    nofun

end

end Xv6.BlockStore
