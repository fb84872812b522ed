import Xv6.Bio.Pinning

namespace Xv6.BlockStore
open Lib Function
open Bio (Buf Bcache)
open Commit (Block Layout storeHead)
open GroupCommit (Log)

attribute [local simp] State.goto Bcache.setBuf facts

section
variable {ι : Type} {l : Layout} {s t : State ι} {p q : ι} {b : Buf} {x : Nat} {k : Pc} {r : Reader}

/-! ## The blocks of a transaction stay in the cache -/

theorem Logged.same (logged : Logged l s) (log : t.log.lh = s.log.lh) (size : t.log.size = s.log.size)
    (pinned : t.pinned = s.pinned) (blocks : SameBlocks s t)
    (valid : ∀ b, (s.bcache.buf b).valid = true → (t.bcache.buf b).valid = true) (order : t.unpinned <+: s.log.lh)
    (fewer : ∀ x ∈ pending t, x ∈ pending s) : Logged l t where
  size := by
    rw [size]
    exact logged.size
  bound := by
    rw [log]
    exact logged.bound
  homes := by
    rw [log]
    exact logged.homes
  nodup := by
    rw [log]
    exact logged.nodup
  pinned := by
    rw [log, pinned]
    exact logged.pinned
  order := by
    rw [log]
    exact order
  cached x member := by grind [logged.cached, blocks.dev, blocks.blockno]

theorem valid_of_owned (inv : Inv l s) (place : s.pc p = .user) (held : s.lock b = some p) :
    (s.bcache.buf b).valid = true := by
  rcases inv.filled p b held with valid | ⟨x, r, filling⟩
  · exact valid
  · rw [place] at filling
    cases filling

theorem logged_logWrite (inv : Inv l s) (place : s.pc p = .user) (owns : Owns l s p b) (quiet : s.unpinned = [])
    (small : (s.log.lh.length : Int) < s.log.size - 1) :
    Logged l (s.record b) := by
  have recorded := recordWrite_recorded (b := b) inv.toLogged quiet
  have blocks : SameBlocks s (s.record b) :=
    recordWrite_blocks _
  have size := inv.size
  refine ⟨inv.size, ?_, ?_, GroupCommit.nodup_recordBlock _ inv.nodup, recorded.pinned, ?_, ?_⟩
  · intro _
    change (GroupCommit.recordBlock s.log.lh (s.blockno b)).length < l.size
    by_cases old : s.blockno b ∈ s.log.lh
    · rw [recordBlock_of_mem old]
      omega
    · grind [recordBlock_of_notMem]
  · intro x member
    rcases GroupCommit.mem_recordBlock.mp member with old | rfl
    · exact inv.homes x old
    · exact owns.2.2
  · change s.unpinned <+: _
    rw [quiet]
    exact List.nil_prefix
  · intro x member
    rcases (recorded.pending x).mp member with old | rfl
    · obtain ⟨c, dev, blockno, valid⟩ := inv.cached x old
      exact ⟨c, by rw [blocks.dev, dev], by rw [blocks.blockno, blockno], by rw [recordWrite_valid, valid]⟩
    · have device := inv.device p b (inv.locked p b owns.1)
      exact ⟨b, by rw [blocks.dev, device], blocks.blockno b, by
        rw [recordWrite_valid, valid_of_owned inv place owns.1]⟩

theorem Inv.quiet (inv : Inv l s) (inside : s.inOp p = true) : s.unpinned = [] := by
  apply inv.rest
  by_contra committing
  have outside := inv.idle (by simpa using committing) p
  rw [inside] at outside
  cases outside

theorem Contents.same (contents : Contents l s) (blocks : SameBlocks s t)
    (valid : ∀ b, (t.bcache.buf b).valid = (s.bcache.buf b).valid) (data : t.data = s.data) (dirty : t.dirty = s.dirty)
    (disk : t.disk = s.disk) (store : t.store = s.store) (pending : ∀ x, x ∈ pending t ↔ x ∈ BlockStore.pending s)
    (writing : ∀ q b, writing (s.pc q) = some b → BlockStore.writing (t.pc q) = some b) : Contents l t := by
  constructor
  · intro b
    rw [blocks.dev, valid, blocks.blockno, dirty, data, store]
    exact contents.buffers b
  · intro x
    rw [pending, disk, store]
    exact contents.disk x
  · intro b
    rw [blocks.dev, valid, blocks.blockno, data, disk]
    intro device cached area
    exact (contents.area b device cached area).imp_right fun ⟨q, found⟩ => ⟨q, writing q b found⟩

theorem writing_code {pc : Pc} (found : writing pc = some b) : ∃ k, code l s pc = some (.bwrite b k) := by
  cases pc with
  | logBwrite tail dst src | headBwrite again b' =>
    cases found
    exact ⟨_, rfl⟩
  | _ => cases found

theorem Inv.log_block (inv : Inv l s) (inside : commits (s.pc p) = true) (still : writing (s.pc p) = none)
    (block : (Fact.block b x).Holds l s p) (valid : (Fact.valid b).Holds l s p) (area : ¬ Home l x) :
    s.data b = s.disk x := by
  obtain ⟨member, rfl⟩ := block
  rcases inv.area b (inv.device p b member) valid.2 area with same | ⟨q, found⟩
  · exact same
  · have working : commits (s.pc q) = true := by
      cases pc : s.pc q with
      | logBwrite | headBwrite => rfl
      | _ =>
        rw [pc] at found
        cases found
    obtain rfl := inv.solo p q inside working
    rw [still] at found
    cases found

theorem contents_logWrite (inv : Inv l s) (owns : Owns l s p b) : Contents l (s.record b) := by
  have recorded := recordWrite_recorded (b := b) inv.toLogged (inv.quiet owns.2.1)
  have blocks : SameBlocks s (s.record b) :=
    recordWrite_blocks _
  have device := inv.device p b (inv.locked p b owns.1)
  constructor
  · intro c
    rw [blocks.dev, blocks.blockno, recordWrite_valid]
    intro deviceC valid home clean
    change s.data c = update s.store (s.blockno b) (s.data b) (s.blockno c)
    by_cases same : c = b
    · subst same
      rw [update_self]
    · have other : s.blockno c ≠ s.blockno b := fun equal => same (inv.toShared.unique device deviceC equal)
      rw [update_of_ne other]
      exact inv.buffers c deviceC valid home (by simpa [recordWrite, same] using clean)
  · intro x home free
    rw [recorded.pending, not_or] at free
    change s.disk x = update s.store (s.blockno b) (s.data b) x
    rw [update_of_ne free.2]
    exact inv.toContents.disk x home free.1
  · intro c
    rw [blocks.dev, blocks.blockno, recordWrite_valid]
    exact inv.area c

theorem initial_inv (l : Layout) (disk : Nat → Block) : Inv l (initial l disk : State ι) where
  cache := Bio.binit_inv
  locked := nofun
  device := nofun
  dirty := nofun
  counts b := by simp [initial, Bio.binit, pins, pending]
  active := ⟨∅, by simp [initial], rfl⟩
  committing := nofun
  solo := nofun
  idle := nofun
  rest _ := rfl
  size := rfl
  bound := fun some => absurd rfl some
  homes := nofun
  nodup := List.nodup_nil
  pinned := rfl
  order := List.nil_prefix
  cached := nofun
  buffers b device := by cases device
  disk _ _ _ := rfl
  area b device := by cases device
  places p := local_user _ p
  filled := nofun

theorem Logged.mem_pending (logged : Logged l s) : x ∈ pending s ↔ x ∈ s.log.lh ∧ x ∉ s.unpinned := by
  obtain ⟨rest, split⟩ := logged.order
  have nodup := logged.nodup
  rw [← split] at nodup
  have apart := (List.nodup_append.mp nodup).2.2
  rw [pending, logged.pinned, ← split, List.drop_left, List.mem_append]
  constructor
  · exact fun later => ⟨.inr later, fun first => apart x first x later rfl⟩
  · exact fun ⟨either, absent⟩ => either.resolve_left absent

variable [DecidableEq ι]

theorem logged_recycle {refs : List (ι × Buf)} (shared : Shared s) (logged : Logged l s)
    (unused : (s.bcache.buf b).refcnt = 0) :
    Logged l ({ s with bcache := s.bcache.setBuf b ⟨false, ROOTDEV, x, 1⟩, refs := refs }.goto p k) := by
  refine ⟨logged.size, logged.bound, logged.homes, logged.nodup, logged.pinned, logged.order, ?_⟩
  intro y member
  obtain ⟨c, dev, blockno, valid⟩ := logged.cached y member
  have other : c ≠ b := by
    rintro rfl
    have count := shared.counts c
    rw [pins, if_pos ⟨dev, by rw [blockno]; exact member⟩] at count
    omega
  refine ⟨c, ?_, ?_, ?_⟩
  · simpa [other] using dev
  · simpa [State.blockno, other] using blockno
  · simpa [other] using valid

theorem effect_logged (inv : Inv l s) (effect : Effect l s p t) : Logged l t := by
  have logged := inv.toLogged
  cases effect with
  | hit x r b =>
    exact logged.same rfl rfl rfl (.update rfl rfl rfl) (fun c valid => update_valid s.bcache b c id valid)
      logged.order fun _ => id
  | recycle x r b place absent unused => exact logged_recycle inv.toShared logged unused
  | fill x b r =>
    exact logged.same rfl rfl rfl (.update rfl rfl rfl)
      (fun c valid => update_valid s.bcache b c (fun _ => rfl) valid) logged.order fun _ => id
  | unref b k =>
    refine logged.same rfl rfl rfl (.update (Bio.brelse_buf s.bcache b) rfl rfl) ?_ logged.order fun _ => id
    intro c valid
    simp only [State.goto, Bio.brelse_buf]
    exact update_valid s.bcache b c id valid
  | unpin tail lbuf dbuf place =>
    have told := (effect_own inv (.unpin tail lbuf dbuf place)).facts
    have taken : s.unpinned ++ [s.blockno dbuf] = s.log.lh.take (tail + 1) :=
      told (.unpinned (tail + 1)) (by simp)
    refine logged.same rfl rfl rfl (.update rfl rfl rfl) (fun c valid => update_valid s.bcache dbuf c id valid)
      (taken ▸ List.take_prefix _ _) ?_
    intro x member
    simp only [pending, State.goto, List.length_append] at member
    rw [← List.drop_drop] at member
    exact List.mem_of_mem_drop member
  | clear => exact ⟨logged.size, nofun, nofun, List.nodup_nil, rfl, List.nil_prefix, nofun⟩
  | logWrite b place owns small => exact logged_logWrite inv place owns (inv.quiet owns.2.1) small
  | _ => exact logged.same rfl rfl rfl (.of_eq rfl) (fun _ => id) logged.order fun _ => id

theorem effect_filled (inv : Inv l s) (effect : Effect l s p t) (q : ι) (b : Buf) (held : t.lock b = some q) :
    (t.bcache.buf b).valid = true ∨ ∃ x r, t.pc q = .fill x b r := by
  by_cases other : q = p
  · subst other
    have own (mine : s.lock b = some q) (away : ∀ x r, s.pc q ≠ .fill x b r) : (s.bcache.buf b).valid = true := by
      grind [inv.filled]
    cases effect with
    | stop | beginOp | endOp | change => exact inv.filled q b held
    | logWrite b' =>
      rw [recordWrite_valid]
      exact inv.filled q b held
    | jump k found | copy b' v k found | bwrite b' k found =>
      refine .inl (own held ?_)
      intro x r filling
      rw [filling] at found
      cases found
    | hit x r b' place => exact .inl (update_valid s.bcache b' b id (own held (by simp [place])))
    | recycle x r b' place absent unused =>
      exact .inl ((inv.recycle_undisturbed unused q).valid b held (own held (by simp [place])))
    | acquire x b' r place => grind
    | filled x b' r place valid => grind
    | fill x b' r place => grind
    | release b' k place => grind
    | unref b' k place =>
      refine .inl ?_
      simp only [State.goto, Bio.brelse_buf]
      exact update_valid s.bcache b' b id (own held (by simp [place]))
    | unpin tail lbuf dbuf place => exact .inl (update_valid s.bcache dbuf b id (own held (by simp [place])))
    | clear place | finish place | commit place | bread x place | brelse b' place => exact .inl (own held (by simp [place]))
  · have before := effect_away effect other held
    rw [effect_pc effect other]
    exact (inv.filled q b before).imp_left ((effect_undisturbed inv effect other).valid b before)

/-! ## The contents of the blocks -/

theorem writing_elsewhere (still : writing (s.pc p) ≠ some b) (found : ∃ q, writing (s.pc q) = some b) :
    ∃ q, writing (update s.pc p k q) = some b := by
  obtain ⟨q, found⟩ := found
  have other : q ≠ p := by
    rintro rfl
    exact still found
  exact ⟨q, by rwa [update_of_ne other]⟩

theorem contents_recycle (contents : Contents l s) (place : s.pc p = .bread x r) : Contents l (s.recycle p x b r) := by
  constructor
  · intro c
    by_cases same : c = b
    · subst same
      simp
    · simpa [State.blockno, same] using contents.buffers c
  · exact contents.disk
  · intro c
    by_cases same : c = b
    · subst same
      simp
    · intro device valid area
      simp only [State.blockno, State.goto, Bcache.setBuf, update_of_ne same] at device valid area ⊢
      exact (contents.area c device valid area).imp_right (writing_elsewhere (by simp [place, writing]))

theorem contents_fill (inv : Inv l s) (place : s.pc p = .fill x b r)
    (invalid : (s.bcache.buf b).valid = false) : Contents l (s.fill p b (r.after b)) := by
  have blocks : SameBlocks s (s.fill p b (r.after b)) := .update rfl rfl rfl
  have others (c : Buf) (different : c ≠ b)
      (valid : (update s.bcache.buf b { s.bcache.buf b with valid := true } c).valid = true) :
      (s.bcache.buf c).valid = true := by
    rwa [update_of_ne different] at valid
  constructor
  · intro c
    rw [blocks.dev, blocks.blockno]
    intro device valid home clean
    by_cases same : c = b
    · grind [inv.toContents.disk, inv.toShared.pending_cached, inv.toLogged]
    · grind [inv.buffers]
  · exact inv.toContents.disk
  · intro c
    rw [blocks.dev, blocks.blockno]
    intro device valid area
    change update s.data b (s.disk (s.blockno b)) c = s.disk (s.blockno c) ∨ _
    by_cases same : c = b
    · subst same
      rw [update_self]
      exact .inl rfl
    · rw [update_of_ne same]
      exact (inv.area c device (others c same valid) area).imp_right (writing_elsewhere (by simp [place, writing]))

theorem contents_logCopy {v : Block} (contents : Contents l s) (area : ¬ Home l (s.blockno b))
    (still : writing (s.pc p) = none) (next : writing k = some b) :
    Contents l ({ s with data := update s.data b v }.goto p k) := by
  constructor
  · intro c device valid home clean
    have other : c ≠ b := by
      rintro rfl
      exact area home
    change update s.data b v c = s.store (s.blockno c)
    rw [update_of_ne other]
    exact contents.buffers c device valid home clean
  · exact contents.disk
  · intro c device valid log
    by_cases same : c = b
    · subst same
      exact .inr ⟨p, by rw [goto_pc_self, next]⟩
    · change update s.data b v c = s.disk (s.blockno c) ∨ _
      rw [update_of_ne same]
      exact (contents.area c device valid log).imp_right (writing_elsewhere (by rw [still]; nofun))

theorem contents_copy {v : Block} (inv : Inv l s) (found : code l s (s.pc p) = some (.copy b v k)) :
    Contents l ({ s with data := update s.data b v }.goto p k) := by
  have told := (inv.places p).facts
  have inside := (code_copy found).2
  cases place : s.pc p with
  | logCopy tail dst src =>
    rw [place] at found told
    cases found
    have entry : (Fact.entry src tail).Holds l s p := told _ (by simp)
    have block : (Fact.block b (l.start + tail + 1)).Holds l s p := told _ (by simp)
    refine contents_logCopy inv.toContents ?_ (by rw [place]; rfl) rfl
    rw [block.2]
    exact inv.inLog entry.2
  | head again b' =>
    rw [place] at found told
    cases found
    have block : (Fact.block b l.start).Holds l s p := told _ (by simp)
    have room : 0 < l.size := told .room (by simp)
    refine contents_logCopy inv.toContents ?_ (by rw [place]; rfl) rfl
    rw [block.2, Home, Layout.InLog]
    omega
  | installCopy tail lbuf dbuf =>
    rw [place] at found told
    cases found
    have entry : (Fact.entry b tail).Holds l s p := told _ (by simp)
    have logged : Fact.allLogged.Holds l s p := told _ (by simp)
    have contents : s.data lbuf = s.store (s.blockno b) := by
      rw [inv.log_block (b := lbuf) inside (by rw [place]; rfl) (told _ (by simp)) (told _ (by simp)) (inv.inLog entry.2)]
      exact logged tail _ entry.2
    have home : Home l (s.blockno b) := inv.homes _ (List.mem_of_getElem? entry.2)
    constructor
    · intro c device valid homeC clean
      change update s.data b (s.data lbuf) c = s.store (s.blockno c)
      by_cases same : c = b
      · subst same
        rw [update_self, contents]
      · rw [update_of_ne same]
        exact inv.buffers c device valid homeC clean
    · exact inv.toContents.disk
    · intro c device valid area
      have different : c ≠ b := by
        rintro rfl
        exact area home
      change update s.data b (s.data lbuf) c = s.disk (s.blockno c) ∨ _
      rw [update_of_ne different]
      exact (inv.area c device valid area).imp_right (writing_elsewhere (by simp [place, writing]))
  | _ =>
    rw [place] at found
    cases found

theorem contents_bwrite (inv : Inv l s) (found : code l s (s.pc p) = some (.bwrite b k)) :
    Contents l ({ s with disk := update s.disk (s.blockno b) (s.data b) }.goto p k) := by
  obtain ⟨held, clean⟩ := (inv.places p).claimed b (code_bwrite found).1
  have device := inv.device p b (inv.locked p b held)
  have valid : (s.bcache.buf b).valid = true := by grind [code, inv.filled]
  constructor
  · exact inv.buffers
  · intro x home free
    change update s.disk (s.blockno b) (s.data b) x = s.store x
    by_cases same : x = s.blockno b
    · grind [inv.buffers]
    · rw [update_of_ne same]
      exact inv.toContents.disk x home free
  · intro c deviceC validC area
    change s.data c = update s.disk (s.blockno b) (s.data b) (s.blockno c) ∨ _
    by_cases same : s.blockno c = s.blockno b
    · grind [inv.toShared.unique]
    · rw [update_of_ne same]
      refine (inv.area c deviceC validC area).imp_right (writing_elsewhere fun pending => ?_)
      obtain ⟨k', writes⟩ := writing_code (l := l) (s := s) pending
      rw [found] at writes
      exact same (congrArg s.blockno (Instr.bwrite.inj (Option.some.inj writes)).1.symm)

theorem contents_unpin {tail : Nat} {lbuf : Buf} (inv : Inv l s) (place : s.pc p = .installUnpin tail lbuf b) :
    Contents l (s.unpin p b k) := by
  have told := (inv.places p).facts
  rw [place] at told
  have entry : (Fact.entry b tail).Holds l s p := told _ (by simp)
  have installed : (Fact.installed tail).Holds l s p := told _ (by simp)
  obtain ⟨before, length⟩ := pending_unpin inv.toLogged entry.2 (told (.unpinned tail) (by simp))
  have blocks : SameBlocks s (s.unpin p b k) := .update rfl rfl rfl
  have valid (c : Buf) : ((Bio.bunpin s.bcache b).buf c).valid = (s.bcache.buf c).valid := by
    grind [Bio.bunpin]
  constructor
  · grind [blocks.dev, blocks.blockno, inv.buffers]
  · intro x home free
    by_cases same : x = s.blockno b
    · subst same
      exact installed _ entry.2
    · grind [inv.toContents.disk, pending, inv.pinned]
  · intro c
    rw [blocks.dev, blocks.blockno]
    intro device cached area
    exact (inv.area c device ((valid c).symm.trans cached) area).imp_right (writing_elsewhere (by simp [place, writing]))

theorem effect_contents (inv : Inv l s) (effect : Effect l s p t) : Contents l t := by
  have contents := inv.toContents
  have calm (still : writing (s.pc p) = none) (q : ι) (b : Buf) (found : writing (s.pc q) = some b) :
      writing (t.pc q) = some b := by
    by_cases other : q = p
    · subst other
      rw [still] at found
      cases found
    · rwa [effect_pc effect other]
  cases effect with
  | stop | beginOp | endOp => exact contents.same (.of_eq rfl) (fun _ => rfl) rfl rfl rfl rfl (fun _ => Iff.rfl) fun _ _ => id
  | jump k found =>
    refine contents.same (.of_eq rfl) (fun _ => rfl) rfl rfl rfl rfl (fun _ => Iff.rfl) (calm ?_)
    cases place : s.pc p with
    | logBwrite | headBwrite =>
      rw [place] at found
      cases found
    | _ => rfl
  | hit x r b place =>
    refine contents.same (.update rfl rfl rfl) (fun c => ?_) rfl rfl rfl rfl (fun _ => Iff.rfl) (calm (by rw [place]; rfl))
    by_cases same : c = b
    · subst same
      simp
    · simp [same]
  | recycle x r b place absent unused => exact contents_recycle contents place
  | acquire x b r place | filled x b r place | release b k place | finish place | commit place
  | bread x place | brelse b place =>
    exact contents.same (.of_eq rfl) (fun _ => rfl) rfl rfl rfl rfl (fun _ => Iff.rfl) (calm (by rw [place]; rfl))
  | fill x b r place invalid => exact contents_fill inv place invalid
  | copy b v k found => exact contents_copy inv found
  | bwrite b k found => exact contents_bwrite inv found
  | unref b k place =>
    refine contents.same (.update (Bio.brelse_buf s.bcache b) rfl rfl) (fun c => ?_) rfl rfl rfl rfl (fun _ => Iff.rfl)
      (calm (by rw [place]; rfl))
    simp only [State.goto, Bio.brelse_buf]
    by_cases same : c = b
    · subst same
      simp
    · simp [same]
  | unpin tail lbuf dbuf place => exact contents_unpin inv place
  | clear place =>
    have told := (inv.places p).facts
    rw [place] at told
    have done : s.unpinned = s.log.lh := told .allUnpinned (by simp)
    refine contents.same (.of_eq rfl) (fun _ => rfl) rfl rfl rfl rfl (fun x => ?_) (calm (by rw [place]; rfl))
    simp [pending, done, inv.pinned]
  | change b v place owns =>
    constructor
    · intro c device valid home clean
      have other : c ≠ b := by
        rintro rfl
        simp at clean
      change update s.data b v c = s.store (s.blockno c)
      rw [update_of_ne other]
      exact contents.buffers c device valid home (by simpa [other] using clean)
    · exact contents.disk
    · intro c device valid area
      have other : c ≠ b := by
        rintro rfl
        exact area owns.2.2
      change update s.data b v c = s.disk (s.blockno c) ∨ _
      rw [update_of_ne other]
      exact contents.area c device valid area
  | logWrite b place owns => exact contents_logWrite inv owns

/-! ## One block store -/

theorem step_inv {e : Event ι} (taken : step l s e = some t) (inv : Inv l s) : Inv l t := by
  have effect := step_effect inv.cache taken
  refine ⟨effect_shared inv effect, effect_control inv effect, effect_logged inv effect, effect_contents inv effect,
    ?_, effect_filled inv effect⟩
  intro q
  by_cases same : q = e.process
  · rw [same]
    exact effect_own inv effect
  · exact effect_local inv effect same

theorem bread_returns (inv : Inv l s) (place : s.pc p = .fill x b r) (home : Home l x)
    (taken : step l s (.next p) = some t) : t.data b = t.store x ∧ t.blockno b = x := by
  have inv' := step_inv taken inv
  have loc := inv.places p
  rw [place] at loc
  obtain ⟨held, clean⟩ := loc.claimed b (by simp [claims])
  have block : (Fact.block b x).Holds l s p := loc.facts _ (by simp)
  have device := inv.device p b block.1
  unfold step at taken
  split_ifs at taken
  simp only [Event.process, place, code, Option.bind_some, execute] at taken
  split_ifs at taken with valid
  · cases taken
    have same : s.data b = s.store (s.blockno b) := inv.buffers b device valid (by rwa [block.2]) clean
    rw [block.2] at same
    exact ⟨same, block.2⟩
  · cases taken
    have blocks : SameBlocks s (s.fill p b (r.after b)) := .update rfl rfl rfl
    have blockno := (blocks.blockno b).trans block.2
    have filled := inv'.buffers b (by rw [blocks.dev, device]) (by simp) (by rwa [blockno]) clean
    rw [blockno] at filled
    exact ⟨filled, blockno⟩

theorem one_block_store {disk : Nat → Block} {es : List (Event ι)} (reached : run (step l) (initial l disk) es = some s) :
    (∀ p x b r t, s.pc p = .fill x b r → Home l x → step l s (.next p) = some t →
      t.data b = t.store x ∧ t.blockno b = x) ∧
    (∀ x ∈ s.log.lh, x ∉ s.unpinned →
      ∃ b, (s.bcache.buf b).dev = ROOTDEV ∧ s.blockno b = x ∧ (s.bcache.buf b).valid = true) ∧
    (∀ b, (s.bcache.buf b).refcnt = (s.refs.map Prod.snd).count b +
      if (s.bcache.buf b).dev = ROOTDEV ∧ s.blockno b ∈ s.log.lh ∧ s.blockno b ∉ s.unpinned then 1 else 0) ∧
    (∀ x ∈ s.unpinned, s.disk x = s.store x) ∧
    s.pinned = s.log.lh ∧ s.pinned.Nodup ∧ s.unpinned <+: s.pinned ∧
    ∀ p, s.pc p = .clear → s.unpinned = s.pinned := by
  have inv : Inv l s := run_inductive (fun _ _ _ => step_inv) (initial_inv l disk) reached
  refine ⟨?_, ?_, ?_, ?_, inv.pinned, ?_, ?_, ?_⟩
  · grind [bread_returns]
  · intro x member absent
    exact inv.cached x (inv.toLogged.mem_pending.mpr ⟨member, absent⟩)
  · intro b
    rw [inv.counts b, pins]
    simp only [inv.toLogged.mem_pending]
  · grind [inv.toContents.disk, inv.homes, inv.order.subset, inv.toLogged.mem_pending]
  · rw [inv.pinned]
    exact inv.nodup
  · rw [inv.pinned]
    exact inv.order
  · intro p place
    have told := (inv.places p).facts
    rw [place] at told
    rw [inv.pinned]
    exact told .allUnpinned (by simp)

end

-- An operation changes block 40 and commits; then somebody reads the block.
def writeAndRead : List (Event Unit) :=
  let next (n : Nat) := List.replicate n (Event.next ())
  [.beginOp (), .bread () 40] ++ next 3 ++ [.change () 0 fun _ => 7, .logWrite () 0, .brelse () 0] ++ next 2 ++
    [.endOp ()] ++ next 48 ++ [.bread () 40] ++ next 2

def rereads : Pc → Bool
  | .fill 40 0 .user => true
  | _ => false

theorem one_block_store_writeAndRead : ∃ s t : State Unit,
    run (step ⟨2, 30⟩) (initial ⟨2, 30⟩ fun _ _ => 0) writeAndRead = some s ∧
    step ⟨2, 30⟩ s (.next ()) = some t ∧ s.disk 40 0 = 7 ∧ t.data 0 = t.store 40 := by
  obtain ⟨s, reached, disk, enabled, place⟩ := exists_some
    (o := run (step ⟨2, 30⟩) (initial ⟨2, 30⟩ fun _ _ => 0 : State Unit) writeAndRead)
    (P := fun s => s.disk 40 0 = 7 ∧ (step ⟨2, 30⟩ s (.next ())).isSome ∧ rereads (s.pc ())) (by decide +kernel)
  obtain ⟨t, taken⟩ := Option.isSome_iff_exists.mp enabled
  unfold rereads at place
  split at place
  · rename_i filling
    exact ⟨s, t, reached, taken, disk, ((one_block_store reached).1 () 40 0 .user t filling (by decide) taken).1⟩
  · cases place

end Xv6.BlockStore
