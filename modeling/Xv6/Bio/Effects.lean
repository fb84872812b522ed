import Xv6.Bio.Store

namespace Xv6.BlockStore
open Lib Function
open Bio (Buf Bcache)
open Commit (Block Layout storeHead)
open GroupCommit (Log)

/-! ## What a step can do -/

section
variable {ι : Type} [DecidableEq ι] (l : Layout)

def commits : Pc → Bool
  | .user => false
  | .bread _ r | .lockBuf _ _ r | .fill _ _ r => match r with
      | .user => false
      | _ => true
  | .relse _ k | .unref _ k => commits k
  | _ => true

inductive Effect (s : State ι) (p : ι) : State ι → Prop where
  | stop (why : Stop) : Effect s p (s.stop why)
  | jump (k : Pc) (found : code l s (s.pc p) = some (.jump k)) : Effect s p (s.goto p k)
  | hit (x : Nat) (r : Reader) (b : Buf) (place : s.pc p = .bread x r)
      (same : (s.bcache.buf b).dev = ROOTDEV ∧ s.blockno b = x) :
      Effect s p ({ s with
        bcache := s.bcache.setBuf b { s.bcache.buf b with refcnt := (s.bcache.buf b).refcnt + 1 }
        refs := (p, b) :: s.refs }.goto p (.lockBuf x b r))
  | recycle (x : Nat) (r : Reader) (b : Buf) (place : s.pc p = .bread x r)
      (absent : ∀ b, ¬ ((s.bcache.buf b).dev = ROOTDEV ∧ s.blockno b = x))
      (unused : (s.bcache.buf b).refcnt = 0) :
      Effect s p ({ s with
        bcache := s.bcache.setBuf b ⟨false, ROOTDEV, x, 1⟩
        refs := (p, b) :: s.refs }.goto p (.lockBuf x b r))
  | acquire (x : Nat) (b : Buf) (r : Reader) (place : s.pc p = .lockBuf x b r) (free : s.lock b = none) :
      Effect s p ({ s with lock := update s.lock b (some p) }.goto p (.fill x b r))
  | filled (x : Nat) (b : Buf) (r : Reader) (place : s.pc p = .fill x b r) (valid : (s.bcache.buf b).valid = true) :
      Effect s p (s.goto p (r.after b))
  | fill (x : Nat) (b : Buf) (r : Reader) (place : s.pc p = .fill x b r) (invalid : (s.bcache.buf b).valid = false) :
      Effect s p ({ s with
        data := update s.data b (s.disk (s.blockno b))
        bcache := s.bcache.setBuf b { s.bcache.buf b with valid := true } }.goto p (r.after b))
  | copy (b : Buf) (v : Block) (k : Pc) (found : code l s (s.pc p) = some (.copy b v k)) :
      Effect s p ({ s with data := update s.data b v }.goto p k)
  | bwrite (b : Buf) (k : Pc) (found : code l s (s.pc p) = some (.bwrite b k)) :
      Effect s p ({ s with disk := update s.disk (s.blockno b) (s.data b) }.goto p k)
  | release (b : Buf) (k : Pc) (place : s.pc p = .relse b k) (held : s.lock b = some p) :
      Effect s p ({ s with lock := update s.lock b none }.goto p (.unref b k))
  | unref (b : Buf) (k : Pc) (place : s.pc p = .unref b k) :
      Effect s p ({ s with bcache := Bio.brelse s.bcache b, refs := s.refs.erase (p, b) }.goto p k)
  | unpin (tail : Nat) (lbuf dbuf : Buf) (place : s.pc p = .installUnpin tail lbuf dbuf) :
      Effect s p ({ s with
        bcache := Bio.bunpin s.bcache dbuf
        unpinned := s.unpinned ++ [s.blockno dbuf] }.goto p (.relse lbuf (.relse dbuf (.install (tail + 1)))))
  | clear (place : s.pc p = .clear) :
      Effect s p ({ s with log := { s.log with lh := [] }, pinned := [], unpinned := [] }.goto p
        (.bread l.start (.head true)))
  | finish (place : s.pc p = .finish) :
      Effect s p ({ s with log := { s.log with committing := false } }.goto p .user)
  | beginOp (place : s.pc p = .user) (outside : s.inOp p = false) (idle : s.log.committing = false) :
      Effect s p { s with
        log := { s.log with outstanding := s.log.outstanding + 1 }
        inOp := update s.inOp p true }
  | endOp (place : s.pc p = .user) (inside : s.inOp p = true) :
      Effect s p { s with
        log := { s.log with outstanding := s.log.outstanding - 1 }
        inOp := update s.inOp p false }
  | commit (place : s.pc p = .user) (inside : s.inOp p = true) (idle : s.log.committing = false)
      (last : s.log.outstanding = 1) :
      Effect s p ({ s with
        log := { s.log with outstanding := 0, committing := true }
        inOp := update s.inOp p false }.goto p .commit)
  | bread (x : Nat) (place : s.pc p = .user) : Effect s p (s.goto p (.bread x .user))
  | change (b : Buf) (v : Block) (place : s.pc p = .user) (owns : Owns l s p b) :
      Effect s p { s with data := update s.data b v, dirty := update s.dirty b true }
  | logWrite (b : Buf) (place : s.pc p = .user) (owns : Owns l s p b)
      (small : (s.log.lh.length : Int) < s.log.size - 1) :
      Effect s p (recordWrite s b { s.log with lh := GroupCommit.recordBlock s.log.lh (s.blockno b) })
  | brelse (b : Buf) (place : s.pc p = .user) (held : s.lock b = some p) (clean : s.dirty b = false) :
      Effect s p (s.goto p (.relse b .user))

variable {l} {s t : State ι} {p : ι} {e : Event ι}

theorem userStep_effect (place : s.pc p = .user) (taken : userStep l s p e = some t) : Effect l s p t := by
  cases e with
  | next => cases taken
  | beginOp =>
    simp only [userStep] at taken
    split_ifs at taken with inside
    obtain ⟨log, begun, rfl⟩ := Option.map_eq_some_iff.mp taken
    obtain ⟨idle, -, rfl⟩ := GroupCommit.beginOp_eq_some.mp begun
    exact .beginOp place (by simpa using inside) idle
  | endOp =>
    simp only [userStep] at taken
    split_ifs at taken with inside
    cases ended : GroupCommit.endOp s.log with
    | error why =>
      simp only [ended, Option.some.injEq] at taken
      subst taken
      exact .stop _
    | ok result =>
      obtain ⟨log, last⟩ := result
      rw [ended] at taken
      unfold GroupCommit.endOp at ended
      dsimp only at ended
      split_ifs at ended with committing zero
      · cases ended
        have idle : s.log.committing = false := by simpa using committing
        cases taken
        rw [zero]
        exact .commit place inside idle (by omega)
      · cases ended
        cases taken
        exact .endOp place inside
  | bread q x =>
    cases taken
    exact .bread x place
  | change q b v =>
    simp only [userStep] at taken
    split_ifs at taken with owns
    cases taken
    exact .change b v place owns
  | logWrite q b =>
    simp only [userStep] at taken
    split_ifs at taken with owns
    unfold GroupCommit.logWrite at taken
    split_ifs at taken with big early
    · cases taken
      exact .stop _
    · cases taken
      exact .stop _
    · cases taken
      exact .logWrite b place owns (by omega)
  | brelse q b =>
    simp only [userStep] at taken
    split_ifs at taken with held
    cases taken
    exact .brelse b place held.1 held.2

omit [DecidableEq ι] in
theorem code_fill {pc k : Pc} {b : Buf} (found : code l s pc = some (.fill b k)) :
    ∃ x r, pc = .fill x b r ∧ k = r.after b := by
  cases pc with
  | fill x b' r =>
    cases found
    exact ⟨x, r, rfl, rfl⟩
  | _ => cases found

theorem kernel_effect {instr : Instr} (cache : s.bcache.Inv) (found : code l s (s.pc p) = some instr)
    (executed : execute s p instr = some t) : Effect l s p t := by
  cases instr with
  | jump k =>
    cases executed
    exact .jump k found
  | bget x r =>
    have place : s.pc p = .bread x r := by
      cases pc : s.pc p <;> rw [pc] at found <;> cases found
      rfl
    simp only [execute] at executed
    have cases := Bio.bget_got cache ROOTDEV x
    cases got : Bio.bget s.bcache ROOTDEV x with
    | error why =>
      simp only [got, Option.some.injEq] at executed
      subst executed
      exact .stop _
    | ok result =>
      obtain ⟨c, b⟩ := result
      simp only [got, Option.some.injEq] at executed
      subst executed
      rw [got] at cases
      cases cases with
      | hit _ same => exact .hit x r b place same
      | recycled _ absent unused => exact .recycle x r b place absent unused
  | acquire b k =>
    simp only [execute] at executed
    split_ifs at executed with free
    cases executed
    cases pc : s.pc p <;> rw [pc] at found <;> cases found
    exact .acquire _ b _ pc free
  | fill b k =>
    obtain ⟨x, r, place, rfl⟩ := code_fill found
    simp only [execute] at executed
    split_ifs at executed with valid
    · cases executed
      exact .filled x b r place valid
    · cases executed
      exact .fill x b r place (by simpa using valid)
  | copy b v k =>
    cases executed
    exact .copy b v k found
  | bwrite b k =>
    simp only [execute] at executed
    split_ifs at executed
    · cases executed
      exact .bwrite b k found
    · cases executed
      exact .stop _
  | release b k =>
    simp only [execute] at executed
    split_ifs at executed with held
    · cases executed
      cases pc : s.pc p <;> rw [pc] at found <;> cases found
      exact .release b _ pc held
    · cases executed
      exact .stop _
  | unref b k =>
    cases executed
    cases pc : s.pc p <;> rw [pc] at found <;> cases found
    exact .unref b k pc
  | unpin b k =>
    cases executed
    cases pc : s.pc p <;> rw [pc] at found <;> cases found
    exact .unpin _ _ b pc
  | clear k =>
    cases executed
    cases pc : s.pc p <;> rw [pc] at found <;> cases found
    exact .clear pc
  | finish k =>
    cases executed
    cases pc : s.pc p <;> rw [pc] at found <;> cases found
    exact .finish pc

theorem step_effect (cache : s.bcache.Inv) (taken : step l s e = some t) : Effect l s e.process t := by
  unfold step at taken
  split_ifs at taken
  split at taken
  · rename_i place
    exact userStep_effect place taken
  · cases e with
    | next p =>
      obtain ⟨instr, found, executed⟩ := Option.bind_eq_some_iff.mp taken
      exact kernel_effect cache found executed
    | _ => cases taken

end

/-! ## What the place of a process says -/

def Reader.claims : Reader → List Buf
  | .logFrom _ dst => [dst]
  | .installDst _ lbuf => [lbuf]
  | _ => []

def claims : Pc → List Buf
  | .bread _ r | .lockBuf _ _ r => r.claims
  | .fill _ b r => b :: r.claims
  | .relse b k => b :: claims k
  | .unref _ k => claims k
  | .logRead _ dst => [dst]
  | .logCopy _ dst src | .logBwrite _ dst src => [src, dst]
  | .head _ b | .headBwrite _ b => [b]
  | .installRead _ lbuf => [lbuf]
  | .installCopy _ lbuf dbuf | .installBwrite _ lbuf dbuf | .installUnpin _ lbuf dbuf => [dbuf, lbuf]
  | _ => []

def awaits : Pc → Option Buf
  | .lockBuf _ b _ | .unref b _ => some b
  | _ => none

inductive Fact where
  | block (b : Buf) (x : Nat)
  | valid (b : Buf)
  | entry (b : Buf) (i : Nat)
  | index (x i : Nat)
  | is (x y : Nat)
  | below (i : Nat)
  | copied (b : Buf) (i : Nat)
  | logged (n : Nat)
  | allLogged
  | unpinned (n : Nat)
  | allUnpinned
  | installed (i : Nat)
  | room
  | empty

section
variable {ι : Type} (l : Layout)

def Reader.facts (x : Nat) : Reader → List Fact
  | .user => []
  | .logTo tail => [.is x (l.start + tail + 1), .below tail, .logged tail, .unpinned 0, .room]
  | .logFrom tail dst =>
    [.index x tail, .block dst (l.start + tail + 1), .valid dst, .logged tail, .unpinned 0, .room]
  | .head again => [.is x l.start, .unpinned 0, .room, if again then .empty else .allLogged]
  | .installLog tail => [.is x (l.start + tail + 1), .below tail, .allLogged, .unpinned tail, .room]
  | .installDst tail lbuf =>
    [.index x tail, .block lbuf (l.start + tail + 1), .valid lbuf, .allLogged, .unpinned tail, .room]

def facts : Pc → List Fact
  | .user => []
  | .bread x r => r.facts l x
  | .lockBuf x b r | .fill x b r => .block b x :: r.facts l x
  | .relse _ k | .unref _ k => facts k
  | .commit => [.unpinned 0]
  | .writeLog tail => [.logged tail, .unpinned 0, .room]
  | .logRead tail dst =>
    [.below tail, .block dst (l.start + tail + 1), .valid dst, .logged tail, .unpinned 0, .room]
  | .logCopy tail dst src =>
    [.entry src tail, .valid src, .block dst (l.start + tail + 1), .valid dst, .logged tail, .unpinned 0, .room]
  | .logBwrite tail dst _ =>
    [.below tail, .block dst (l.start + tail + 1), .copied dst tail, .logged tail, .unpinned 0, .room]
  | .head again b | .headBwrite again b =>
    [.block b l.start, .valid b, .unpinned 0, .room, if again then .empty else .allLogged]
  | .install tail => [.allLogged, .unpinned tail, .room]
  | .installRead tail lbuf =>
    [.below tail, .block lbuf (l.start + tail + 1), .valid lbuf, .allLogged, .unpinned tail, .room]
  | .installCopy tail lbuf dbuf =>
    [.entry dbuf tail, .valid dbuf, .block lbuf (l.start + tail + 1), .valid lbuf, .allLogged, .unpinned tail, .room]
  | .installBwrite tail _ dbuf => [.entry dbuf tail, .valid dbuf, .allLogged, .unpinned tail, .room]
  | .installUnpin tail _ dbuf =>
    [.entry dbuf tail, .valid dbuf, .installed tail, .allLogged, .unpinned tail, .room]
  | .clear => [.allUnpinned, .room]
  | .finish => [.unpinned 0]

def Fact.Holds (s : State ι) (p : ι) : Fact → Prop
  | .block b x => (p, b) ∈ s.refs ∧ s.blockno b = x
  | .valid b => s.lock b = some p ∧ (s.bcache.buf b).valid = true
  | .entry b i => (p, b) ∈ s.refs ∧ s.log.lh[i]? = some (s.blockno b)
  | .index x i => s.log.lh[i]? = some x
  | .is x y => x = y
  | .below i => i < s.log.lh.length
  | .copied b i => s.lock b = some p ∧ ∀ x, s.log.lh[i]? = some x → s.data b = s.store x
  | .logged n => ∀ i x, i < n → s.log.lh[i]? = some x → s.disk (l.start + i + 1) = s.store x
  | .allLogged => ∀ i x, s.log.lh[i]? = some x → s.disk (l.start + i + 1) = s.store x
  | .unpinned n => s.unpinned = s.log.lh.take n
  | .allUnpinned => s.unpinned = s.log.lh
  | .installed i => ∀ x, s.log.lh[i]? = some x → s.disk x = s.store x
  | .room => 0 < l.size
  | .empty => s.log.lh = []

def Fact.plain : Fact → Bool
  | .block _ _ | .valid _ | .entry _ _ | .copied _ _ => false
  | _ => true

def settled : Pc → Bool
  | .user | .writeLog _ | .install _ | .finish => true
  | .relse _ k => settled k
  | _ => false

structure Local (s : State ι) (p : ι) (pc : Pc) : Prop where
  claimed : ∀ b ∈ claims pc, s.lock b = some p ∧ s.dirty b = false
  distinct : (claims pc).Nodup
  awaited : ∀ b, awaits pc = some b → (p, b) ∈ s.refs
  leaving : ∀ b k, pc = .unref b k → s.lock b ≠ some p
  settled : ∀ b k, pc = .relse b k ∨ pc = .unref b k → settled k = true
  facts : ∀ f ∈ facts l pc, f.Holds l s p

variable {l} {s t : State ι} {p : ι} {pc : Pc} {f : Fact}

structure Undisturbed (s t : State ι) (p : ι) : Prop where
  lock : ∀ b, s.lock b = some p → t.lock b = some p
  clean : ∀ b, s.lock b = some p → s.dirty b = false → t.dirty b = false
  refs : ∀ b, (p, b) ∈ s.refs → (p, b) ∈ t.refs
  blockno : ∀ b, (p, b) ∈ s.refs → t.blockno b = s.blockno b
  valid : ∀ b, s.lock b = some p → (s.bcache.buf b).valid = true → (t.bcache.buf b).valid = true
  data : ∀ b, s.lock b = some p → t.data b = s.data b

structure SameLog (s t : State ι) : Prop where
  lh : t.log.lh = s.log.lh
  disk : t.disk = s.disk
  store : t.store = s.store
  unpinned : t.unpinned = s.unpinned

theorem Fact.Holds.block_kept {b : Buf} {x : Nat} (kept : Undisturbed s t p) (holds : (Fact.block b x).Holds l s p) :
    (Fact.block b x).Holds l t p :=
  ⟨kept.refs b holds.1, (kept.blockno b holds.1).trans holds.2⟩

theorem Fact.Holds.kept (kept : Undisturbed s t p) (same : SameLog s t) (holds : f.Holds l s p) : f.Holds l t p := by
  obtain ⟨lh, disk, store, unpinned⟩ := same
  cases f with
  | block b x => exact holds.block_kept kept
  | valid b => exact ⟨kept.lock b holds.1, kept.valid b holds.1 holds.2⟩
  | entry b i =>
    refine ⟨kept.refs b holds.1, ?_⟩
    rw [lh, kept.blockno b holds.1, holds.2]
  | copied b i =>
    refine ⟨kept.lock b holds.1, ?_⟩
    rw [lh, kept.data b holds.1, store]
    exact holds.2
  | _ => simpa only [Fact.Holds, lh, disk, store, unpinned] using holds

theorem Fact.Holds.plain_kept (plain : f.plain = true) (same : SameLog s t) (holds : f.Holds l s p) : f.Holds l t p := by
  obtain ⟨lh, disk, store, unpinned⟩ := same
  cases f with
  | block | valid | entry | copied => cases plain
  | _ => simpa only [Fact.Holds, lh, disk, store, unpinned] using holds

theorem facts_of_not_commits (outside : commits pc = false) (member : f ∈ facts l pc) : ∃ b x, f = .block b x := by
  induction pc with
  | user => cases member
  | bread x r =>
    cases r with
    | user => cases member
    | _ => cases outside
  | lockBuf x b r | fill x b r => grind [commits, facts, Reader.facts]
  | relse b k ih | unref b k ih => exact ih outside member
  | _ => cases outside

theorem Local.kept (loc : Local l s p pc) (kept : Undisturbed s t p) (away : ∀ b, t.lock b = some p → s.lock b = some p)
    (same : commits pc = true → SameLog s t) :
    Local l t p pc where
  claimed b member :=
    ⟨kept.lock b (loc.claimed b member).1, kept.clean b (loc.claimed b member).1 (loc.claimed b member).2⟩
  distinct := loc.distinct
  awaited b found := kept.refs b (loc.awaited b found)
  leaving b k place held := loc.leaving b k place (away b held)
  settled := loc.settled
  facts f member := by
    have holds := loc.facts f member
    cases inside : commits pc with
    | true => exact holds.kept kept (same inside)
    | false =>
      obtain ⟨b, x, rfl⟩ := facts_of_not_commits inside member
      exact holds.block_kept kept

end

end Xv6.BlockStore
