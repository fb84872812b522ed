import Xv6.Bio.Effects
import Xv6.Log.GroupCommit

namespace Xv6.BlockStore
open Lib Function
open Bio (Buf Bcache)
open Commit (Block Layout storeHead)
open GroupCommit (Log)

/-! ## Pins, locks and transactions -/

section
variable {ι : Type}

def pending (s : State ι) : List Nat := s.pinned.drop s.unpinned.length

def pins (s : State ι) (b : Buf) : Nat :=
  if (s.bcache.buf b).dev = ROOTDEV ∧ s.blockno b ∈ pending s then 1 else 0

def writing : Pc → Option Buf
  | .logBwrite _ dst _ => some dst
  | .headBwrite _ b => some b
  | _ => none

variable (l : Layout)

structure Shared (s : State ι) : Prop where
  cache : s.bcache.Inv
  locked : ∀ p b, s.lock b = some p → (p, b) ∈ s.refs
  device : ∀ p b, (p, b) ∈ s.refs → (s.bcache.buf b).dev = ROOTDEV
  dirty : ∀ b, s.dirty b = true → s.lock b ≠ none
  counts : ∀ b, (s.bcache.buf b).refcnt = (s.refs.map Prod.snd).count b + pins s b

structure Control (s : State ι) : Prop where
  active : ∃ a : Finset ι, (∀ p, p ∈ a ↔ s.inOp p = true) ∧ s.log.outstanding = a.card
  committing : ∀ p, commits (s.pc p) = true → s.log.committing = true
  solo : ∀ p q, commits (s.pc p) = true → commits (s.pc q) = true → p = q
  idle : s.log.committing = true → ∀ p, s.inOp p = false
  rest : s.log.committing = false → s.unpinned = []

structure Logged (s : State ι) : Prop where
  size : s.log.size = l.size
  bound : s.log.lh ≠ [] → s.log.lh.length < l.size
  homes : ∀ x ∈ s.log.lh, Home l x
  nodup : s.log.lh.Nodup
  pinned : s.pinned = s.log.lh
  order : s.unpinned <+: s.log.lh
  cached : ∀ x ∈ pending s, ∃ b, (s.bcache.buf b).dev = ROOTDEV ∧ s.blockno b = x ∧ (s.bcache.buf b).valid = true

structure Contents (s : State ι) : Prop where
  buffers : ∀ b, (s.bcache.buf b).dev = ROOTDEV → (s.bcache.buf b).valid = true → Home l (s.blockno b) →
    s.dirty b = false → s.data b = s.store (s.blockno b)
  disk : ∀ x, Home l x → x ∉ pending s → s.disk x = s.store x
  area : ∀ b, (s.bcache.buf b).dev = ROOTDEV → (s.bcache.buf b).valid = true → ¬ Home l (s.blockno b) →
    s.data b = s.disk (s.blockno b) ∨ ∃ p, writing (s.pc p) = some b

structure Inv (s : State ι) : Prop extends Shared s, Control s, Logged l s, Contents l s where
  places : ∀ p, Local l s p (s.pc p)
  filled : ∀ p b, s.lock b = some p → (s.bcache.buf b).valid = true ∨ ∃ x r, s.pc p = .fill x b r

variable {l} {s t : State ι} {p q : ι} {b : Buf} {v : Bio.BufState} {k : Pc}

theorem Shared.used (shared : Shared s) (member : (p, b) ∈ s.refs) : 0 < (s.bcache.buf b).refcnt := by
  have counted : 0 < (s.refs.map Prod.snd).count b := List.count_pos_iff.mpr (List.mem_map.mpr ⟨_, member, rfl⟩)
  rw [shared.counts b]
  omega

theorem Shared.unique {b' : Buf} (shared : Shared s) (device : (s.bcache.buf b).dev = ROOTDEV)
    (device' : (s.bcache.buf b').dev = ROOTDEV) (same : s.blockno b' = s.blockno b) : b' = b :=
  shared.cache.unique b b' (by rw [device]; decide) (by rw [device, device']) same

theorem Shared.pending_cached (shared : Shared s) (logged : Logged l s) (device : (s.bcache.buf b).dev = ROOTDEV)
    (member : s.blockno b ∈ pending s) : (s.bcache.buf b).valid = true := by
  obtain ⟨b', device', same, valid⟩ := logged.cached _ member
  obtain rfl := shared.unique device device' same
  exact valid

/-! ## What a step leaves of the other processes -/

theorem code_copy {v : Block} {pc : Pc} (found : code l s pc = some (.copy b v k)) :
    b ∈ claims pc ∧ commits pc = true := by
  cases pc <;> simp [code] at found <;> simp [claims, commits, found]

theorem code_bwrite {pc : Pc} (found : code l s pc = some (.bwrite b k)) : b ∈ claims pc ∧ commits pc = true := by
  cases pc <;> simp [code] at found <;> simp [claims, commits, found]

theorem update_dev (c : Bcache) (b b' : Buf) (dev : v.dev = (c.buf b).dev) :
    (update c.buf b v b').dev = (c.buf b').dev := by grind

theorem update_blockno (c : Bcache) (b b' : Buf) (blockno : v.blockno = (c.buf b).blockno) :
    (update c.buf b v b').blockno = (c.buf b').blockno := by grind

theorem held_elsewhere {c : Buf} (held : s.lock b = some p) (other : q ≠ p) (mine : s.lock c = some q) : c ≠ b := by
  grind

theorem recordWrite_blockno (b' : Buf) (log : Log) : (recordWrite s b log).blockno b' = s.blockno b' := by
  by_cases old : s.blockno b ∈ s.log.lh
  · simp only [recordWrite, if_pos old]
    rfl
  · simp only [recordWrite, if_neg old]
    exact update_blockno s.bcache b b' (by rfl)

theorem recordWrite_dev (b' : Buf) (log : Log) : ((recordWrite s b log).bcache.buf b').dev = (s.bcache.buf b').dev := by
  by_cases old : s.blockno b ∈ s.log.lh
  · simp only [recordWrite, if_pos old]
  · simp only [recordWrite, if_neg old]
    exact update_dev s.bcache b b' (by rfl)

theorem recordWrite_valid (b' : Buf) (log : Log) :
    ((recordWrite s b log).bcache.buf b').valid = (s.bcache.buf b').valid := by
  by_cases old : s.blockno b ∈ s.log.lh
  · simp only [recordWrite, if_pos old]
  · simp only [recordWrite, if_neg old, Bio.bpin, Bcache.setBuf]
    by_cases same : b' = b
    · subst same
      simp
    · simp [same]

variable [DecidableEq ι]

theorem refs_erase_of_ne (other : q ≠ p) (member : (q, b) ∈ s.refs) (b' : Buf) : (q, b) ∈ s.refs.erase (p, b') := by
  rw [List.mem_erase_of_ne (by simp [other])]
  exact member

theorem update_valid (c : Bcache) (b b' : Buf) (valid : (c.buf b).valid = true → v.valid = true)
    (before : (c.buf b').valid = true) : (update c.buf b v b').valid = true := by grind

abbrev State.hit (s : State ι) (p : ι) (x : Nat) (b : Buf) (r : Reader) : State ι :=
  { s with
    bcache := s.bcache.setBuf b { s.bcache.buf b with refcnt := (s.bcache.buf b).refcnt + 1 }
    refs := (p, b) :: s.refs }.goto p (.lockBuf x b r)

abbrev State.recycle (s : State ι) (p : ι) (x : Nat) (b : Buf) (r : Reader) : State ι :=
  { s with bcache := s.bcache.setBuf b ⟨false, ROOTDEV, x, 1⟩, refs := (p, b) :: s.refs }.goto p (.lockBuf x b r)

abbrev State.fill (s : State ι) (p : ι) (b : Buf) (k : Pc) : State ι :=
  { s with
    data := update s.data b (s.disk (s.blockno b))
    bcache := s.bcache.setBuf b { s.bcache.buf b with valid := true } }.goto p k

abbrev State.unpin (s : State ι) (p : ι) (b : Buf) (k : Pc) : State ι :=
  { s with bcache := Bio.bunpin s.bcache b, unpinned := s.unpinned ++ [s.blockno b] }.goto p k

abbrev State.record (s : State ι) (b : Buf) : State ι :=
  recordWrite s b { s.log with lh := GroupCommit.recordBlock s.log.lh (s.blockno b) }

theorem hit_undisturbed {x : Nat} {r : Reader} (q : ι) : Undisturbed s (s.hit p x b r) q where
  lock _ held := held
  clean _ _ clean := clean
  refs _ member := List.mem_cons_of_mem _ member
  blockno b' _ := update_blockno s.bcache b b' (by rfl)
  valid b' _ valid := update_valid s.bcache b b' id valid
  data _ _ := rfl

theorem Shared.recycle_undisturbed {x : Nat} {r : Reader} (shared : Shared s) (unused : (s.bcache.buf b).refcnt = 0) (q : ι) :
    Undisturbed s (s.recycle p x b r) q := by
  have other (b' : Buf) (member : (q, b') ∈ s.refs) : b' ≠ b := by
    rintro rfl
    have := shared.used member
    omega
  constructor
  · exact fun _ held => held
  · exact fun _ _ clean => clean
  · exact fun _ member => List.mem_cons_of_mem _ member
  · grind [State.blockno]
  · grind [shared.locked]
  · exact fun _ _ => rfl

theorem acquire_undisturbed (free : s.lock b = none) (q : ι) :
    Undisturbed s ({ s with lock := update s.lock b (some p) }.goto p k) q where
  lock b' held := by grind
  clean _ _ clean := clean
  refs _ member := member
  blockno _ _ := rfl
  valid _ _ valid := valid
  data _ _ := rfl

theorem effect_undisturbed (inv : Inv l s) (effect : Effect l s p t) (other : q ≠ p) : Undisturbed s t q := by
  have data (b : Buf) (v : Block) (held : s.lock b = some p) (b' : Buf) (mine : s.lock b' = some q) :
      update s.data b v b' = s.data b' :=
    update_of_ne (held_elsewhere held other mine) ..
  cases effect with
  | hit x r b place found => exact hit_undisturbed q
  | recycle x r b place absent unused => exact inv.recycle_undisturbed unused q
  | acquire x b r place free => exact acquire_undisturbed free q
  | fill x b r place invalid =>
    have held := ((inv.places p).claimed b (by simp [place, claims])).1
    refine ⟨fun _ => id, fun _ _ => id, fun _ => id, ?_, ?_, data b _ held⟩
    · exact fun b' _ => update_blockno s.bcache b b' (by rfl)
    · exact fun b' _ valid => update_valid s.bcache b b' (fun _ => rfl) valid
  | copy b v k found =>
    have held := ((inv.places p).claimed b (code_copy found).1).1
    exact ⟨fun _ => id, fun _ _ => id, fun _ => id, fun _ _ => rfl, fun _ _ => id, data b v held⟩
  | release b k place held =>
    refine ⟨?_, fun _ _ => id, fun _ => id, fun _ _ => rfl, fun _ _ => id, fun _ _ => rfl⟩
    intro b' mine
    simpa [State.goto, held_elsewhere held other mine] using mine
  | unref b k place =>
    refine ⟨fun _ => id, fun _ _ => id, ?_, ?_, ?_, fun _ _ => rfl⟩
    · exact fun b' member => refs_erase_of_ne other member b
    · simp [State.blockno, Bio.brelse_buf, update_blockno]
    · intro b' _ valid
      simp only [State.goto, Bio.brelse_buf]
      exact update_valid s.bcache b b' id valid
  | unpin tail lbuf dbuf place =>
    refine ⟨fun _ => id, fun _ _ => id, fun _ => id, ?_, ?_, fun _ _ => rfl⟩
    · exact fun b' _ => update_blockno s.bcache dbuf b' (by rfl)
    · exact fun b' _ valid => update_valid s.bcache dbuf b' id valid
  | change b v place owns =>
    refine ⟨fun _ => id, ?_, fun _ => id, fun _ _ => rfl, fun _ _ => id, data b v owns.1⟩
    intro b' mine clean
    simpa [held_elsewhere owns.1 other mine] using clean
  | logWrite b place owns small =>
    refine ⟨fun _ => id, ?_, fun _ => id, ?_, ?_, fun _ _ => rfl⟩
    · intro b' mine clean
      simpa [recordWrite, held_elsewhere owns.1 other mine] using clean
    · exact fun b' _ => recordWrite_blockno b' _
    · intro b' _ valid
      rw [recordWrite_valid]
      exact valid
  | _ => exact ⟨fun _ => id, fun _ _ => id, fun _ => id, fun _ _ => rfl, fun _ _ => id, fun _ _ => rfl⟩

theorem effect_away (effect : Effect l s p t) (other : q ≠ p) (held : t.lock b = some q) : s.lock b = some q := by
  cases effect with
  | acquire x b' r place free => grind
  | release b' k place mine => grind
  | _ => exact held

theorem effect_sameLog (inv : Inv l s) (effect : Effect l s p t) (other : q ≠ p) (inside : commits (s.pc q) = true) :
    SameLog s t := by
  have alone (working : commits (s.pc p) = true) : SameLog s t :=
    absurd (inv.solo q p inside working) other
  cases effect with
  | copy b v k found => exact alone (code_copy found).2
  | bwrite b k found => exact alone (code_bwrite found).2
  | unpin tail lbuf dbuf place | clear place => exact alone (by rw [place]; rfl)
  | logWrite b place owns small =>
    have outside := inv.idle (inv.committing q inside) p
    rw [owns.2.1] at outside
    cases outside
  | _ => exact ⟨rfl, rfl, rfl, rfl⟩

theorem effect_pc (effect : Effect l s p t) (other : q ≠ p) : t.pc q = s.pc q := by
  cases effect with
  | stop | beginOp | endOp | change | logWrite => rfl
  | _ => exact update_of_ne other ..

theorem effect_local (inv : Inv l s) (effect : Effect l s p t) (other : q ≠ p) : Local l t q (t.pc q) := by
  rw [effect_pc effect other]
  exact (inv.places q).kept (effect_undisturbed inv effect other) (fun _ => effect_away effect other)
    (effect_sameLog inv effect other)

end

end Xv6.BlockStore
