import Xv6.Lib.Ring
import Xv6.Lib.Run
import Xv6.Param

namespace Xv6.Bio
open Lib Function

/-! ## The buffer cache of `bio.c`

A pointer to a buffer is its index, and `none` is `&bcache.head`. Each function below is what its
caller does under `bcache.lock`; contents and sleep-locks of the buffers are not the cache's. -/

abbrev Buf := Fin NBUF

structure BufState where
  valid : Bool
  dev : Nat
  blockno : Nat
  refcnt : Nat
  deriving DecidableEq

structure Bcache where
  links : Links Buf
  buf : Buf → BufState

inductive Stop where
  | noBuffers -- panic("bget: no buffers")
  | endless -- a loop along the list does not come back to its head
  deriving DecidableEq

namespace Bcache

def setBuf (c : Bcache) (b : Buf) (v : BufState) : Bcache := { c with buf := update c.buf b v }

def carries (c : Bcache) (dev blockno : Nat) (b : Buf) : Bool :=
  (c.buf b).dev == dev && (c.buf b).blockno == blockno

@[simp, grind =] theorem setBuf_buf (c : Bcache) (b b' : Buf) (v : BufState) :
    (c.setBuf b v).buf b' = if b' = b then v else c.buf b' := Function.update_apply ..

end Bcache

def binit : Bcache where
  links := (List.finRange NBUF).foldl Links.pushFront ⟨fun _ => none, fun _ => none⟩
  buf _ := ⟨false, 0, 0, 0⟩

def bget (c : Bcache) (dev blockno : Nat) : Except Stop (Bcache × Buf) :=
  match Links.walk c.links.next (c.carries dev blockno) (NBUF + 1) (c.links.next none) with
  | .found b => .ok (c.setBuf b { c.buf b with refcnt := (c.buf b).refcnt + 1 }, b)
  | .unfinished => .error .endless
  | .ended =>
    match Links.walk c.links.prev (fun b => (c.buf b).refcnt == 0) (NBUF + 1) (c.links.prev none) with
    | .found b => .ok (c.setBuf b ⟨false, dev, blockno, 1⟩, b)
    | .unfinished => .error .endless
    | .ended => .error .noBuffers

def brelse (c : Bcache) (b : Buf) : Bcache :=
  let c := c.setBuf b { c.buf b with refcnt := (c.buf b).refcnt - 1 }
  if (c.buf b).refcnt = 0 then { c with links := (c.links.unlink b).pushFront b } else c

def bpin (c : Bcache) (b : Buf) : Bcache := c.setBuf b { c.buf b with refcnt := (c.buf b).refcnt + 1 }

def bunpin (c : Bcache) (b : Buf) : Bcache := c.setBuf b { c.buf b with refcnt := (c.buf b).refcnt - 1 }

/-! ## The representation -/

structure Represents (c : Bcache) (l : List Buf) : Prop where
  ring : c.links.Ring l
  perm : l.Perm (List.finRange NBUF)

structure Bcache.Inv (c : Bcache) : Prop where
  list : ∃ l, Represents c l
  unique : ∀ b b', (c.buf b).dev ≠ 0 → (c.buf b').dev = (c.buf b).dev → (c.buf b').blockno = (c.buf b).blockno → b' = b

section
variable {c : Bcache} {l : List Buf} {b : Buf} {blockno dev : Nat}

theorem Represents.all (rep : Represents c l) (b : Buf) : b ∈ l :=
  rep.perm.mem_iff.mpr (List.mem_finRange b)

theorem Represents.length (rep : Represents c l) : l.length < NBUF + 1 := by
  rw [rep.perm.length_eq, List.length_finRange]
  exact Nat.lt_succ_self _

theorem Represents.setBuf (rep : Represents c l) (v : BufState) : Represents (c.setBuf b v) l := ⟨rep.ring, rep.perm⟩

inductive Got (c : Bcache) (dev blockno : Nat) : Except Stop (Bcache × Buf) → Prop where
  | hit (b : Buf) (same : (c.buf b).dev = dev ∧ (c.buf b).blockno = blockno) :
      Got c dev blockno (.ok (c.setBuf b { c.buf b with refcnt := (c.buf b).refcnt + 1 }, b))
  | recycled (b : Buf) (absent : ∀ b, ¬ ((c.buf b).dev = dev ∧ (c.buf b).blockno = blockno))
      (unused : (c.buf b).refcnt = 0) : Got c dev blockno (.ok (c.setBuf b ⟨false, dev, blockno, 1⟩, b))
  | full (absent : ∀ b, ¬ ((c.buf b).dev = dev ∧ (c.buf b).blockno = blockno)) (busy : ∀ b, (c.buf b).refcnt ≠ 0) :
      Got c dev blockno (.error .noBuffers)

theorem carries_iff : c.carries dev blockno b = true ↔ (c.buf b).dev = dev ∧ (c.buf b).blockno = blockno := by
  simp [Bcache.carries]

section

variable (inv : c.Inv)

include inv

theorem bget_got (dev blockno : Nat) : Got c dev blockno (bget c dev blockno) := by
  obtain ⟨l, rep⟩ := inv.list
  unfold bget
  rw [rep.ring.walk_next rep.length]
  cases hit : l.find? (c.carries dev blockno) with
  | some b => exact .hit b (carries_iff.mp (List.find?_some hit))
  | none =>
    have absent (b : Buf) : ¬ ((c.buf b).dev = dev ∧ (c.buf b).blockno = blockno) :=
      fun same => List.find?_eq_none.mp hit b (rep.all b) (carries_iff.mpr same)
    rw [rep.ring.walk_prev rep.length]
    cases unused : l.reverse.find? (fun b => (c.buf b).refcnt == 0) with
    | some b => exact .recycled b absent (by simpa using List.find?_some unused)
    | none =>
      refine .full absent fun b zero => ?_
      have := List.find?_eq_none.mp unused b (by simpa using rep.all b)
      simp [zero] at this

theorem inv_same {v : BufState} (dev : v.dev = (c.buf b).dev) (blockno : v.blockno = (c.buf b).blockno) :
    (c.setBuf b v).Inv := by
  obtain ⟨l, rep⟩ := inv.list
  refine ⟨⟨l, rep.setBuf v⟩, ?_⟩
  have fields (x : Buf) : ((c.setBuf b v).buf x).dev = (c.buf x).dev ∧
      ((c.setBuf b v).buf x).blockno = (c.buf x).blockno := by grind
  intro x y
  rw [(fields x).1, (fields y).1, (fields x).2, (fields y).2]
  exact inv.unique x y

theorem recycle_inv (absent : ∀ b, ¬ ((c.buf b).dev = dev ∧ (c.buf b).blockno = blockno)) :
    (c.setBuf b ⟨false, dev, blockno, 1⟩).Inv := by
  obtain ⟨l, rep⟩ := inv.list
  refine ⟨⟨l, rep.setBuf _⟩, ?_⟩
  intro x y allocated sameDev sameBlock
  by_cases first : x = b
  · grind
  · grind [inv.unique]

theorem bget_inv {c' : Bcache} (got : bget c dev blockno = .ok (c', b)) : c'.Inv := by
  have cases := bget_got inv dev blockno
  rw [got] at cases
  cases cases with
  | hit => exact inv_same inv rfl rfl
  | recycled _ absent => exact recycle_inv inv absent

theorem brelse_inv (b : Buf) : (brelse c b).Inv := by
  have kept : (c.setBuf b { c.buf b with refcnt := (c.buf b).refcnt - 1 }).Inv := inv_same inv rfl rfl
  unfold brelse
  dsimp only
  split_ifs
  · obtain ⟨l, rep⟩ := kept.list
    refine ⟨?_, kept.unique⟩
    obtain ⟨l₁, l₂, rfl⟩ := List.append_of_mem (rep.all b)
    have absent : b ∉ l₁ ++ l₂ := by grind [rep.ring.nodup]
    exact ⟨b :: (l₁ ++ l₂), rep.ring.unlink.pushFront absent, List.perm_middle.symm.trans rep.perm⟩
  · exact kept

theorem bpin_inv (b : Buf) : (bpin c b).Inv := inv_same inv rfl rfl

theorem bunpin_inv (b : Buf) : (bunpin c b).Inv := inv_same inv rfl rfl

end

theorem brelse_buf (c : Bcache) (b : Buf) :
    (brelse c b).buf = update c.buf b { c.buf b with refcnt := (c.buf b).refcnt - 1 } := by
  unfold brelse
  dsimp only
  split_ifs <;> rfl

theorem binit_inv : binit.Inv := by
  have ring := Links.Ring.pushFronts (k := ⟨fun _ => none, fun _ => none⟩) (l := []) ⟨⟨rfl, rfl⟩, List.nodup_nil⟩
    (List.nodup_finRange NBUF) (fun _ _ => List.not_mem_nil)
  rw [List.append_nil] at ring
  refine ⟨⟨_, ring, List.reverse_perm _⟩, ?_⟩
  intro b b' allocated
  exact absurd rfl allocated

end

/-! ## References to buffers

Any number of processes call the functions of the cache. The state also lists the references that
`bget` and `bpin` have given out and that `brelse` and `bunpin` have not yet taken back. -/

structure State where
  bcache : Bcache
  gets : List Buf
  pins : List Buf
  stopped : Option Stop

inductive Event where
  | bget (dev blockno : Nat)
  | brelse (b : Buf)
  | bpin (b : Buf)
  | bunpin (b : Buf)

def initial : State := ⟨binit, [], [], none⟩

def step (s : State) (e : Event) : Option State :=
  if s.stopped.isSome then none
  else match e with
    | .bget dev blockno =>
      if dev = 0 then none
      else match bget s.bcache dev blockno with
        | .ok (c, b) => some { s with bcache := c, gets := b :: s.gets }
        | .error stop => some { s with stopped := some stop }
    | .brelse b =>
      if b ∈ s.gets then some { s with bcache := brelse s.bcache b, gets := s.gets.erase b } else none
    | .bpin b => some { s with bcache := bpin s.bcache b, pins := b :: s.pins }
    | .bunpin b =>
      if b ∈ s.pins then some { s with bcache := bunpin s.bcache b, pins := s.pins.erase b } else none

structure Inv (s : State) : Prop where
  cache : s.bcache.Inv
  counts : ∀ b, (s.bcache.buf b).refcnt = s.gets.count b + s.pins.count b
  ends : s.stopped ≠ some .endless

section
variable {s t : State} {b : Buf} {e : Event}

theorem step_inv (taken : step s e = some t) (inv : Inv s) : Inv t := by
  unfold step at taken
  split_ifs at taken
  cases e with
  | bget dev blockno =>
    dsimp only at taken
    split_ifs at taken with device
    have found := bget_got inv.cache dev blockno
    cases got : bget s.bcache dev blockno with
    | error stop =>
      rw [got] at found
      simp only [got, Option.some.injEq] at taken
      subst taken
      cases found with
      | full => exact ⟨inv.cache, inv.counts, by simp⟩
    | ok result =>
      obtain ⟨c, b⟩ := result
      simp only [got, Option.some.injEq] at taken
      subst taken
      refine ⟨bget_inv inv.cache got, ?_, inv.ends⟩
      intro x
      have count := inv.counts x
      rw [got] at found
      cases found with
      | hit _ same | recycled _ absent unused => grind
  | brelse b =>
    dsimp only at taken
    split_ifs at taken with member
    cases taken
    refine ⟨brelse_inv inv.cache b, ?_, inv.ends⟩
    intro x
    have count := inv.counts x
    rw [brelse_buf]
    by_cases equal : x = b
    · grind
    · simpa [equal, List.count_erase_of_ne equal] using count
  | bpin b =>
    cases taken
    refine ⟨bpin_inv inv.cache b, ?_, inv.ends⟩
    intro x
    have count := inv.counts x
    by_cases equal : x = b
    · grind [bpin]
    · simpa [bpin, Bcache.setBuf, equal, Ne.symm equal] using count
  | bunpin b =>
    dsimp only at taken
    split_ifs at taken with member
    cases taken
    refine ⟨bunpin_inv inv.cache b, ?_, inv.ends⟩
    intro x
    have count := inv.counts x
    by_cases equal : x = b
    · grind [bunpin]
    · simpa [bunpin, Bcache.setBuf, equal, List.count_erase_of_ne equal] using count

theorem initial_inv : Inv initial := ⟨binit_inv, fun _ => rfl, nofun⟩

theorem step_keeps_block (taken : step s e = some t) (inv : Inv s) (used : 0 < (s.bcache.buf b).refcnt) :
    (t.bcache.buf b).dev = (s.bcache.buf b).dev ∧ (t.bcache.buf b).blockno = (s.bcache.buf b).blockno := by
  have update (x : Buf) (v : BufState) (dev : v.dev = (s.bcache.buf x).dev)
      (blockno : v.blockno = (s.bcache.buf x).blockno) :
      (update s.bcache.buf x v b).dev = (s.bcache.buf b).dev ∧
        (update s.bcache.buf x v b).blockno = (s.bcache.buf b).blockno := by grind
  unfold step at taken
  split_ifs at taken
  cases e with
  | bget dev blockno =>
    dsimp only at taken
    split_ifs at taken
    have found := bget_got inv.cache dev blockno
    cases got : bget s.bcache dev blockno with
    | error stop => grind
    | ok result =>
      obtain ⟨c, x⟩ := result
      simp only [got, Option.some.injEq] at taken
      subst taken
      rw [got] at found
      cases found with
      | hit => exact update x _ rfl rfl
      | recycled _ absent unused =>
        have other : b ≠ x := by
          rintro rfl
          omega
        simp [Bcache.setBuf, other]
  | brelse x =>
    dsimp only at taken
    split_ifs at taken
    cases taken
    rw [brelse_buf]
    exact update x _ rfl rfl
  | bpin x =>
    cases taken
    exact update x _ rfl rfl
  | bunpin x =>
    dsimp only at taken
    split_ifs at taken
    cases taken
    exact update x _ rfl rfl

theorem bcache_represented {es : List Event} (reached : run step initial es = some s) :
    (∃ l, s.bcache.links.Linked none l none ∧ l.Perm (List.finRange NBUF)) ∧
    (∀ r, s.bcache.links.prev (s.bcache.links.next r) = r ∧ s.bcache.links.next (s.bcache.links.prev r) = r) ∧
    (∀ b b', (s.bcache.buf b).dev ≠ 0 → (s.bcache.buf b').dev = (s.bcache.buf b).dev →
      (s.bcache.buf b').blockno = (s.bcache.buf b).blockno → b' = b) ∧
    (∀ e t b, step s e = some t → 0 < (s.bcache.buf b).refcnt →
      (t.bcache.buf b).dev = (s.bcache.buf b).dev ∧ (t.bcache.buf b).blockno = (s.bcache.buf b).blockno) ∧
    (∀ b, (s.bcache.buf b).refcnt = s.gets.count b + s.pins.count b) ∧
    s.stopped ≠ some .endless := by
  have inv : Inv s := run_inductive (fun _ _ _ => step_inv) initial_inv reached
  obtain ⟨l, rep⟩ := inv.cache.list
  have everywhere (r : Option Buf) : r = none ∨ r ∈ l.map some := by
    cases r with
    | none => exact .inl rfl
    | some b => exact .inr (by simpa using rep.all b)
  exact ⟨⟨l, rep.ring.linked, rep.perm⟩,
    fun r => ⟨rep.ring.prev_next (everywhere r), rep.ring.next_prev (everywhere r)⟩, inv.cache.unique,
    fun _ _ _ taken used => step_keeps_block taken inv used, inv.counts, inv.ends⟩

end

-- A pinned buffer stays when its holder is done; the next block gets another buffer.
def pinAndMiss : List Event := [.bget 1 7, .bpin 0, .brelse 0, .bget 1 8]

theorem bcache_represented_pinAndMiss : ∃ s, run step initial pinAndMiss = some s ∧
    s.gets = [1] ∧ (s.bcache.buf 0).blockno = 7 ∧ (s.bcache.buf 0).refcnt = 1 ∧
    (∃ l, s.bcache.links.Linked none l none ∧ l.Perm (List.finRange NBUF)) ∧
    (∀ b, (s.bcache.buf b).refcnt = s.gets.count b + s.pins.count b) := by
  refine exists_some_of (fun s => s.gets = [1] ∧ (s.bcache.buf 0).blockno = 7 ∧ (s.bcache.buf 0).refcnt = 1)
    (by decide +kernel) fun s reached ⟨gets, blockno, refcnt⟩ => ?_
  have all := bcache_represented reached
  exact ⟨gets, blockno, refcnt, all.1, all.2.2.2.2.1⟩

end Xv6.Bio
