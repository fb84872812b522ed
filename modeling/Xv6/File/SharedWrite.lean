import Xv6.Lib.Writes
import Xv6.Lib.Run
import Xv6.Param

namespace Xv6.File
open Lib Function

/-! ## `filewrite` on one file shared by several processes

The state has the fields of the shared `struct file` and of its inode that `filewrite` uses. -/

def maxChunk : Nat := ((MAXOPBLOCKS - 1 - 1 - 2) / 2) * BSIZE

structure WriteCall where
  n : Int
  data : Nat → UInt8
  i : Nat

namespace WriteCall

def bytes (c : WriteCall) (start len : Nat) : List UInt8 := (List.range len).map fun k => c.data (start + k)

def n1 (c : WriteCall) : Nat := min (c.n - c.i).toNat maxChunk

def chunk (c : WriteCall) : List UInt8 := c.bytes c.i c.n1

end WriteCall

inductive Stage where
  | test
  | beginOp
  | ilock
  | writei
  | advance (r : Int)
  | iunlock (r : Int)
  | endOp (r : Int)

/-- `order` lists the chunks as the inode lock was taken for them, `said p` the bytes of the calls
of `p` that have returned. -/
structure Shared (P : Type) where
  off : Nat
  size : Nat
  file : Nat → UInt8
  lock : Option P
  call : P → Option (WriteCall × Stage)
  ret : P → Int
  order : List (P × List UInt8)
  said : P → List UInt8

inductive WriteEvent (P : Type) where
  | filewrite (p : P) (n : Int) (data : Nat → UInt8)
  | next (p : P) (got : Nat)

section
variable {P : Type} [DecidableEq P]

namespace Shared

def writei (s : Shared P) (c : WriteCall) (got : Nat) : Int × List UInt8 :=
  if s.off > s.size ∨ s.off + c.n1 ≥ 2 ^ 32 then (-1, [])
  else if s.off + c.n1 > MAXFILE * BSIZE then (-1, [])
  else (min got c.n1, c.chunk.take got)

def goto (s : Shared P) (p : P) (c : WriteCall) (stage : Stage) : Shared P :=
  { s with call := update s.call p (some (c, stage)) }

def leave (s : Shared P) (p : P) (c : WriteCall) : Shared P :=
  { s with
    call := update s.call p none
    ret := update s.ret p (if c.i = c.n then c.n else -1)
    said := update s.said p (s.said p ++ c.bytes 0 c.i) }

end Shared

def writeNext (s : Shared P) (p : P) (got : Nat) : Option (Shared P) :=
  match s.call p with
  | none => none
  | some (c, .test) => if c.i < c.n then some (s.goto p c .beginOp) else some (s.leave p c)
  | some (c, .beginOp) => some (s.goto p c .ilock)
  | some (c, .ilock) =>
    if s.lock = none then some { s.goto p c .writei with lock := some p, order := s.order ++ [(p, c.chunk)] }
    else none
  | some (c, .writei) =>
    let wrote := s.writei c got
    some { s.goto p c (.advance wrote.1) with
      file := overlay s.file s.off wrote.2
      size := max s.size (s.off + wrote.2.length) }
  | some (c, .advance r) =>
    some { s.goto p c (.iunlock r) with off := if r > 0 then (s.off + r.toNat) % 2 ^ 32 else s.off }
  | some (c, .iunlock r) => some { s.goto p c (.endOp r) with lock := none }
  | some (c, .endOp r) =>
    if r ≠ c.n1 then some (s.leave p c) else some (s.goto p { c with i := c.i + c.n1 } .test)

def writeStep (s : Shared P) : WriteEvent P → Option (Shared P)
  | .filewrite p n data =>
    if (s.call p).isNone then some (s.goto p ⟨n, data, 0⟩ .test) else none
  | .next p got => writeNext s p got

def opened (off size : Nat) (file : Nat → UInt8) : Shared P where
  off := off
  size := size
  file := file
  lock := none
  call _ := none
  ret _ := 0
  order := []
  said _ := []

def WritesAll (s : Shared P) (got : Nat) : Option (WriteCall × Stage) → Prop
  | some (c, .writei) => (s.writei c got).1 = c.n1
  | _ => True

def Full (s : Shared P) : WriteEvent P → Prop
  | .filewrite .. => True
  | .next p got => WritesAll s got (s.call p)

instance (s : Shared P) (got : Nat) (place : Option (WriteCall × Stage)) : Decidable (WritesAll s got place) :=
  match place with
  | none => .isTrue trivial
  | some (c, .writei) => inferInstanceAs (Decidable ((s.writei c got).1 = c.n1))
  | some (_, .test) | some (_, .beginOp) | some (_, .ilock) | some (_, .advance _) | some (_, .iunlock _)
  | some (_, .endOp _) => .isTrue trivial

instance (s : Shared P) (e : WriteEvent P) : Decidable (Full s e) :=
  match e with
  | .filewrite .. => .isTrue trivial
  | .next p got => inferInstanceAs (Decidable (WritesAll s got (s.call p)))

/-! ## What has been written -/

def inOrder (chunks : List (P × List UInt8)) : List UInt8 := (chunks.map Prod.snd).flatten

def chunksOf (chunks : List (P × List UInt8)) (p : P) : List UInt8 := inOrder (chunks.filter fun c => c.1 = p)

omit [DecidableEq P] in
theorem inOrder_append (one two : List (P × List UInt8)) : inOrder (one ++ two) = inOrder one ++ inOrder two := by
  simp [inOrder]

structure Laid (off₀ : Nat) (file₀ : Nat → UInt8) (chunks : List (P × List UInt8)) (off : Nat)
    (file : Nat → UInt8) : Prop where
  file : file = overlay file₀ off₀ (inOrder chunks)
  off : off = off₀ + (inOrder chunks).length

def heard : Option (WriteCall × Stage) → List UInt8
  | none => []
  | some (c, .test) | some (c, .beginOp) | some (c, .ilock) => c.bytes 0 c.i
  | some (c, .writei) | some (c, .advance _) | some (c, .iunlock _) | some (c, .endOp _) => c.bytes 0 (c.i + c.n1)

def holdsInode : Option (WriteCall × Stage) → Prop
  | some (_, .writei) | some (_, .advance _) | some (_, .iunlock _) => True
  | _ => False

def Progress (off₀ : Nat) (file₀ : Nat → UInt8) (s : Shared P) (p : P) : Option (WriteCall × Stage) → Prop
  | some (c, .writei) => ∃ done, s.order = done ++ [(p, c.chunk)] ∧ Laid off₀ file₀ done s.off s.file
  | some (c, .advance r) => ∃ done, s.order = done ++ [(p, c.chunk)] ∧ r = c.n1 ∧
      s.file = overlay file₀ off₀ (inOrder s.order) ∧ s.off = off₀ + (inOrder done).length ∧ s.off + c.n1 < 2 ^ 32
  | some (c, .iunlock r) => Laid off₀ file₀ s.order s.off s.file ∧ r = c.n1
  | _ => False

structure Written (off₀ : Nat) (file₀ : Nat → UInt8) (s : Shared P) : Prop where
  lock : ∀ p, s.lock = some p ↔ holdsInode (s.call p)
  free : s.lock = none → Laid off₀ file₀ s.order s.off s.file
  held : ∀ p, s.lock = some p → Progress off₀ file₀ s p (s.call p)
  full : ∀ p c r, s.call p = some (c, .endOp r) → r = c.n1
  short : ∀ c ∈ s.order, c.2.length ≤ maxChunk
  own : ∀ p, chunksOf s.order p = s.said p ++ heard (s.call p)

omit [DecidableEq P] in
theorem WriteCall.length_chunk (c : WriteCall) : c.chunk.length = c.n1 := by simp [WriteCall.chunk, WriteCall.bytes]

omit [DecidableEq P] in
theorem WriteCall.bytes_add (c : WriteCall) (a m n : Nat) : c.bytes a (m + n) = c.bytes a m ++ c.bytes (a + m) n := by
  simp [WriteCall.bytes, List.range_add, Nat.add_assoc]

/-! ## One step -/

variable {off₀ : Nat} {file₀ : Nat → UInt8} {s u : Shared P} {p q : P} {c : WriteCall} {stage : Stage}

theorem Shared.call_goto_self : (s.goto p c stage).call p = some (c, stage) := update_self ..

theorem Shared.call_goto_of_ne (other : q ≠ p) : (s.goto p c stage).call q = s.call q := update_of_ne other ..

theorem Written.alone (inv : Written off₀ file₀ s) (mine : holdsInode (s.call p)) (theirs : holdsInode (s.call q)) : q = p := by
  have held := (inv.lock q).mpr theirs
  rw [(inv.lock p).mpr mine] at held
  exact (Option.some.inj held).symm

variable (chunks : List (P × List UInt8))

theorem chunksOf_snoc_self (p : P) (bytes : List UInt8) :
    chunksOf (chunks ++ [(p, bytes)]) p = chunksOf chunks p ++ bytes := by
  simp [chunksOf, inOrder]

theorem chunksOf_snoc_of_ne (bytes : List UInt8) (other : q ≠ p) :
    chunksOf (chunks ++ [(p, bytes)]) q = chunksOf chunks q := by
  simp [chunksOf, inOrder, Ne.symm other]

section

variable (inv : Written off₀ file₀ s)

include inv

theorem Written.quiet (file : u.file = s.file) (off : u.off = s.off) (lock : u.lock = s.lock)
    (order : u.order = s.order) (others : ∀ q ≠ p, u.call q = s.call q ∧ u.said q = s.said q)
    (before : ¬ holdsInode (s.call p)) (after : ¬ holdsInode (u.call p))
    (full : ∀ c r, u.call p = some (c, .endOp r) → r = c.n1)
    (own : u.said p ++ heard (u.call p) = s.said p ++ heard (s.call p)) : Written off₀ file₀ u where
  lock q := by
    rw [lock, inv.lock q]
    by_cases isP : q = p
    · grind
    · rw [(others q isP).1]
  free := by
    rw [lock, order, off, file]
    exact inv.free
  held q holds := by
    rw [lock] at holds
    have other : q ≠ p := by
      rintro rfl
      exact before ((inv.lock q).mp holds)
    have progress := inv.held q holds
    rw [(others q other).1]
    cases place : s.call q with
    | none => simp [place, Progress] at progress
    | some pair =>
      obtain ⟨d, stage⟩ := pair
      rw [place] at progress
      cases stage <;> simp only [Progress, order, off, file] at progress ⊢ <;> exact progress
  full q c r place := by grind [inv.full]
  short := by
    rw [order]
    exact inv.short
  own q := by
    rw [order, inv.own q]
    by_cases isP : q = p
    · subst isP
      exact own.symm
    · rw [(others q isP).1, (others q isP).2]

theorem Written.goto (before : ¬ holdsInode (s.call p)) (after : ¬ holdsInode (some (c, stage)))
    (full : ∀ r, stage ≠ .endOp r) (own : heard (some (c, stage)) = heard (s.call p)) :
    Written off₀ file₀ (s.goto p c stage) := by
  refine inv.quiet (p := p) rfl rfl rfl rfl (fun q other => ⟨Shared.call_goto_of_ne other, rfl⟩) before ?_ ?_ ?_
  · rwa [Shared.call_goto_self]
  · simp [Shared.call_goto_self, full]
  · rw [Shared.call_goto_self, own]
    rfl

theorem Written.leave (place : s.call p = some (c, .test)) : Written off₀ file₀ (s.leave p c) := by
  have gone : (s.leave p c).call p = none := update_self ..
  refine inv.quiet (p := p) rfl rfl rfl rfl ?_ (by rw [place]; exact id) (by rw [gone]; exact id) (by rw [gone]; exact nofun) ?_
  · intro q other
    exact ⟨update_of_ne other .., update_of_ne other ..⟩
  · rw [gone, place]
    simp [Shared.leave, heard]

theorem Written.holder (locked : u.lock = some p) (unheld : ∀ q ≠ p, ¬ holdsInode (s.call q))
    (others : ∀ q ≠ p, u.call q = s.call q ∧ u.said q = s.said q) (after : holdsInode (u.call p))
    (progress : Progress off₀ file₀ u p (u.call p)) (short : ∀ c ∈ u.order, c.2.length ≤ maxChunk)
    (own : ∀ q, chunksOf u.order q = u.said q ++ heard (u.call q)) :
    Written off₀ file₀ u where
  lock q := by
    rw [locked]
    by_cases isP : q = p
    · subst isP
      exact ⟨fun _ => after, fun _ => rfl⟩
    · grind
  free none := nomatch locked.symm.trans none
  held q holds := by grind
  full q c r place := by
    by_cases isP : q = p
    · subst isP
      rw [place] at after
      exact after.elim
    · rw [(others q isP).1] at place
      exact inv.full q c r place
  short := short
  own := own

theorem Written.own_goto (same : heard (some (c, stage)) = heard (s.call p)) (q : P) :
    chunksOf s.order q = s.said q ++ heard ((s.goto p c stage).call q) := by
  rw [inv.own q]
  by_cases isP : q = p
  · rw [isP, Shared.call_goto_self, same]
  · rw [Shared.call_goto_of_ne isP]

theorem Written.keep (mine : holdsInode (s.call p)) (stays : holdsInode (some (c, stage)))
    (same : heard (some (c, stage)) = heard (s.call p)) {file : Nat → UInt8} {off size : Nat}
    (progress : Progress off₀ file₀ { s.goto p c stage with file, off, size } p (some (c, stage))) :
    Written off₀ file₀ { s.goto p c stage with file, off, size } := by
  have now : (s.goto p c stage).call p = some (c, stage) := Shared.call_goto_self
  refine inv.holder ((inv.lock p).mpr mine) (fun q other holds => other (inv.alone mine holds))
    (fun q other => ⟨Shared.call_goto_of_ne other, rfl⟩) ?_ ?_ inv.short (inv.own_goto same)
  · rwa [now]
  · rwa [now]

theorem Written.ilock (place : s.call p = some (c, .ilock)) (unlocked : s.lock = none) :
    Written off₀ file₀ { s.goto p c .writei with lock := some p, order := s.order ++ [(p, c.chunk)] } := by
  have now : (s.goto p c .writei).call p = some (c, .writei) := Shared.call_goto_self
  refine inv.holder (p := p) rfl ?_ (fun q other => ⟨Shared.call_goto_of_ne other, rfl⟩) (by rw [now]; trivial) ?_ ?_ ?_
  · intro q _ holds
    have locked := (inv.lock q).mpr holds
    rw [unlocked] at locked
    exact nomatch locked
  · rw [now]
    exact ⟨s.order, rfl, inv.free unlocked⟩
  · intro d member
    rcases List.mem_append.mp member with old | new
    · exact inv.short d old
    · rw [List.mem_singleton.mp new, WriteCall.length_chunk]
      exact Nat.min_le_right ..
  · intro q
    by_cases isP : q = p
    · subst isP
      rw [chunksOf_snoc_self, inv.own q, now, place, heard, heard, WriteCall.bytes_add, Nat.zero_add, List.append_assoc]
      rfl
    · rw [chunksOf_snoc_of_ne _ _ isP, inv.own q]
      rw [show ({ s.goto p c .writei with lock := some p, order := s.order ++ [(p, c.chunk)] } : Shared P).call q = s.call q
        from Shared.call_goto_of_ne isP]
      rfl

theorem Written.writei (place : s.call p = some (c, .writei)) {got : Nat} (full : (s.writei c got).1 = c.n1) :
    Written off₀ file₀ { s.goto p c (.advance (s.writei c got).1) with
      file := overlay s.file s.off (s.writei c got).2
      size := max s.size (s.off + (s.writei c got).2.length) } := by
  have mine : holdsInode (s.call p) := by rw [place]; trivial
  have progress := inv.held p ((inv.lock p).mpr mine)
  rw [place] at progress
  obtain ⟨done, order, laid⟩ := progress
  have wrote : (s.writei c got).2 = c.chunk ∧ s.off + c.n1 < 2 ^ 32 := by
    rw [Shared.writei] at full ⊢
    split at full
    next => simp at full
    next fits =>
      split at full
      next => simp at full
      next =>
        refine ⟨?_, by omega⟩
        rw [if_neg fits, if_neg (by assumption)]
        exact List.take_of_length_le (by rw [WriteCall.length_chunk]; omega)
  have stays : holdsInode (some (c, .advance (s.writei c got).1)) := trivial
  refine inv.keep mine stays (by rw [place]; rfl) ⟨done, order, full, ?_, laid.off, wrote.2⟩
  change overlay s.file s.off (s.writei c got).2 = overlay file₀ off₀ (inOrder s.order)
  rw [wrote.1, laid.file, laid.off, overlay_append, order, inOrder_append]
  simp [inOrder]

theorem Written.advance {r : Int} (place : s.call p = some (c, .advance r)) :
    Written off₀ file₀ { s.goto p c (.iunlock r) with off := if r > 0 then (s.off + r.toNat) % 2 ^ 32 else s.off } := by
  have mine : holdsInode (s.call p) := by rw [place]; trivial
  have progress := inv.held p ((inv.lock p).mpr mine)
  rw [place] at progress
  obtain ⟨done, order, rfl, file, off, fits⟩ := progress
  have stays : holdsInode (some (c, .iunlock c.n1)) := trivial
  refine inv.keep mine stays (by rw [place]; rfl) ⟨⟨file, ?_⟩, rfl⟩
  have length : (inOrder s.order).length = (inOrder done).length + c.n1 := by
    grind [inOrder, WriteCall.length_chunk]
  change (if (c.n1 : Int) > 0 then (s.off + (c.n1 : Int).toNat) % 2 ^ 32 else s.off) = off₀ + (inOrder s.order).length
  split
  next =>
    omega
  next => omega

theorem Written.iunlock {r : Int} (place : s.call p = some (c, .iunlock r)) :
    Written off₀ file₀ { s.goto p c (.endOp r) with lock := none } := by
  have mine : holdsInode (s.call p) := by rw [place]; trivial
  have progress := inv.held p ((inv.lock p).mpr mine)
  rw [place] at progress
  obtain ⟨laid, isFull⟩ := progress
  have now : (s.goto p c (.endOp r)).call p = some (c, .endOp r) := Shared.call_goto_self
  have elsewhere {q : P} (other : q ≠ p) : (s.goto p c (.endOp r)).call q = s.call q := Shared.call_goto_of_ne other
  refine ⟨fun q => ⟨nofun, fun holds => ?_⟩, fun _ => laid, nofun, fun q d m is => ?_, inv.short,
    inv.own_goto (by rw [place]; rfl)⟩
  · by_cases isP : q = p
    · subst isP
      rw [now] at holds
      exact holds.elim
    · grind [inv.alone]
  · grind [inv.full]

theorem Written.next {got : Nat} (full : WritesAll s got (s.call p))
    (taken : writeNext s p got = some u) : Written off₀ file₀ u := by
  rw [writeNext] at taken
  cases place : s.call p with
  | none => simp [place] at taken
  | some pair =>
    obtain ⟨c, stage⟩ := pair
    rw [place] at taken
    cases stage with
    | test =>
      dsimp only at taken
      split at taken
      next =>
        cases taken
        exact inv.goto (by rw [place]; exact id) id nofun (by rw [place]; rfl)
      next =>
        cases taken
        exact inv.leave place
    | beginOp =>
      cases taken
      exact inv.goto (by rw [place]; exact id) id nofun (by rw [place]; rfl)
    | ilock =>
      obtain ⟨unlocked, is⟩ := Option.ite_none_right_eq_some.mp taken
      cases is
      exact inv.ilock place unlocked
    | writei =>
      cases taken
      rw [place] at full
      exact inv.writei place full
    | advance r =>
      cases taken
      exact inv.advance place
    | iunlock r =>
      cases taken
      exact inv.iunlock place
    | endOp r =>
      dsimp only at taken
      rw [if_neg (not_not.mpr (inv.full p c r place))] at taken
      cases taken
      exact inv.goto (by rw [place]; exact id) id nofun (by rw [place]; rfl)

theorem Written.step {e : WriteEvent P} (full : Full s e) (taken : writeStep s e = some u) : Written off₀ file₀ u := by
  cases e with
  | filewrite p n data =>
    obtain ⟨out, is⟩ := Option.ite_none_right_eq_some.mp taken
    cases is
    have place : s.call p = none := Option.isNone_iff_eq_none.mp out
    exact inv.goto (by rw [place]; exact id) id nofun (by rw [place]; rfl)
  | next p got => exact inv.next full taken

end

theorem written_opened (off size : Nat) (file : Nat → UInt8) : Written off file (opened off size file : Shared P) where
  lock _ := ⟨nofun, False.elim⟩
  free _ := ⟨(overlay_nil ..).symm, rfl⟩
  held _ := nofun
  full _ _ _ := nofun
  short _ := nofun
  own _ := rfl

/-! ## Runs -/

theorem shared_writes (off size : Nat) (file : Nat → UInt8) (events : List (WriteEvent P)) (s : Shared P)
    (full : Meets writeStep Full (opened off size file) events)
    (taken : run writeStep (opened off size file) events = some s) :
    (∀ p c, s.call p = some (c, .writei) →
      ∃ done, s.order = done ++ [(p, c.chunk)] ∧ s.off = off + (inOrder done).length) ∧
    (s.lock = none → s.file = overlay file off (inOrder s.order) ∧ s.off = off + (inOrder s.order).length) ∧
    (∀ c ∈ s.order, c.2.length ≤ 3 * BSIZE) ∧
    ∀ p, chunksOf s.order p = s.said p ++ heard (s.call p) := by
  have inv : Written off file s :=
    run_invariant (fun _ _ _ ok taken inv => inv.step ok taken) full (written_opened off size file) taken
  refine ⟨fun p c place => ?_, fun unlocked => ⟨(inv.free unlocked).file, (inv.free unlocked).off⟩, inv.short, inv.own⟩
  have progress := inv.held p ((inv.lock p).mpr (by rw [place]; trivial))
  rw [place] at progress
  obtain ⟨done, order, laid⟩ := progress
  exact ⟨done, order, laid.off⟩

end

def twoWriters : List (WriteEvent Bool) :=
  [.filewrite true 2 (fun _ => 7), .filewrite false 1 (fun _ => 9), .next true 0, .next true 0, .next false 0,
    .next true 0, .next false 0, .next true 2, .next true 0, .next true 0, .next false 0, .next false 1,
    .next false 0, .next false 0, .next true 0, .next true 0]

theorem shared_writes_twoWriters :
    ∃ s : Shared Bool, Meets writeStep Full (opened 5 5 fun _ => 0) twoWriters ∧
      run writeStep (opened 5 5 fun _ => 0) twoWriters = some s ∧ s.order = [(true, [7, 7]), (false, [9])] ∧
      s.file = overlay (fun _ => 0) 5 [7, 7, 9] ∧ s.off = 8 := by
  have full : Meets writeStep Full (opened 5 5 fun _ => 0) twoWriters := by decide +kernel
  obtain ⟨s, taken, unlocked, order⟩ := exists_some (o := run writeStep (opened 5 5 fun _ => 0) twoWriters)
    (P := fun s => s.lock = none ∧ s.order = [(true, [7, 7]), (false, [9])]) (by decide +kernel)
  obtain ⟨file, off⟩ := (shared_writes 5 5 (fun _ => 0) twoWriters s full taken).2.1 unlocked
  rw [order] at file off
  exact ⟨s, full, taken, order, file, off⟩

end Xv6.File
