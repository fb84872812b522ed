import Xv6.Lib.Fifo
import Xv6.Lib.Run
import Xv6.Param

namespace Xv6.File
open Lib

/-! ## Pipes -/

abbrev PIPESIZE : Nat := 512

structure Pipe where
  data : Fin PIPESIZE → UInt8
  nread : BitVec 32
  nwrite : BitVec 32
  readopen : Bool
  writeopen : Bool

namespace Pipe

def ring (pi : Pipe) : Fifo UInt8 32 PIPESIZE := ⟨pi.data, pi.nread, pi.nwrite⟩

def buffered (pi : Pipe) : List UInt8 := pi.ring.contents

def put (pi : Pipe) (ch : UInt8) : Pipe :=
  { pi with data := Function.update pi.data (Fin.ofNat PIPESIZE pi.nwrite.toNat) ch, nwrite := pi.nwrite + 1 }

/-- The byte `pi->data[pi->nread++ % PIPESIZE]`. -/
def next (pi : Pipe) : UInt8 := pi.data (Fin.ofNat PIPESIZE pi.nread.toNat)

def take (pi : Pipe) : Pipe := { pi with nread := pi.nread + 1 }

end Pipe

/-! ## Stretches of a call under `pi->lock`

A stretch ends when the call returns or goes to sleep. `killed i` is what `pr->killed` reads at the
`i`th byte, `src i` and `dst i` are the outcomes of `copyin` and `copyout` there. -/

inductive Outcome where
  | ret (r : Int)
  | sleep (i : Nat)

/-- The loop of `pipewrite` with `left` bytes to go, and the bytes that it put into the ring. -/
def pipewriteLoop (killed : Nat → Bool) (src : Nat → Option UInt8) : (left i : Nat) → Pipe → Pipe × List UInt8 × Outcome
  | 0, i, pi => (pi, [], .ret i)
  | left + 1, i, pi =>
    if pi.readopen = false ∨ killed i then (pi, [], .ret (-1))
    else if pi.nwrite = pi.nread + BitVec.ofNat 32 PIPESIZE then (pi, [], .sleep i)
    else match src i with
      | none => (pi, [], .ret i)
      | some ch =>
        let rest := pipewriteLoop killed src left (i + 1) (pi.put ch)
        (rest.1, ch :: rest.2.1, rest.2.2)

/-- The copying loop of `piperead`, and the bytes that it took out of the ring. -/
def pipereadLoop (dst : Nat → Bool) : (left i : Nat) → Pipe → Pipe × List UInt8 × Outcome
  | 0, i, pi => (pi, [], .ret i)
  | left + 1, i, pi =>
    if pi.nread = pi.nwrite then (pi, [], .ret i)
    else if dst i then
      let rest := pipereadLoop dst left (i + 1) pi.take
      (rest.1, pi.next :: rest.2.1, rest.2.2)
    else (pi.take, [pi.next], .ret i)

def piperead (killed : Bool) (dst : Nat → Bool) (n : Int) (pi : Pipe) : Pipe × List UInt8 × Outcome :=
  if pi.nread = pi.nwrite ∧ pi.writeopen then
    if killed then (pi, [], .ret (-1)) else (pi, [], .sleep 0)
  else pipereadLoop dst n.toNat 0 pi

/-! ## Any number of callers -/

inductive Caller where
  | out
  | returned (r : Int)
  | writing (n : Int) (src : Nat → Option UInt8) (i : Nat)
  | reading (n : Int) (dst : Nat → Bool)

def Caller.inCall : Caller → Bool
  | .out | .returned _ => false
  | .writing .. | .reading .. => true

/-- `bytesIn` and `bytesOut` record the increments of `nwrite` and `nread`. -/
structure PipeState (T : Type) where
  pipe : Pipe
  caller : T → Caller
  bytesIn : List UInt8
  bytesOut : List UInt8

inductive PipeEvent (T : Type) where
  | pipewrite (t : T) (n : Int) (src : Nat → Option UInt8) (killed : Nat → Bool)
  | piperead (t : T) (n : Int) (dst : Nat → Bool) (killed : Bool)
  | wake (t : T) (killed : Nat → Bool)
  | close (writable : Bool)

section
variable {T : Type} [DecidableEq T] {pi : Pipe} {s : PipeState T}

def PipeState.write (s : PipeState T) (t : T) (n : Int) (src : Nat → Option UInt8) (i : Nat) (killed : Nat → Bool) :
    PipeState T :=
  let done := pipewriteLoop killed src (n - i).toNat i s.pipe
  { s with
    pipe := done.1
    bytesIn := s.bytesIn ++ done.2.1
    caller := Function.update s.caller t (match done.2.2 with
      | .ret r => .returned r
      | .sleep i => .writing n src i) }

def PipeState.read (s : PipeState T) (t : T) (n : Int) (dst : Nat → Bool) (killed : Bool) : PipeState T :=
  let done := piperead killed dst n s.pipe
  { s with
    pipe := done.1
    bytesOut := s.bytesOut ++ done.2.1
    caller := Function.update s.caller t (match done.2.2 with
      | .ret r => .returned r
      | .sleep _ => .reading n dst) }

def Pipe.close (pi : Pipe) (writable : Bool) : Pipe :=
  if writable then { pi with writeopen := false } else { pi with readopen := false }

/-- A sleeper may run again at any time: for a `wakeup` of its channel, or because it was killed. -/
def pipeStep (s : PipeState T) : PipeEvent T → Option (PipeState T)
  | .pipewrite t n src killed =>
    if (s.caller t).inCall then none else some (s.write t n src 0 killed)
  | .piperead t n dst killed =>
    if (s.caller t).inCall then none else some (s.read t n dst killed)
  | .wake t killed => match s.caller t with
      | .writing n src i => some (s.write t n src i killed)
      | .reading n dst => some (s.read t n dst (killed 0))
      | _ => none
  | .close writable => some { s with pipe := s.pipe.close writable }

/-- After `pipealloc`; the page holds whatever it held before. -/
def pipealloc (data : Fin PIPESIZE → UInt8) : PipeState T where
  pipe := ⟨data, 0, 0, true, true⟩
  caller _ := .out
  bytesIn := []
  bytesOut := []

/-! ## The ring is a queue -/

def Pipe.Bounded (pi : Pipe) : Prop := pi.ring.count ≤ PIPESIZE

theorem Pipe.put_ring (pi : Pipe) (ch : UInt8) : (pi.put ch).ring = pi.ring.put ch := rfl

theorem Pipe.take_ring (pi : Pipe) : pi.take.ring = pi.ring.take := rfl

theorem Pipe.put_spec (bounded : pi.Bounded) (room : pi.nwrite ≠ pi.nread + BitVec.ofNat 32 PIPESIZE)
    (ch : UInt8) : (pi.put ch).Bounded ∧ (pi.put ch).buffered = pi.buffered ++ [ch] := by
  have notFull : pi.ring.count ≠ PIPESIZE := fun full => room ((Fifo.full_iff (by decide) bounded).mpr full)
  have below : pi.ring.count < PIPESIZE := Nat.lt_of_le_of_ne bounded notFull
  rw [Pipe.Bounded, Pipe.buffered, Pipe.put_ring, Fifo.count_put (by decide) below,
    Fifo.contents_put (by decide) (by decide) below]
  exact ⟨below, rfl⟩

theorem Pipe.take_spec (bounded : pi.Bounded) (some : pi.nread ≠ pi.nwrite) :
    pi.take.Bounded ∧ pi.buffered = pi.next :: pi.take.buffered := by
  have fewer := Fifo.count_take (q := pi.ring) (by decide) bounded some
  rw [Pipe.Bounded, Pipe.buffered, Pipe.buffered, Pipe.take_ring, Fifo.contents_take (by decide) bounded some]
  rw [Pipe.Bounded] at bounded
  exact ⟨by omega, rfl⟩

theorem pipewriteLoop_spec (killed : Nat → Bool) (src : Nat → Option UInt8) (left i : Nat) (bounded : pi.Bounded) :
    let done := pipewriteLoop killed src left i pi
    done.1.Bounded ∧ done.1.buffered = pi.buffered ++ done.2.1 := by
  induction left generalizing i pi with
  | zero => exact ⟨bounded, (List.append_nil _).symm⟩
  | succ left ih =>
    have idle : pi.Bounded ∧ pi.buffered = pi.buffered ++ [] := ⟨bounded, (List.append_nil _).symm⟩
    simp only [pipewriteLoop]
    split
    next => exact idle
    next =>
      split
      next => exact idle
      next room =>
        cases src i with
        | none => exact idle
        | some ch =>
          obtain ⟨still, one⟩ := Pipe.put_spec bounded room ch
          obtain ⟨after, rest⟩ := ih (i + 1) still
          refine ⟨after, ?_⟩
          rw [rest, one, List.append_assoc]
          rfl

theorem pipereadLoop_spec (dst : Nat → Bool) (left i : Nat) (bounded : pi.Bounded) :
    let done := pipereadLoop dst left i pi
    done.1.Bounded ∧ pi.buffered = done.2.1 ++ done.1.buffered := by
  induction left generalizing i pi with
  | zero => exact ⟨bounded, rfl⟩
  | succ left ih =>
    simp only [pipereadLoop]
    split
    next => exact ⟨bounded, rfl⟩
    next some =>
      obtain ⟨still, one⟩ := Pipe.take_spec bounded some
      split
      next =>
        obtain ⟨after, rest⟩ := ih (i + 1) still
        refine ⟨after, ?_⟩
        rw [one, rest]
        rfl
      next => exact ⟨still, one⟩

theorem piperead_spec (killed : Bool) (dst : Nat → Bool) (n : Int) (bounded : pi.Bounded) :
    let done := piperead killed dst n pi
    done.1.Bounded ∧ pi.buffered = done.2.1 ++ done.1.buffered := by grind [piperead, pipereadLoop_spec]

/-! ## Runs -/

structure Queue (s : PipeState T) : Prop where
  bounded : s.pipe.Bounded
  bytes : s.bytesIn = s.bytesOut ++ s.pipe.buffered

theorem Queue.write (queue : Queue s) (t : T) (n : Int) (src : Nat → Option UInt8) (i : Nat)
    (killed : Nat → Bool) : Queue (s.write t n src i killed) := by
  obtain ⟨bounded, more⟩ := pipewriteLoop_spec killed src (n - i).toNat i queue.bounded
  refine ⟨bounded, ?_⟩
  simp only [PipeState.write]
  rw [more, queue.bytes, List.append_assoc]

theorem Queue.read (queue : Queue s) (t : T) (n : Int) (dst : Nat → Bool) (killed : Bool) :
    Queue (s.read t n dst killed) := by
  obtain ⟨bounded, fewer⟩ := piperead_spec killed dst n queue.bounded
  refine ⟨bounded, ?_⟩
  simp only [PipeState.read]
  rw [List.append_assoc, ← fewer, queue.bytes]

theorem Queue.step {t : PipeState T} {e : PipeEvent T} (taken : pipeStep s e = some t) (queue : Queue s) : Queue t := by
  cases e with
  | pipewrite c n src killed => grind [pipeStep, queue.write]
  | piperead c n dst killed => grind [pipeStep, queue.read]
  | wake c killed => grind [pipeStep, queue.write, queue.read]
  | close writable =>
    cases taken
    have ring : (s.pipe.close writable).ring = s.pipe.ring := by cases writable <;> rfl
    refine ⟨?_, ?_⟩
    · rw [Pipe.Bounded, ring]
      exact queue.bounded
    · rw [Pipe.buffered, ring]
      exact queue.bytes

theorem pipe_fifo (data : Fin PIPESIZE → UInt8) (events : List (PipeEvent T)) (s : PipeState T)
    (taken : run pipeStep (pipealloc data) events = some s) :
    (s.pipe.nwrite - s.pipe.nread).toNat ≤ PIPESIZE ∧ s.bytesIn = s.bytesOut ++ s.pipe.buffered := by
  have start : Queue (pipealloc data : PipeState T) := by
    refine ⟨?_, (Fifo.contents_of_empty rfl).symm⟩
    rw [Pipe.Bounded, Fifo.empty_iff.mp rfl]
    exact Nat.zero_le _
  have queue := run_inductive (fun _ _ _ => Queue.step) start taken
  exact ⟨queue.bounded, queue.bytes⟩

end

theorem pipe_fifo_twoWriters : ∃ s, run pipeStep (pipealloc fun _ => 0)
        [.pipewrite 0 2 (fun _ => some 7) (fun _ => false), .pipewrite 1 1 (fun _ => some 9) (fun _ => false),
          .piperead 2 1 (fun _ => true) false] = some s ∧
      (s.pipe.nwrite - s.pipe.nread).toNat ≤ PIPESIZE ∧ s.bytesIn = s.bytesOut ++ s.pipe.buffered := by
  refine exists_some_of (fun s => s.bytesOut = [7] ∧ s.pipe.buffered = [7, 9]) (by decide +kernel) fun s taken _ => ?_
  exact pipe_fifo _ _ s taken

end Xv6.File
