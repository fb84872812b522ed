import Xv6.Lib.Fifo
import Xv6.Lib.Run

namespace Xv6.Console
open Lib

/-! ## `console.c` -/

abbrev INPUT_BUF : Nat := 128

instance : NeZero INPUT_BUF := ⟨by decide⟩

def newline : UInt8 := 0x0a
def carriageReturn : UInt8 := 0x0d
def delete : UInt8 := 0x7f

-- C(x)
def control (x : UInt8) : UInt8 := x - 0x40

def ctrlD : UInt8 := control 0x44
def ctrlH : UInt8 := control 0x48
def ctrlP : UInt8 := control 0x50
def ctrlU : UInt8 := control 0x55

structure Cons where
  buf : Fin INPUT_BUF → UInt8
  r : BitVec 32 -- read index
  w : BitVec 32 -- write index
  e : BitVec 32 -- edit index

-- cons.buf[i % INPUT_BUF]
def Cons.char (cons : Cons) (i : BitVec 32) : UInt8 := cons.buf (Fin.ofNat INPUT_BUF i.toNat)

-- cons.e--, cons.r++, cons.r-- and cons.w = cons.e
def Cons.back (cons : Cons) : Cons := { cons with e := cons.e - 1 }
def Cons.next (cons : Cons) : Cons := { cons with r := cons.r + 1 }
def Cons.unread (cons : Cons) : Cons := { cons with r := cons.r - 1 }
def Cons.commit (cons : Cons) : Cons := { cons with w := cons.e }

-- cons.buf[cons.e++ % INPUT_BUF] = c
def Cons.push (cons : Cons) (c : UInt8) : Cons :=
  { cons with buf := Function.update cons.buf (Fin.ofNat INPUT_BUF cons.e.toNat) c, e := cons.e + 1 }

-- The loop that kills a line; it ends at w after at most e - w rounds.
def killLoop : Nat → Cons → Cons
  | 0, cons => cons
  | rounds + 1, cons =>
    if cons.e ≠ cons.w ∧ cons.char (cons.e - 1) ≠ newline then killLoop rounds cons.back else cons

def storeChar (c : UInt8) (cons : Cons) : Cons :=
  let cons := cons.push c
  if c = newline ∨ c = ctrlD ∨ cons.e = cons.r + BitVec.ofNat 32 INPUT_BUF then cons.commit else cons

def consoleintr (c : UInt8) (cons : Cons) : Cons :=
  if c = ctrlP then cons
  else if c = ctrlU then killLoop (cons.e - cons.w).toNat cons
  else if c = ctrlH ∨ c = delete then if cons.e ≠ cons.w then cons.back else cons
  else if c ≠ 0 ∧ (cons.e - cons.r).toNat < INPUT_BUF then
    storeChar (if c = carriageReturn then newline else c) cons
  else cons

inductive Outcome where
  | ret (r : Int)
  | sleep

/-- The loop of `consoleread` under `cons.lock`, up to its return or the next `sleep`: `left` bytes to
go after the first `i`. Besides the outcome it gives the bytes copied to `dst`. -/
def consolereadLoop (killed : Bool) (dst : Nat → Bool) : (left i : Nat) → Cons → Cons × List UInt8 × Outcome
  | 0, i, cons => (cons, [], .ret i)
  | left + 1, i, cons =>
    if cons.r = cons.w then (cons, [], if killed then .ret (-1) else .sleep)
    else
      let c := cons.char cons.r
      if c = ctrlD then (if 0 < i then cons.next.unread else cons.next, [], .ret i)
      else if dst i then
        if c = newline then (cons.next, [c], .ret (i + 1))
        else
          let rest := consolereadLoop killed dst left (i + 1) cons.next
          (rest.1, c :: rest.2.1, rest.2.2)
      else (cons.next, [], .ret i)

/-! ## Input interrupts and any number of readers -/

inductive Reader where
  | out
  | returned (r : Int) (got : List UInt8)
  | reading (n : Int) (dst : Nat → Bool) (got : List UInt8)

def Reader.inCall : Reader → Bool
  | .out | .returned .. => false
  | .reading .. => true

structure ConsState (T : Type) where
  cons : Cons
  reader : T → Reader

/-- `dst i` says whether the `i`th byte of the destination can be written. A sleeper may run again at
any time: for a `wakeup` of its channel, or because it was killed. -/
inductive ConsEvent (T : Type) where
  | consoleintr (c : UInt8)
  | consoleread (t : T) (n : Int) (dst : Nat → Bool) (killed : Bool)
  | wake (t : T) (killed : Bool)

def Reader.after (n : Int) (dst : Nat → Bool) (got : List UInt8) : Outcome → Reader
  | .ret r => .returned r got
  | .sleep => .reading n dst got

section
variable {T : Type} [DecidableEq T]

def ConsState.read (s : ConsState T) (t : T) (n : Int) (dst : Nat → Bool) (got : List UInt8) (killed : Bool) :
    ConsState T :=
  let done := consolereadLoop killed dst (n.toNat - got.length) got.length s.cons
  ⟨done.1, Function.update s.reader t (.after n dst (got ++ done.2.1) done.2.2)⟩

def consStep (s : ConsState T) : ConsEvent T → Option (ConsState T)
  | .consoleintr c => some { s with cons := consoleintr c s.cons }
  | .consoleread t n dst killed =>
    if (s.reader t).inCall then none else some (s.read t n dst [] killed)
  | .wake t killed => match s.reader t with
      | .reading n dst got => some (s.read t n dst got killed)
      | _ => none

-- The console before the first interrupt: all of cons is zero.
def consoleinit : ConsState T := ⟨⟨fun _ => 0, 0, 0, 0⟩, fun _ => .out⟩

end

/-! ## A line editor

The characters typed since the last commit can still be edited; the committed ones wait for readers. -/

structure Editor (T : Type) where
  committed : List UInt8
  pending : List UInt8
  reader : T → Reader

def line : List UInt8 → List UInt8
  | [] => []
  | c :: rest => if c = ctrlD then [] else if c = newline then [c] else c :: line rest

/-- What a reader that has `i` bytes gets of the committed ones if it may have `left` more: the bytes
that stay, those it gets, and how it goes on. -/
def collect (killed : Bool) (left i : Nat) (committed : List UInt8) : List UInt8 × List UInt8 × Outcome :=
  let got := line (committed.take left)
  let rest := committed.drop got.length
  if got.length = left ∨ got.getLast? = some newline then (rest, got, .ret (i + got.length))
  else match rest with
    | [] => ([], got, if killed then .ret (-1) else .sleep)
    | _ :: after => (if i + got.length = 0 then after else rest, got, .ret (i + got.length))

section
variable {T : Type}

def Editor.accept (ed : Editor T) (c : UInt8) : Editor T :=
  let pending := ed.pending ++ [c]
  if c = newline ∨ c = ctrlD ∨ ed.committed.length + pending.length = INPUT_BUF then
    { ed with committed := ed.committed ++ pending, pending := [] }
  else { ed with pending := pending }

def Editor.type (ed : Editor T) (c : UInt8) : Editor T :=
  if c = ctrlP then ed
  else if c = ctrlU then { ed with pending := [] }
  else if c = ctrlH ∨ c = delete then { ed with pending := ed.pending.dropLast }
  else if c ≠ 0 ∧ ed.committed.length + ed.pending.length < INPUT_BUF then
    ed.accept (if c = carriageReturn then newline else c)
  else ed

variable [DecidableEq T]

def Editor.read (ed : Editor T) (t : T) (n : Int) (dst : Nat → Bool) (got : List UInt8) (killed : Bool) : Editor T :=
  let done := collect killed (n.toNat - got.length) got.length ed.committed
  { ed with
    committed := done.1
    reader := Function.update ed.reader t (.after n dst (got ++ done.2.1) done.2.2) }

def editorStep (ed : Editor T) : ConsEvent T → Option (Editor T)
  | .consoleintr c => some (ed.type c)
  | .consoleread t n dst killed =>
    if (ed.reader t).inCall then none else some (ed.read t n dst [] killed)
  | .wake t killed => match ed.reader t with
      | .reading n dst got => some (ed.read t n dst got killed)
      | _ => none

def Editor.empty : Editor T := ⟨[], [], fun _ => .out⟩

end

end Xv6.Console
