import Xv6.Fs.Calls
import Xv6.Lib.Sums

namespace Xv6.Fs
open Lib Function

/-! ## What a process has taken and not yet given back -/

/-- Open transactions, references to table entries, their locks, and pipe ends that no file stands for. -/
abbrev Balance := Int × (Entry → Int) × (Entry → Int) × (Page × Bool → Int)

def op : Balance := (1, 0, 0, 0)

def reference (e : Entry) : Balance := (0, Pi.single e 1, 0, 0)

def locked (e : Entry) : Balance := (0, 0, Pi.single e 1, 0)

def pipeEnd (x : Page × Bool) : Balance := (0, 0, 0, Pi.single x 1)

structure Child where
  slot : Slot
  todo : List Fd
  cwd : Bool

/-- `own` counts the references to files that the process answers for, in its descriptor table or not;
`fresh` are the files that it has allocated and not filled in. -/
structure Held where
  proc : Proc
  bal : Balance
  own : FileId → Int
  fresh : List FileId
  child : Option Child

namespace Held

def ops (h : Held) : Int := h.bal.1

def refs (h : Held) : Entry → Int := h.bal.2.1

def locks (h : Held) : Entry → Int := h.bal.2.2.1

def ends (h : Held) : Page × Bool → Int := h.bal.2.2.2

def add (h : Held) (b : Balance) : Held := { h with bal := h.bal + b }

end Held

def cwdBalance : Option Entry → Balance
  | some e => reference e
  | none => 0

def slotsOf (ofile : Fd → Option FileId) (f : FileId) : Int := ∑ fd, if ofile fd = some f then 1 else 0

variable (ofile : Fd → Option FileId)

theorem slotsOf_update (fd : Fd) (v : Option FileId) (f : FileId) :
    slotsOf (update ofile fd v) f =
      slotsOf ofile f + ((if v = some f then 1 else 0) - if ofile fd = some f then 1 else 0) :=
  sum_update (fun o : Option FileId => if o = some f then (1 : Int) else 0) ofile fd v

theorem slotsOf_nonneg (f : FileId) : 0 ≤ slotsOf ofile f := by
  refine Finset.sum_nonneg fun fd _ => ?_
  split_ifs <;> decide

variable {ofile : Fd → Option FileId} {fd : Fd}

theorem slotsOf_pos {f : FileId} (here : ofile fd = some f) : 1 ≤ slotsOf ofile f := by
  have cleared := slotsOf_nonneg (update ofile fd none) f
  rw [slotsOf_update, here] at cleared
  simpa using cleared

theorem slotsOf_fill (free : ofile fd = none) (f : FileId) :
    slotsOf (update ofile fd (some f)) = slotsOf ofile + Pi.single f 1 := by
  funext f'
  rw [slotsOf_update, free, Pi.add_apply]
  by_cases same : f' = f
  · subst same
    simp
  · simp [same, Ne.symm same]

theorem slotsOf_clear {f : FileId} (here : ofile fd = some f) :
    slotsOf (update ofile fd none) = slotsOf ofile - Pi.single f 1 := by
  funext f'
  rw [slotsOf_update, here, Pi.sub_apply]
  by_cases same : f' = f
  · subst same
    simp
    omega
  · simp [same, Ne.symm same]

def rested (v : Proc) : Held := ⟨v, cwdBalance v.cwd, slotsOf v.ofile, [], none⟩

def AtRest (h : Held) : Prop := h = rested h.proc

def fileBalance (v : File) : Balance :=
  match v.type with
  | .none => 0
  | .pipe => pipeEnd (v.pipe, v.writable)
  | .inode | .device => reference v.ip

/-! ## The contract -/

def pre (h : Held) : Req → Prop
  | .releasesleep e => h.locks e = 1
  | .filedup f => 1 ≤ h.own f ∧ f ∉ h.fresh
  | .fileclose f => 1 ≤ h.own f
  | .setInode f .. => f ∈ h.fresh
  | .setPipe f page writable => f ∈ h.fresh ∧ 1 ≤ h.ends (page, writable)
  | .pipeclose page writable => 1 ≤ h.ends (page, writable)
  | .allocproc _ => h.child = none
  | .freeproc np => ∃ c, h.child = some c ∧ c.slot = np ∧ (∀ fd, fd ∈ c.todo) ∧ c.cwd = false
  | .dupFile np fd => (∃ c, h.child = some c ∧ c.slot = np ∧ fd ∈ c.todo) ∧
      ∀ f, h.proc.ofile fd = some f → 1 ≤ h.own f ∧ f ∉ h.fresh
  | .dupCwd np => ∃ c, h.child = some c ∧ c.slot = np ∧ c.cwd = false
  | .setRunnable np => ∃ c, h.child = some c ∧ c.slot = np
  | .setZombie => AtRest h ∧ (∀ fd, h.proc.ofile fd = none) ∧ h.proc.cwd = none
  | _ => True

def post : (r : Req) → Held → Answer r → Held → Prop
  | .beginOp, h, _, h' => h' = h.add op
  | .endOp, h, _, h' => h' = h.add (-op)
  | .iget .., h, e, h' => h' = h.add (reference e)
  | .idup e, h, _, h' => h' = h.add (reference e)
  | .acquire e, h, _, h' => h' = h.add (locked e)
  | .iunlock e, h, _, h' => h' = h.add (-locked e)
  | .putLast e, h, true, h' => h.locks e = 0 ∧ h' = h.add (locked e)
  | .putLast e, h, false, h' => h' = h.add (-reference e)
  | .releasesleep e, h, _, h' => h' = h.add (-locked e)
  | .dropRef e, h, _, h' => h' = h.add (-reference e)
  | .filealloc, h, none, h' => h' = h
  | .filealloc, h, some f, h' =>
    h.own f = 0 ∧ f ∉ h.fresh ∧ h' = { h with own := h.own + Pi.single f 1, fresh := f :: h.fresh }
  | .filedup f, h, _, h' => h' = { h with own := h.own + Pi.single f 1 }
  | .fileclose f, h, none, h' =>
    h' = { h with own := h.own - Pi.single f 1, fresh := h.fresh.filter (· ≠ f) }
  | .fileclose f, h, some ff, h' =>
    (∀ x, 0 ≤ h.ends x) ∧ h' = { h.add (fileBalance ff) with own := h.own - Pi.single f 1, fresh := h.fresh.filter (· ≠ f) }
  | .setInode f _ ip .., h, _, h' => h' = { h.add (-reference ip) with fresh := h.fresh.filter (· ≠ f) }
  | .setPipe f page writable, h, _, h' =>
    h' = { h.add (-pipeEnd (page, writable)) with fresh := h.fresh.filter (· ≠ f) }
  | .newPipe _, h, none, h' => h' = h
  | .newPipe _, h, some page, h' =>
    h.ends (page, false) = 0 ∧ h.ends (page, true) = 0 ∧ h' = h.add (pipeEnd (page, false) + pipeEnd (page, true))
  | .pipeclose page writable, h, _, h' => h' = h.add (-pipeEnd (page, writable))
  | .ofile fd, h, f, h' => f = h.proc.ofile fd ∧ h' = h
  | .setOfile fd f, h, _, h' => h' = { h with proc := { h.proc with ofile := update h.proc.ofile fd f } }
  | .cwd, h, e, h' => h.proc.cwd = some e ∧ h' = h
  | .setCwd e, h, _, h' => h' = { h with proc := { h.proc with cwd := e } }
  | .allocproc _, h, none, h' => h' = h
  | .allocproc _, h, some np, h' => h' = { h with child := some ⟨np, List.finRange NOFILE, false⟩ }
  | .freeproc _, h, _, h' => h' = { h with child := none }
  | .dupFile _ fd, h, _, h' =>
    h' = { h with child := h.child.map fun c => { c with todo := c.todo.filter (· ≠ fd) } }
  | .dupCwd _, h, _, h' => h' = { h with child := h.child.map fun c => { c with cwd := true } }
  | .setRunnable _, h, _, h' => h' = { h with child := none }
  | .setZombie, h, _, h' => h' = { h with proc := { h.proc with status := .zombie } }
  | _, h, _, h' => h' = h

def contract : Contract Answer Held where
  pre r h := h.proc.status = .runnable ∧ pre h r
  post := post

end Xv6.Fs
