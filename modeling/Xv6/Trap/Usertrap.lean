import Xv6.Lib.Fault
import Xv6.Lib.Run
import Xv6.Trap.Trampoline

namespace Xv6.Trap
open Lib

/-! ## The process and what the rest of the kernel does during a trap -/

structure Alarm where
  alarmInterval : Int
  alarmHandler : Word
  ticksSinceAlarm : Int
  alarmTf : Frame
  inAlarmHandler : Bool

structure Proc extends Alarm where
  satp : Word -- MAKE_SATP(p->pagetable)
  trapframe : Frame
  killed : Bool

def Proc.store (p : Proc) (offset : Nat) (v : Word) : Proc :=
  { p with trapframe := Function.update p.trapframe offset v }

structure Kernel where
  satp : Word
  kstack : Word
  usertrap : Word -- the address of usertrap()

structure Image where
  satp : Word
  entry : Word
  sp : Word

/-- One trap as the other parts of the kernel decide it: what a system call that touches neither the
trapframe nor the alarm returns, what a successful `exec` loads, whether some `kill` arrives before
`usertrap` looks, and on which hart, with which kernel registers, `usertrapret` runs. -/
structure Env where
  result : Word
  image : Option Image
  killed : Bool
  hart : Word
  regs : Reg → Word

inductive Stop where
  | exit | fault

/-! ## System calls -/

def SYS_exit : Int := 2
def SYS_exec : Int := 7
def SYS_sigalarm : Int := 22
def SYS_sigreturn : Int := 23
def nelemSyscalls : Int := 24

def argraw (p : Proc) : Fin 6 → Word
  | 0 => p.trapframe Reg.a0.offset
  | 1 => p.trapframe Reg.a1.offset
  | 2 => p.trapframe Reg.a2.offset
  | 3 => p.trapframe Reg.a3.offset
  | 4 => p.trapframe Reg.a4.offset
  | 5 => p.trapframe Reg.a5.offset

def toInt32 (v : Word) : Int := (v.setWidth 32).toInt

def argint (p : Proc) (n : Fin 6) : Int := toInt32 (argraw p n)

def argaddr (p : Proc) (n : Fin 6) : Word := argraw p n

def sysSigalarm (p : Proc) : Proc × Word :=
  ({ p with
      alarmInterval := argint p 0
      alarmHandler := argaddr p 1
      ticksSinceAlarm := 0
      inAlarmHandler := false }, 0)

def sysSigreturn (p : Proc) : Proc × Word :=
  ({ p with trapframe := p.alarmTf, inAlarmHandler := false }, 0)

def sysExec (env : Env) (p : Proc) : Proc × Word :=
  match env.image with
  | none => (p, -1)
  | some image =>
    ({ ((p.store Reg.a1.offset image.sp).store Frame.epc image.entry).store Reg.sp.offset image.sp with
        satp := image.satp }, env.result)

def syscall (env : Env) (p : Proc) : Except Stop Proc :=
  let num := toInt32 (p.trapframe Reg.a7.offset)
  if 0 < num ∧ num < nelemSyscalls then
    if num = SYS_exit then .error .exit
    else
      let (p, result) :=
        if num = SYS_sigalarm then sysSigalarm p
        else if num = SYS_sigreturn then sysSigreturn p
        else if num = SYS_exec then sysExec env p
        else (p, env.result)
      .ok (p.store Reg.a0.offset result)
  else .ok (p.store Reg.a0.offset (-1))

/-! ## `usertrap` and `usertrapret` -/

def devintr (scause : Word) : Nat :=
  if scause.msb ∧ scause &&& 0xff = 9 then 1
  else if scause = 0x8000000000000001 then 2
  else 0

def alarmTick (p : Proc) : Proc :=
  if 0 < p.alarmInterval ∧ p.inAlarmHandler = false then
    let p := { p with ticksSinceAlarm := p.ticksSinceAlarm + 1 }
    if p.ticksSinceAlarm ≥ p.alarmInterval then
      { p with
          ticksSinceAlarm := 0
          alarmTf := p.trapframe
          trapframe := Function.update p.trapframe Frame.epc p.alarmHandler
          inAlarmHandler := true }
    else p
  else p

-- The chain of tests on scause in usertrap().
def dispatch (scause : Word) (env : Env) (p : Proc) : Except Stop Proc :=
  if scause = 8 then
    if p.killed then .error .exit
    else syscall env (p.store Frame.epc (p.trapframe Frame.epc + 4))
  else if devintr scause ≠ 0 then
    .ok (if devintr scause = 2 then alarmTick p else p)
  else .ok { p with killed := true }

def usertrap (scause sepc : Word) (env : Env) (p : Proc) : Except Stop Proc := do
  let p ← dispatch scause env (p.store Frame.epc sepc)
  if p.killed || env.killed then .error .exit else .ok p

def usertrapret (k : Kernel) (hart : Word) (p : Proc) : Proc :=
  (((p.store Frame.kernelSatp k.satp).store Frame.kernelSp (k.kstack + BitVec.ofNat 64 PGSIZE)).store
    Frame.kernelTrap k.usertrap).store Frame.kernelHartid hart

/-! ## A process in user mode and its traps -/

structure State where
  cpu : Cpu
  proc : Proc

structure Context where
  pc : Word
  reg : Reg → Word

def State.context (s : State) : Context := ⟨s.cpu.pc, s.cpu.reg⟩

def Proc.context (p : Proc) : Context := ⟨p.trapframe Frame.epc, fun r => p.trapframe r.offset⟩

-- The call of userret(TRAPFRAME, satp) at the end of usertrapret(), and its sret.
def enterUser (c : Cpu) (p : Proc) : Except Stop State :=
  let c := (({ c with sepc := p.trapframe Frame.epc }).set .a0 trapframeVa).set .a1 p.satp
  match exec p.satp c p.trapframe userret with
  | none => .error .fault
  | some (c, frame) => .ok ⟨{ c with pc := c.sepc }, { p with trapframe := frame }⟩

/-- From the trap in user mode to the `sret` that enters user mode again. -/
def trap (k : Kernel) (s : State) (scause : Word) (env : Env) : Except Stop State :=
  match exec s.proc.satp { s.cpu with sepc := s.cpu.pc } s.proc.trapframe uservec with
  | none => .error .fault
  | some (c, frame) =>
    if c.reg .t0 = k.usertrap then do
      let p ← usertrap scause c.sepc env { s.proc with trapframe := frame }
      enterUser { c with reg := env.regs } (usertrapret k env.hart p)
    else .error .fault

inductive Event where
  | user (pc : Word) (reg : Reg → Word)
  | kill
  | kernelTick
  | trap (scause : Word) (env : Env)

def step (k : Kernel) (s : State) : Event → Option State
  | .user pc reg => some { s with cpu := { s.cpu with pc := pc, reg := reg } }
  | .kill => some { s with proc := { s.proc with killed := true } }
  | .kernelTick => some s -- kerneltrap() yields and looks at no alarm field
  | .trap scause env => (trap k s scause env).toOption

/-- What `usertrapret` and `userret` leave for the next trap. -/
structure InUser (k : Kernel) (s : State) : Prop where
  scratch : s.cpu.sscratch = trapframeVa
  mapped : s.cpu.satp = s.proc.satp
  entry : s.proc.trapframe Frame.kernelTrap = k.usertrap

section
variable {k : Kernel} {s t : State} {scause : Word} {env : Env}

theorem usertrap_eq_ok {sepc : Word} {p q : Proc} (returned : usertrap scause sepc env p = .ok q) :
    dispatch scause env (p.store Frame.epc sepc) = .ok q := by
  obtain ⟨p', handled, rest⟩ := bind_eq_ok.mp returned
  split_ifs at rest
  cases rest
  exact handled

theorem usertrapret_above (k : Kernel) (hart : Word) (p : Proc) {o : Nat} (above : 40 ≤ o) :
    (usertrapret k hart p).trapframe o = p.trapframe o := by
  simp only [usertrapret, Proc.store, Frame.kernelSatp, Frame.kernelSp, Frame.kernelTrap, Frame.kernelHartid]
  repeat rw [Function.update_of_ne (by omega)]

@[simp] theorem usertrapret_alarm (k : Kernel) (hart : Word) (p : Proc) :
    (usertrapret k hart p).toAlarm = p.toAlarm := rfl

theorem usertrapret_context (k : Kernel) (hart : Word) (p : Proc) : (usertrapret k hart p).context = p.context := by
  have regs (r : Reg) := usertrapret_above k hart p r.offset_ge
  simp only [Proc.context, regs]
  rfl

theorem exec_uservec_user (user : InUser k s) :
    ∃ c frame, exec s.proc.satp { s.cpu with sepc := s.cpu.pc } s.proc.trapframe uservec =
        some (c, frame) ∧ (∀ r : Reg, frame r.offset = s.cpu.reg r) ∧ c.sepc = s.cpu.pc ∧
        c.reg .t0 = k.usertrap := by
  obtain ⟨c, frame, saved, regs, -, sepc, entry⟩ :=
    exec_uservec (c := { s.cpu with sepc := s.cpu.pc }) (f := s.proc.trapframe) user.scratch user.mapped
  exact ⟨c, frame, saved, regs, sepc, entry.trans user.entry⟩

theorem enterUser_eq (c : Cpu) (p : Proc) (entry : p.trapframe Frame.kernelTrap = k.usertrap) :
    ∃ t, enterUser c p = .ok t ∧ t.proc = p ∧ t.context = p.context ∧ InUser k t := by
  let call := (({ c with sepc := p.trapframe Frame.epc } : Cpu).set .a0 trapframeVa).set .a1 p.satp
  obtain ⟨c', loaded, values, sepc, scratch, satp⟩ :=
    exec_userret (c := call) (f := p.trapframe) (by simp [call, Cpu.set])
      (show call.reg .a1 = p.satp by simp [call, Cpu.set])
  refine ⟨⟨{ c' with pc := c'.sepc }, p⟩, ?_, rfl, ?_, ⟨scratch, satp, entry⟩⟩
  · simp only [enterUser]
    rw [show exec p.satp _ p.trapframe userret = _ from loaded]
  · have regs : c'.reg = fun r => p.trapframe r.offset := funext values
    simp only [State.context, Proc.context, sepc, regs]
    rfl

theorem trap_eq (user : InUser k s) (scause : Word) (env : Env) :
    ∃ frame, (∀ r : Reg, frame r.offset = s.cpu.reg r) ∧
      match usertrap scause s.cpu.pc env { s.proc with trapframe := frame } with
      | .error stop => trap k s scause env = .error stop
      | .ok p => ∃ t, trap k s scause env = .ok t ∧ t.proc = usertrapret k env.hart p ∧
          t.context = p.context ∧ InUser k t := by
  obtain ⟨c, frame, saved, regs, sepc, entry⟩ := exec_uservec_user user
  refine ⟨frame, regs, ?_⟩
  cases handled : usertrap scause s.cpu.pc env { s.proc with trapframe := frame } with
  | error stop =>
    simp only [trap, saved, entry, sepc, handled, ↓reduceIte]
    rfl
  | ok p =>
    obtain ⟨t, entered, same, resumed, inUser⟩ := enterUser_eq (k := k) { c with reg := env.regs }
      (usertrapret k env.hart p) rfl
    refine ⟨t, ?_, same, resumed.trans (usertrapret_context k env.hart p), inUser⟩
    simp only [trap, saved, entry, sepc, handled, ↓reduceIte]
    exact entered

theorem step_trap (user : InUser k s) (taken : step k s (.trap scause env) = some t) :
    ∃ frame p, (∀ r : Reg, frame r.offset = s.cpu.reg r) ∧
      usertrap scause s.cpu.pc env { s.proc with trapframe := frame } = .ok p ∧
      t.proc = usertrapret k env.hart p ∧ t.context = p.context ∧ InUser k t := by
  obtain ⟨frame, regs, outcome⟩ := trap_eq user scause env
  cases handled : usertrap scause s.cpu.pc env { s.proc with trapframe := frame } with
  | error stop =>
    rw [handled] at outcome
    rw [step, show trap k s scause env = .error stop from outcome] at taken
    cases taken
  | ok p =>
    rw [handled] at outcome
    obtain ⟨t', returned, rest⟩ := outcome
    rw [step, returned] at taken
    cases taken
    exact ⟨frame, p, regs, handled, rest⟩

theorem step_inUser {e : Event} (user : InUser k s) (taken : step k s e = some t) : InUser k t := by
  cases e with
  | user pc reg | kill =>
    cases taken
    exact ⟨user.scratch, user.mapped, user.entry⟩
  | kernelTick =>
    cases taken
    exact user
  | trap scause env => grind [step_trap]

end

end Xv6.Trap
