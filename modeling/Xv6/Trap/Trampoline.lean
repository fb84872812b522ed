import Xv6.Param

namespace Xv6.Trap
open Function

/-! ## Registers and the trapframe -/

abbrev Word := BitVec 64

inductive Reg where
  | ra | sp | gp | tp | t0 | t1 | t2 | s0 | s1 | a0 | a1 | a2 | a3 | a4 | a5 | a6 | a7
  | s2 | s3 | s4 | s5 | s6 | s7 | s8 | s9 | s10 | s11 | t3 | t4 | t5 | t6
  deriving DecidableEq

/-- The page at `p->trapframe`: the 64-bit word at each byte offset. -/
abbrev Frame := Nat → Word

namespace Frame

def kernelSatp : Nat := 0
def kernelSp : Nat := 8
def kernelTrap : Nat := 16
def epc : Nat := 24
def kernelHartid : Nat := 32

end Frame

/-- The offset of a user register in `struct trapframe`. -/
def Reg.offset : Reg → Nat
  | ra => 40 | sp => 48 | gp => 56 | tp => 64 | t0 => 72 | t1 => 80 | t2 => 88 | s0 => 96
  | s1 => 104 | a0 => 112 | a1 => 120 | a2 => 128 | a3 => 136 | a4 => 144 | a5 => 152
  | a6 => 160 | a7 => 168 | s2 => 176 | s3 => 184 | s4 => 192 | s5 => 200 | s6 => 208
  | s7 => 216 | s8 => 224 | s9 => 232 | s10 => 240 | s11 => 248 | t3 => 256 | t4 => 264
  | t5 => 272 | t6 => 280

theorem Reg.offset_injective : Injective Reg.offset := by
  intro r q same
  cases r <;> cases q <;> first | rfl | exact absurd same (by decide)

@[simp] theorem Reg.offset_inj {r q : Reg} : r.offset = q.offset ↔ r = q :=
  Reg.offset_injective.eq_iff

theorem Reg.offset_ge (r : Reg) : 40 ≤ r.offset := by
  cases r <;> decide

/-! ## The instructions of `trampoline.S` -/

inductive Instr where
  | csrrwSscratch -- csrrw a0, sscratch, a0
  | csrrSscratch (r : Reg)
  | csrwSscratch (r : Reg)
  | csrwSatp (r : Reg)
  | sfenceVma
  | sd (r : Reg) (offset : Nat) -- based at a0
  | ld (r : Reg) (offset : Nat)

structure Cpu where
  pc : Word
  reg : Reg → Word
  sepc : Word
  sscratch : Word
  satp : Word

def Cpu.set (c : Cpu) (r : Reg) (v : Word) : Cpu := { c with reg := update c.reg r v }

attribute [local simp] Cpu.set

def trapframeVa : Word := BitVec.ofNat 64 TRAPFRAME

section
variable (user : Word)

-- A load or a store reaches the trapframe page only through the user page table, where it is
-- mapped at TRAPFRAME; with another base register or another page table it faults.
def reachesFrame (c : Cpu) : Prop := c.satp = user ∧ c.reg .a0 = trapframeVa

instance (c : Cpu) : Decidable (reachesFrame user c) := inferInstanceAs (Decidable (_ ∧ _))

def exec1 (c : Cpu) (f : Frame) : Instr → Option (Cpu × Frame)
  | .csrrwSscratch => some ({ c.set .a0 c.sscratch with sscratch := c.reg .a0 }, f)
  | .csrrSscratch r => some (c.set r c.sscratch, f)
  | .csrwSscratch r => some ({ c with sscratch := c.reg r }, f)
  | .csrwSatp r => some ({ c with satp := c.reg r }, f)
  | .sfenceVma => some (c, f)
  | .sd r offset => if reachesFrame user c then some (c, update f offset (c.reg r)) else none
  | .ld r offset => if reachesFrame user c then some (c.set r (f offset), f) else none

def exec (c : Cpu) (f : Frame) : List Instr → Option (Cpu × Frame)
  | [] => some (c, f)
  | i :: is => (exec1 user c f i).bind fun (c, f) => exec c f is

end

def uservec : List Instr :=
  [.csrrwSscratch, .sd .ra 40, .sd .sp 48, .sd .gp 56, .sd .tp 64, .sd .t0 72, .sd .t1 80, .sd .t2 88,
    .sd .s0 96, .sd .s1 104, .sd .a1 120, .sd .a2 128, .sd .a3 136, .sd .a4 144, .sd .a5 152,
    .sd .a6 160, .sd .a7 168, .sd .s2 176, .sd .s3 184, .sd .s4 192, .sd .s5 200, .sd .s6 208,
    .sd .s7 216, .sd .s8 224, .sd .s9 232, .sd .s10 240, .sd .s11 248, .sd .t3 256, .sd .t4 264,
    .sd .t5 272, .sd .t6 280,
    .csrrSscratch .t0, .sd .t0 112,
    .ld .sp 8, .ld .tp 32, .ld .t0 16, .ld .t1 0, .csrwSatp .t1, .sfenceVma]

def userret : List Instr :=
  [.csrwSatp .a1, .sfenceVma, .ld .t0 112, .csrwSscratch .t0,
    .ld .ra 40, .ld .sp 48, .ld .gp 56, .ld .tp 64, .ld .t0 72, .ld .t1 80, .ld .t2 88,
    .ld .s0 96, .ld .s1 104, .ld .a1 120, .ld .a2 128, .ld .a3 136, .ld .a4 144, .ld .a5 152,
    .ld .a6 160, .ld .a7 168, .ld .s2 176, .ld .s3 184, .ld .s4 192, .ld .s5 200, .ld .s6 208,
    .ld .s7 216, .ld .s8 224, .ld .s9 232, .ld .s10 240, .ld .s11 248, .ld .t3 256, .ld .t4 264,
    .ld .t5 272, .ld .t6 280,
    .csrrwSscratch]

/-! ## What the two sequences do -/

/-- The registers that both sequences move by their own instruction: all but `a0`. -/
def saved : List Reg :=
  [.ra, .sp, .gp, .tp, .t0, .t1, .t2, .s0, .s1, .a1, .a2, .a3, .a4, .a5, .a6, .a7, .s2, .s3, .s4,
    .s5, .s6, .s7, .s8, .s9, .s10, .s11, .t3, .t4, .t5, .t6]

theorem mem_saved (r : Reg) : r ∈ saved ↔ r ≠ .a0 := by
  cases r <;> decide

theorem uservec_eq : uservec =
    .csrrwSscratch :: (saved.map (fun r => .sd r r.offset) ++
      [.csrrSscratch .t0, .sd .t0 Reg.a0.offset, .ld .sp Frame.kernelSp, .ld .tp Frame.kernelHartid,
        .ld .t0 Frame.kernelTrap, .ld .t1 Frame.kernelSatp, .csrwSatp .t1, .sfenceVma]) := rfl

theorem userret_eq : userret = .csrwSatp .a1 :: .sfenceVma :: .ld .t0 Reg.a0.offset :: .csrwSscratch .t0 ::
      (saved.map (fun r => .ld r r.offset) ++ [.csrrwSscratch]) := rfl

section
variable {user : Word} {c : Cpu} {f : Frame}

theorem exec_append (is js : List Instr) :
    exec user c f (is ++ js) = (exec user c f is).bind fun (c, f) => exec user c f js := by
  induction is generalizing c f with
  | nil => rfl
  | cons i is ih =>
    rw [List.cons_append, exec, exec]
    cases exec1 user c f i with
    | none => rfl
    | some next => exact ih

theorem exec_stores (reaches : reachesFrame user c) (rs : List Reg) :
    ∃ f', exec user c f (rs.map fun r => .sd r r.offset) = some (c, f') ∧
      (∀ r ∈ rs, f' r.offset = c.reg r) ∧ ∀ o, (∀ r ∈ rs, r.offset ≠ o) → f' o = f o := by
  induction rs generalizing f with
  | nil => exact ⟨f, rfl, by simp, fun _ _ => rfl⟩
  | cons r rs ih =>
    obtain ⟨f', stored, new, old⟩ := ih (f := update f r.offset (c.reg r))
    refine ⟨f', ?_, ?_, ?_⟩
    · simpa [exec, exec1, reaches] using stored
    · grind [Reg.offset_injective]
    · grind

theorem exec_loads (reaches : reachesFrame user c) (rs : List Reg) (base : Reg.a0 ∉ rs) :
    ∃ reg, exec user c f (rs.map fun r => .ld r r.offset) = some ({ c with reg := reg }, f) ∧
      ∀ r, reg r = if r ∈ rs then f r.offset else c.reg r := by
  induction rs generalizing c with
  | nil => exact ⟨c.reg, rfl, by simp⟩
  | cons r rs ih =>
    have different : Reg.a0 ≠ r := fun same => base (by simp [same])
    have stays : reachesFrame user (c.set r (f r.offset)) := by
      simpa [reachesFrame, different] using reaches
    obtain ⟨reg, loaded, values⟩ := ih stays (fun later => base (by simp [later]))
    refine ⟨reg, ?_, ?_⟩
    · simpa [exec, exec1, reaches] using loaded
    · intro q
      rw [values q]
      by_cases later : q ∈ rs
      · simp [later]
      · by_cases here : q = r
        · simp [here]
        · simp [later, here]

theorem exec_uservec (scratch : c.sscratch = trapframeVa) (mapped : c.satp = user) :
    ∃ c' f', exec user c f uservec = some (c', f') ∧ (∀ r : Reg, f' r.offset = c.reg r) ∧
      (∀ o < 40, f' o = f o) ∧ c'.sepc = c.sepc ∧ c'.reg .t0 = f Frame.kernelTrap := by
  let entered : Cpu := { c.set .a0 c.sscratch with sscratch := c.reg .a0 }
  have reaches : reachesFrame user entered := ⟨mapped, by simp [entered, scratch]⟩
  obtain ⟨g, stored, new, old⟩ := exec_stores (f := f) reaches saved
  have low (o : Nat) (below : o < 40) : g o = f o :=
    old o fun r _ same => by have := r.offset_ge; omega
  let g' := update g Reg.a0.offset (c.reg .a0)
  have low' (o : Nat) (below : o < 40) : g' o = f o := by grind [Reg.offset]
  let loaded := (((entered.set .t0 (c.reg .a0)).set .sp (g' Frame.kernelSp)).set .tp
    (g' Frame.kernelHartid)).set .t0 (g' Frame.kernelTrap)
  refine ⟨{ loaded.set .t1 (g' Frame.kernelSatp) with satp := g' Frame.kernelSatp }, g', ?_, ?_, low',
    rfl, ?_⟩
  · have enter (is : List Instr) : exec user c f (.csrrwSscratch :: is) = exec user entered f is := rfl
    rw [uservec_eq, enter, exec_append, stored]
    simp [exec, exec1, loaded, g', entered, reachesFrame, scratch, mapped]
  · intro r
    by_cases first : r = .a0
    · rw [first]
      exact update_self _ _ _
    · rw [← show entered.reg r = c.reg r by simp [entered, first], ← new r ((mem_saved r).mpr first)]
      exact update_of_ne (by simpa using first) _ _
  · simpa [loaded] using low' Frame.kernelTrap (by decide)

theorem exec_userret (base : c.reg .a0 = trapframeVa) (table : c.reg .a1 = user) :
    ∃ c', exec user c f userret = some (c', f) ∧ (∀ r : Reg, c'.reg r = f r.offset) ∧
      c'.sepc = c.sepc ∧ c'.sscratch = trapframeVa ∧ c'.satp = user := by
  let scratched : Cpu :=
    { c.set .t0 (f Reg.a0.offset) with satp := user, sscratch := f Reg.a0.offset }
  have reaches : reachesFrame user scratched := ⟨rfl, by simp [scratched, base]⟩
  obtain ⟨reg, loaded, values⟩ := exec_loads (f := f) reaches saved (by decide)
  have kept : reg .a0 = trapframeVa := by
    rw [values .a0, if_neg (by decide), reaches.2]
  refine ⟨{ scratched with reg := update reg .a0 (f Reg.a0.offset), sscratch := reg .a0 }, ?_, ?_, rfl, kept, rfl⟩
  · have enter (is : List Instr) : exec user c f (.csrwSatp .a1 :: .sfenceVma ::
        .ld .t0 Reg.a0.offset :: .csrwSscratch .t0 :: is) = exec user scratched f is := by
      simp [exec, exec1, reachesFrame, scratched, base, table]
    rw [userret_eq, enter, exec_append, loaded]
    simp [exec, exec1, scratched]
  · grind [mem_saved]

end

end Xv6.Trap
