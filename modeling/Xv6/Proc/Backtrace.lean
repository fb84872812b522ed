import Xv6.Vm.Memory

namespace Xv6.Backtrace
open Vm (pgRoundUp)

/-! ## `backtrace` of `printf.c` -/

inductive Line where
  | title
  | address (pc : Nat)

/-- What is printed, and the addresses of the words that are loaded. -/
structure Trace where
  lines : List Line
  loads : List Nat

/-- The loop; `none` if it has not ended after `fuel` rounds. -/
def walk (mem : Nat → Nat) (top : Nat) : Nat → Nat → Option Trace
  | 0, _ => none
  | fuel + 1, fp =>
    if fp = top then some ⟨[], []⟩
    else
      let returnAddress := (fp + (2 ^ 64 - 8)) % 2 ^ 64
      let saved := (fp + (2 ^ 64 - 16)) % 2 ^ 64
      (walk mem top fuel (mem saved)).map fun rest =>
        ⟨.address (mem returnAddress) :: rest.lines, returnAddress :: saved :: rest.loads⟩

/-- `fp` is what `r_fp` returns. -/
def backtrace (mem : Nat → Nat) (fuel fp : Nat) : Option Trace :=
  (walk mem (pgRoundUp fp) fuel fp).map fun rest => { rest with lines := .title :: rest.lines }

/-- The frame pointers from `fp` to the top of the page at `base`; the two words of a frame are in the page. -/
inductive Chain (mem : Nat → Nat) (base : Nat) : Nat → List Nat → Prop
  | top : Chain mem base (base + PGSIZE) []
  | frame {fp : Nat} {frames : List Nat} (above : base < fp) (below : fp < base + PGSIZE) (aligned : fp % 16 = 0)
    (grows : fp < mem (fp - 16)) (rest : Chain mem base (mem (fp - 16)) frames) : Chain mem base fp (fp :: frames)

section
variable {mem : Nat → Nat} {base fp : Nat} {frames : List Nat}

theorem Chain.le (chain : Chain mem base fp frames) : ∀ f ∈ frames, fp ≤ f := by
  induction chain with
  | top => exact nofun
  | frame _ _ _ grows _ ih =>
    intro f member
    rcases List.mem_cons.mp member with rfl | later
    · exact Nat.le_refl f
    · exact Nat.le_trans (Nat.le_of_lt grows) (ih f later)

theorem Chain.sorted (chain : Chain mem base fp frames) : frames.Pairwise (· < ·) := by
  induction chain with
  | top => exact .nil
  | frame _ _ _ grows rest ih => exact .cons (fun f later => Nat.lt_of_lt_of_le grows (rest.le f later)) ih

section
variable (page : base % PGSIZE = 0) (inside : base + PGSIZE < 2 ^ 64) (chain : Chain mem base fp frames)
include page inside chain

theorem Chain.pgRoundUp_eq : pgRoundUp fp = base + PGSIZE := by
  simp only [pgRoundUp, PGSIZE] at page inside ⊢
  cases chain with
  | top =>
    simp only [PGSIZE]
    omega
  | frame above below =>
    simp only [PGSIZE] at below
    omega

theorem Chain.walk_eq (fuel : Nat) (enough : frames.length < fuel) :
    ∃ loads, walk mem (base + PGSIZE) fuel fp = some ⟨frames.map fun f => .address (mem (f - 8)), loads⟩ ∧
      ∀ a ∈ loads, base ≤ a ∧ a + 8 ≤ base + PGSIZE := by
  induction chain generalizing fuel with
  | top =>
    cases fuel with
    | zero => cases enough
    | succ fuel => exact ⟨[], if_pos rfl, nofun⟩
  | @frame fp frames above below aligned _ _ ih =>
    cases fuel with
    | zero => cases enough
    | succ fuel =>
      obtain ⟨loads, walked, within⟩ := ih fuel (Nat.lt_of_succ_lt_succ enough)
      have returns : (fp + (2 ^ 64 - 8)) % 2 ^ 64 = fp - 8 := by omega
      have saves : (fp + (2 ^ 64 - 16)) % 2 ^ 64 = fp - 16 := by omega
      have lowest : base + 16 ≤ fp := by
        simp only [PGSIZE] at page
        omega
      refine ⟨(fp - 8) :: (fp - 16) :: loads, ?_, ?_⟩
      · rw [walk, if_neg (Nat.ne_of_lt below)]
        simp only [returns, saves, walked]
        rfl
      · intro a member
        rcases List.mem_cons.mp member with rfl | member
        · omega
        · rcases List.mem_cons.mp member with rfl | member
          · omega
          · exact within a member

/-- The loop ends after one round for each frame. -/
theorem backtrace_frames (fuel : Nat) (enough : frames.length < fuel) :
    ∃ loads, backtrace mem fuel fp = some ⟨.title :: frames.map fun f => .address (mem (f - 8)), loads⟩ ∧
      (∀ a ∈ loads, base ≤ a ∧ a + 8 ≤ base + PGSIZE) ∧ frames.Pairwise (· < ·) := by
  obtain ⟨loads, walked, within⟩ := chain.walk_eq page inside fuel enough
  refine ⟨loads, ?_, within, chain.sorted⟩
  rw [backtrace, chain.pgRoundUp_eq page inside, walked]
  rfl

end

end

/-- Two frames of 32 bytes below the top of the page at 4096. -/
theorem backtrace_frames_two : ∃ loads, backtrace (· + 32 + 16) 3 8128 =
    some ⟨.title :: [8128, 8160].map fun f => .address (f - 8 + 32 + 16), loads⟩ ∧
      (∀ a ∈ loads, 4096 ≤ a ∧ a + 8 ≤ 4096 + PGSIZE) ∧ [8128, 8160].Pairwise (· < ·) :=
  backtrace_frames (by decide) (by decide)
    (.frame (by decide) (by decide) (by decide) (by decide) (.frame (by decide) (by decide) (by decide) (by decide) .top))
    3 (by decide)

end Xv6.Backtrace
