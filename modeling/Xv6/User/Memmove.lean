import Mathlib

namespace Xv6.Memmove
open Function

/-! ## `memmove` of `string.c` and of `ulib.c`

Pointers are words of 64 bits. -/

abbrev Memory := Nat → UInt8

/-- `while(n-- > 0) *d++ = *s++;` -/
def copyUp (mem : Memory) (d s : Nat) : Nat → Memory
  | 0 => mem
  | n + 1 => copyUp (update mem d (mem s)) ((d + 1) % 2 ^ 64) ((s + 1) % 2 ^ 64) n

/-- `while(n-- > 0) *--d = *--s;` -/
def copyDown (mem : Memory) (d s : Nat) : Nat → Memory
  | 0 => mem
  | n + 1 =>
    let d := (d + (2 ^ 64 - 1)) % 2 ^ 64
    let s := (s + (2 ^ 64 - 1)) % 2 ^ 64
    copyDown (update mem d (mem s)) d s n

def Kernel.memmove (mem : Memory) (dst src n : Nat) : Nat × Memory :=
  if n = 0 then (dst, mem)
  else if src < dst ∧ (src + n) % 2 ^ 64 > dst then
    (dst, copyDown mem ((dst + n) % 2 ^ 64) ((src + n) % 2 ^ 64) n)
  else (dst, copyUp mem dst src n)

/-- `n` is an `int`; a negative one moves nothing. -/
def User.memmove (mem : Memory) (vdst vsrc : Nat) (n : Int) : Nat × Memory :=
  if vsrc > vdst then (vdst, copyUp mem vdst vsrc n.toNat)
  else (vdst, copyDown mem ((vdst + n) % 2 ^ 64).toNat ((vsrc + n) % 2 ^ 64).toNat n.toNat)

section
variable {mem : Memory} {d s n a : Nat}

theorem copyUp_apply (dst : d + n < 2 ^ 64) (src : s + n < 2 ^ 64) (apart : d ≤ s ∨ s + n ≤ d) :
    copyUp mem d s n a = if d ≤ a ∧ a < d + n then mem (s + (a - d)) else mem a := by
  -- No byte of the source from `s` on has been written yet.
  induction n generalizing mem d s with
  | zero =>
    rw [if_neg (by omega)]
    rfl
  | succ n ih =>
    rw [copyUp, Nat.mod_eq_of_lt (by omega), Nat.mod_eq_of_lt (by omega), ih (by omega) (by omega) (by omega)]
    by_cases first : a = d
    · subst first
      rw [if_neg (by omega), if_pos (by omega), update_self, Nat.sub_self]
      rfl
    · rw [update_of_ne first]
      by_cases inside : d + 1 ≤ a ∧ a < d + 1 + n
      · rw [if_pos inside, if_pos (by omega), update_of_ne (by omega)]
        congr 1
        omega
      · rw [if_neg inside, if_neg (by omega)]

theorem copyDown_apply (dst : d + n < 2 ^ 64) (src : s + n < 2 ^ 64) (apart : s ≤ d ∨ d + n ≤ s) :
    copyDown mem (d + n) (s + n) n a = if d ≤ a ∧ a < d + n then mem (s + (a - d)) else mem a := by
  induction n generalizing mem with
  | zero =>
    rw [if_neg (by omega)]
    rfl
  | succ n ih =>
    have before (x : Nat) (small : x + (n + 1) < 2 ^ 64) : (x + (n + 1) + (2 ^ 64 - 1)) % 2 ^ 64 = x + n := by omega
    simp only [copyDown, before d dst, before s src]
    rw [ih (by omega) (by omega) (by omega)]
    by_cases last : a = d + n
    · subst last
      rw [if_neg (by omega), if_pos (by omega), update_self, Nat.add_sub_cancel_left]
    · rw [update_of_ne last]
      by_cases inside : d ≤ a ∧ a < d + n
      · rw [if_pos inside, if_pos (by omega), update_of_ne (by omega)]
      · rw [if_neg inside, if_neg (by omega)]

end

/-- The destination has become what the source was, and nothing else has changed. -/
structure Moves (mem : Memory) (dst src n : Nat) (result : Memory) : Prop where
  region : ∀ i < n, result (dst + i) = mem (src + i)
  outside : ∀ a, a < dst ∨ dst + n ≤ a → result a = mem a

theorem Moves.of_apply {mem result : Memory} {dst src n : Nat}
    (all : ∀ a, result a = if dst ≤ a ∧ a < dst + n then mem (src + (a - dst)) else mem a) : Moves mem dst src n result := by
  refine ⟨fun i inside => ?_, fun a out => ?_⟩
  · rw [all, if_pos (by omega), Nat.add_sub_cancel_left]
  · rw [all, if_neg (by omega)]

/-- The regions end at addresses, as all regions below `MAXVA` do. -/
theorem memmove_moves (mem : Memory) (dst src n : Nat) (dstEnd : dst + n < 2 ^ 64) (srcEnd : src + n < 2 ^ 64) :
    Moves mem dst src n (Kernel.memmove mem dst src n).2 ∧ Moves mem dst src n (User.memmove mem dst src n).2 := by
  constructor
  · rw [Kernel.memmove, Nat.mod_eq_of_lt dstEnd, Nat.mod_eq_of_lt srcEnd]
    split_ifs with none overlap
    · subst none
      exact ⟨fun _ => (nomatch ·), fun _ _ => rfl⟩
    · exact .of_apply fun a => copyDown_apply dstEnd srcEnd (.inl (Nat.le_of_lt overlap.1))
    · exact .of_apply fun a => copyUp_apply dstEnd srcEnd (by omega)
  · have wrapped (x : Nat) (small : x + n < 2 ^ 64) : ((x + n : Int) % 2 ^ 64).toNat = x + n := by omega
    rw [User.memmove, Int.toNat_natCast, wrapped dst dstEnd, wrapped src srcEnd]
    split_ifs with above
    · exact .of_apply fun a => copyUp_apply dstEnd srcEnd (.inl (Nat.le_of_lt above))
    · exact .of_apply fun a => copyDown_apply dstEnd srcEnd (.inl (by omega))

/-- Four bytes moved up by one, onto themselves. -/
theorem memmove_moves_up : Moves Nat.toUInt8 1 0 4 (Kernel.memmove Nat.toUInt8 1 0 4).2 ∧
    Moves Nat.toUInt8 1 0 4 (User.memmove Nat.toUInt8 1 0 4).2 :=
  memmove_moves Nat.toUInt8 1 0 4 (by decide) (by decide)

end Xv6.Memmove
