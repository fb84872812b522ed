import Xv6.Fs.BlockOwnership

namespace Xv6.Blocks
open Lib Fs

/-! ## Reading into user memory -/

/-- The loop of `readi`; `dest tot m` tells whether `either_copyout` succeeds on the `m` bytes at `tot`. -/
def readiToFrom (i : Nat) (dest : (tot m : Nat) → Bool) : (fuel tot off left : Nat) → Op (Option Nat)
  | 0, tot, _, _ => pure (some tot)
  | fuel + 1, tot, off, left =>
    if left = 0 then pure (some tot) else do
      discard (bmap i (off / BSIZE))
      let m := min left (BSIZE - off % BSIZE)
      if dest tot m then readiToFrom i dest fuel (tot + m) (off + m) (left - m) else pure none

def readiTo (i : Nat) (dest : (tot m : Nat) → Bool) (off n : Nat) : Op (Option Nat) := do
  let s ← get
  if off > (s.ip i).size ∨ off + n ≥ 2 ^ 32 then pure (some 0)
  else
    let left := min n ((s.ip i).size - off)
    readiToFrom i dest left 0 off left

/-! ## No holes -/

def Whole (s : State) : Prop :=
  ∀ i, (s.ip i).type ≠ 0 → ∀ bn < ((s.ip i).size + BSIZE - 1) / BSIZE, s.blockAt (place i bn) ≠ 0

def fileRules : Rules :=
  ⟨(· ≠ 0), (· ≤ MAXFILE * BSIZE), by decide, fun none => none rfl, fun _ small => small⟩

section
variable {s t : State} {i bn : Nat}

theorem index_lt_iff {n : Nat} : bn < (n + BSIZE - 1) / BSIZE ↔ bn * BSIZE < n := by
  simp only [BSIZE]
  omega

theorem blockAt_beyond (high : MAXFILE ≤ bn) : s.blockAt (place i bn) = 0 := by
  have maxfile : MAXFILE = NDIRECT + NINDIRECT := rfl
  rw [place, if_neg (by omega)]
  exact if_neg fun there => absurd there.2.1 (by omega)

theorem Whole.noHole (whole : Whole s) (allocated : (s.ip i).type ≠ 0) : NoHole s i :=
  fun _ _ below => whole i allocated _ (index_lt_iff.mpr below)

theorem Whole.small (whole : Whole s) (allocated : (s.ip i).type ≠ 0) : (s.ip i).size ≤ MAXFILE * BSIZE := by
  by_contra long
  exact whole i allocated MAXFILE (index_lt_iff.mpr (by omega)) (blockAt_beyond (Nat.le_refl _))

theorem Good.of_whole (kept : Kept s) (clean : ∀ i d, s.core i = some d → d = s.dinode i ∧ d.type ≠ 0) (whole : Whole s) :
    Good fileRules s :=
  ⟨kept, clean, fun _ allocated => whole.noHole allocated, fun _ allocated => whole.small allocated⟩

theorem Good.is_whole (good : Good fileRules s) : Whole s := by
  intro i allocated bn below
  have start := index_lt_iff.mp below
  have small : (s.ip i).size ≤ MAXFILE * BSIZE := good.fits i allocated
  exact good.whole i allocated bn (Nat.lt_of_mul_lt_mul_right (Nat.lt_of_lt_of_le start small)) start

theorem wp_bmap (kept : Kept s) (allocated : (s.ip i).type ≠ 0) (full : s.blockAt (place i bn) ≠ 0) :
    wp (bmap i bn) (fun b t => t = s ∧ s.blockAt (place i bn) = b) s := by
  refine wp_of_ends ((ends_bmap kept allocated bn (fun high => full (blockAt_beyond high)) fun less => ?_).mono
    fun b t after => ?_)
  · rw [needed_zero allocated full] at less
    exact absurd less (Nat.not_lt_zero _)
  · obtain ⟨-, grown, -⟩ := after
    have here := grown.at_place
    obtain rfl := grown.idle full
    exact ⟨rfl, here⟩

theorem wp_readiToFrom (kept : Kept s) (whole : Whole s) (allocated : (s.ip i).type ≠ 0) (dest : (tot m : Nat) → Bool)
    (fuel tot off left : Nat) (inside : off + left ≤ (s.ip i).size) :
    wp (readiToFrom i dest fuel tot off left) (fun _ t => t = s) s := by
  induction fuel generalizing tot off left with
  | zero => exact (wp_pure ..).mpr rfl
  | succ fuel ih =>
    rw [readiToFrom]
    split
    next => exact (wp_pure ..).mpr rfl
    next more =>
      have below : off / BSIZE < ((s.ip i).size + BSIZE - 1) / BSIZE := by
        simp only [BSIZE]
        omega
      change wp ((bmap i (off / BSIZE) >>= fun _ => pure ()) >>= _) _ s
      rw [wp_bind]
      refine (wp_bmap kept allocated (whole i allocated _ below)).bind ?_
      rintro _ _ ⟨rfl, -⟩
      refine (wp_pure ..).mpr ?_
      dsimp only
      split
      next => exact ih _ _ _ (by omega)
      next => exact (wp_pure ..).mpr rfl

theorem wp_readiTo (kept : Kept s) (whole : Whole s) (allocated : (s.ip i).type ≠ 0) (dest : (tot m : Nat) → Bool)
    (off n : Nat) : wp (readiTo i dest off n) (fun _ t => t = s) s := by
  rw [readiTo, wp_bind, wp_get]
  split
  next => exact (wp_pure ..).mpr rfl
  next => exact wp_readiToFrom kept whole allocated dest _ 0 off _ (by omega)

theorem run_of_wp {α : Type} {f : Op α} (h : wp f (fun _ t => t = s) s) : ∃ a, f.run s = .ok (a, s) := by
  obtain ⟨a, t, ran, rfl⟩ := h.run_eq
  exact ⟨a, ran⟩

end

theorem no_holes (s t : State) (calls : List Call) (owned : s.Owned) (reserved : ∀ b < s.sb.dataStart, s.bit b = true)
    (clean : ∀ i d, s.core i = some d → d = s.dinode i ∧ d.type ≠ 0) (whole : Whole s) (taken : run step s calls = some t) :
    Whole t ∧ ∀ i, (t.ip i).type ≠ 0 → ∀ dest off n, ∃ read, (readiTo i dest off n).run t = .ok (read, t) := by
  have good : Good fileRules t :=
    run_inductive (fun _ _ _ taken => Good.step taken) (.of_whole ⟨owned, reserved⟩ clean whole) taken
  exact ⟨good.is_whole, fun i allocated dest off n => run_of_wp (wp_readiTo good.kept good.is_whole allocated dest off n)⟩

theorem bare_free {type : Int} {size i : Nat} (other : i ≠ 1) : ((bare type size bit).ip i).type = 0 := by
  simp [bare, State.ip, other]

theorem bare_whole {size : Nat} (empty : size = 0) : Whole (bare T_FILE size bit) := by
  intro i allocated bn below
  by_cases one : i = 1
  · subst one empty
    exact absurd (index_lt_iff.mp below) (Nat.not_lt_zero _)
  · exact absurd (bare_free one) allocated

theorem no_holes_writeAndPut :
    ∃ t, run step (bare T_FILE 0 (· < 5)) [.writei 1 (kernelBytes [7]) 0 1, .iput 1 true] = some t ∧
      Whole t ∧ ∀ i, (t.ip i).type ≠ 0 → ∀ dest off n, ∃ read, (readiTo i dest off n).run t = .ok (read, t) := by
  refine exists_some_of (fun t => t.bit 5) (by decide +kernel) fun t taken _ =>
    no_holes _ t _ (bare_owned _ _ ?_) ?_ nofun ?_ taken
  · intro b low _
    simpa using low
  · intro b below
    exact decide_eq_true below
  · exact bare_whole rfl

def shared : State where
  sb := ⟨20, 15, 3, by decide, by decide⟩
  dinode
    | 1 => ⟨T_FILE, 0, 0, 1, 4, fun k => if k = 0 then 5 else 0⟩
    | 2 => ⟨T_FILE, 0, 0, 1, NDIRECT * BSIZE + 1, fun k => if k = NDIRECT then 5 else 6 + k⟩
    | _ => ⟨0, 0, 0, 0, 0, fun _ => 0⟩
  core _ := none
  bit _ := true
  data b o := if b = 5 ∧ o = 0 then 18 else 0

theorem shared_whole : Whole shared := by
  intro i allocated bn below
  by_cases one : i = 1
  · subst one
    have size : (shared.ip 1).size = 4 := rfl
    rw [size, BSIZE] at below
    obtain rfl : bn = 0 := by omega
    decide
  by_cases two : i = 2
  · subst two
    have size : (shared.ip 2).size = 12289 := by decide +kernel
    have all : ∀ bn < 13, shared.blockAt (place 2 bn) ≠ 0 := by decide
    rw [size, BSIZE] at below
    exact all bn (by omega)
  · have free : (shared.ip i).type = 0 := by
      change (shared.dinode i).type = 0
      simp [shared]
    exact absurd free allocated

def stale : State := (bare T_FILE 1 (· < 5)).setIp 1 { (bare T_FILE 1 (· < 5)).ip 1 with size := 0 }

theorem stale_owned : stale.Owned := by
  have blocks : stale.blockAt = (bare T_FILE 1 (· < 5)).blockAt := State.blockAt_setIp _ rfl rfl
  rw [State.Owned, blocks]
  refine bare_owned _ _ fun b low _ => ?_
  simpa using low

theorem stale_whole : Whole stale := by
  intro i allocated bn below
  by_cases one : i = 1
  · subst one
    exact absurd (index_lt_iff.mp below) (Nat.not_lt_zero _)
  · rw [stale, State.ip_setIp, Function.update_of_ne one] at allocated
    exact absurd (bare_free one) allocated

/-- That there are no holes is not kept by itself: a write to a file can clear a slot of an indirect
block that it shares; `balloc` can hand out block 0; the copy of an inode on disk can have a hole that
its copy in memory does not have. -/
theorem whole_not_inductive :
    (∃ t, Whole shared ∧ (∀ b < shared.sb.dataStart, shared.bit b = true) ∧ (∀ i, shared.core i = none) ∧
      step shared (.writei 1 (kernelBytes [0, 0, 0, 0]) 0 4) = some t ∧ ¬ Whole t) ∧
    (∃ s t, Whole s ∧ s.Owned ∧ (∀ i, s.core i = none) ∧ step s (.writei 1 (kernelBytes [7]) 0 1) = some t ∧ ¬ Whole t) ∧
    ∃ s t, Whole s ∧ s.Owned ∧ (∀ b < s.sb.dataStart, s.bit b = true) ∧ step s (.recycle 1) = some t ∧ ¬ Whole t := by
  refine ⟨?_, ?_, ?_⟩
  · obtain ⟨t, taken, typed, long, hole⟩ := exists_some (o := step shared (.writei 1 (kernelBytes [0, 0, 0, 0]) 0 4))
      (P := fun t => (t.ip 2).type ≠ 0 ∧ 12 < ((t.ip 2).size + BSIZE - 1) / BSIZE ∧ t.blockAt (place 2 12) = 0)
      (by decide +kernel)
    exact ⟨t, shared_whole, fun _ _ => rfl, fun _ => rfl, taken, fun whole => whole 2 typed 12 long hole⟩
  · obtain ⟨t, taken, typed, long, hole⟩ := exists_some
      (o := step (bare T_FILE 0 (fun b => 0 < b ∧ b < 5)) (.writei 1 (kernelBytes [7]) 0 1))
      (P := fun t => (t.ip 1).type ≠ 0 ∧ 0 < ((t.ip 1).size + BSIZE - 1) / BSIZE ∧ t.blockAt (place 1 0) = 0)
      (by decide +kernel)
    refine ⟨_, t, bare_whole rfl, bare_owned _ _ fun b low _ => ?_, fun _ => rfl, taken, fun whole => whole 1 typed 0 long hole⟩
    exact decide_eq_false (by omega)
  · refine ⟨stale, _, stale_whole, stale_owned, fun b below => decide_eq_true below, rfl, fun whole => ?_⟩
    exact whole 1 (by decide) 0 (by decide) (by decide)

end Xv6.Blocks
