import Xv6.Fs.Blocks

namespace Xv6.Blocks
open Lib Fs

/-! ## Names in memory -/

abbrev CString := Nat → UInt8

def CString.tail (p : CString) : CString := fun k => p (k + 1)

def strncmp (p q : CString) : (n : Nat) → Int
  | 0 => 0
  | n + 1 => if p 0 ≠ 0 ∧ p 0 = q 0 then strncmp p.tail q.tail n else (p 0).toNat - (q 0).toNat

def strncpy (t : CString) : (n : Nat) → List UInt8
  | 0 => []
  | n + 1 => if t 0 ≠ 0 then t 0 :: strncpy t.tail n else t 0 :: List.replicate n 0

def namecmp (s t : CString) : Int := strncmp s t DIRSIZ

/-- The bytes up to a NUL, at most `n` of them. -/
def upTo : (n : Nat) → CString → Name
  | 0, _ => []
  | n + 1, p => if p 0 = 0 then [] else p 0 :: upTo n p.tail

def key (p : CString) : Name := upTo DIRSIZ p

theorem strncmp_eq_zero (p q : CString) (n : Nat) : strncmp p q n = 0 ↔ upTo n p = upTo n q := by
  induction n generalizing p q with
  | zero => exact ⟨fun _ => rfl, fun _ => rfl⟩
  | succ n ih =>
    rw [strncmp, upTo, upTo]
    by_cases ended : p 0 = 0
    · rw [if_neg fun both => both.1 ended, if_pos ended, ended]
      split
      next also => simp [also]
      next longer =>
        constructor
        · intro equal
          have : (q 0).toNat = 0 := by
            simp only [UInt8.toNat_zero] at equal
            omega
          exact absurd (UInt8.toNat_inj.mp this) longer
        · exact nofun
    · by_cases same : p 0 = q 0
      · rw [if_pos ⟨ended, same⟩, if_neg ended, if_neg (same ▸ ended), ih, same]
        exact ⟨fun rest => rest ▸ rfl, fun whole => (List.cons.inj whole).2⟩
      · constructor
        · grind [UInt8.toNat_inj.mp]
        · grind

theorem upTo_congr {p q : CString} {n : Nat} (same : ∀ k < n, p k = q k) : upTo n p = upTo n q := by
  induction n generalizing p q with
  | zero => rfl
  | succ n ih =>
    have rest : upTo n p.tail = upTo n q.tail := ih fun k below => same (k + 1) (Nat.succ_lt_succ below)
    rw [upTo, upTo, same 0 (Nat.succ_pos n), rest]

theorem upTo_length (n : Nat) (p : CString) : (upTo n p).length ≤ n := by
  induction n generalizing p with
  | zero => exact Nat.le_refl _
  | succ n ih =>
    rw [upTo]
    split
    next => exact Nat.zero_le _
    next => exact Nat.succ_le_succ (ih _)

theorem upTo_nonzero (n : Nat) (p : CString) : ∀ b ∈ upTo n p, b ≠ 0 := by
  induction n generalizing p with
  | zero => exact nofun
  | succ n ih =>
    rw [upTo]
    split
    next => exact nofun
    next first =>
      intro b member
      rcases List.mem_cons.mp member with rfl | later
      · exact first
      · exact ih _ b later

theorem strncpy_eq (t : CString) (n : Nat) : strncpy t n = upTo n t ++ List.replicate (n - (upTo n t).length) 0 := by
  induction n generalizing t with
  | zero => rfl
  | succ n ih =>
    rw [strncpy, upTo]
    by_cases ended : t 0 = 0
    · rw [if_neg fun more => more ended, if_pos ended, ended]
      rfl
    · rw [if_pos ended, if_neg ended, ih, List.length_cons, Nat.add_sub_add_right, List.cons_append]

theorem upTo_getD (bytes : List UInt8) : upTo bytes.length (bytes.getD · 0) = bytes.takeWhile (· != 0) := by
  induction bytes with
  | nil => rfl
  | cons b bytes ih =>
    rw [List.length_cons, upTo, List.takeWhile_cons]
    by_cases ended : b = 0
    · simp [ended]
    · have first : (b != 0) = true := by simpa using ended
      rw [if_pos first, ← ih]
      exact if_neg ended

/-! ## Directory entries -/

theorem dirent_length (inum : Nat) (name : Name) : (dirent inum name).length = direntSize := by simp [dirent]

theorem direntInum_dirent {inum : Nat} (small : inum < 2 ^ 16) (name : Name) : direntInum (dirent inum name) = inum := by
  have bytes : direntInum (dirent inum name) = inum % 2 ^ 8 + 2 ^ 8 * (inum / 2 ^ 8 % 2 ^ 8) := by
    simp [direntInum, dirent]
  omega

theorem direntName_dirent (inum : Nat) {name : Name} (terminated : 0 ∉ name) :
    direntName (dirent inum name) = name.take DIRSIZ := by
  have letters : ∀ c ∈ name.take DIRSIZ, (c != 0) = true := by grind
  have rest (n : Nat) : (List.replicate n (0 : UInt8)).takeWhile (· != 0) = [] := by
    cases n <;> rfl
  have field : (dirent inum name).drop 2 = name.take DIRSIZ ++ List.replicate (DIRSIZ - name.length) 0 := by
    rw [dirent, List.take_append, List.take_replicate]
    simp
  rw [direntName, field, List.take_append, List.take_take, Nat.min_self, List.take_replicate,
    List.takeWhile_append_of_pos letters, rest,
    List.append_nil]

/-! ## Directories by the strings in memory -/

namespace Raw

def nameOf (de : List UInt8) : CString := fun k => de.getD (2 + k) 0

def dirlookup (dp : Nat) (name : CString) : Op (Option (Nat × Nat)) := do
  let s ← get
  if (s.ip dp).type ≠ T_DIR then throw .dirlookupNotDir
  else do
    let (de, off) ← scanFrom dp .dirlookupRead (fun de => direntInum de ≠ 0 ∧ namecmp name (nameOf de) = 0) (s.ip dp).size 0
    pure (de.map fun de => (direntInum de, off))

def dirlink (dp : Nat) (name : CString) (inum : Nat) : Op Bool := do
  let found ← dirlookup dp name
  if found.isSome then pure false else do
    let s ← get
    let (_, off) ← scanFrom dp .dirlinkRead (direntInum · = 0) (s.ip dp).size 0
    let de := [.ofNat inum, .ofNat (inum / 2 ^ 8)] ++ strncpy name DIRSIZ
    let wrote ← writei dp (kernelBytes de) off direntSize
    if wrote = some direntSize then pure true else throw .dirlink

theorem namecmp_eq_zero {name : CString} {de : List UInt8} (full : de.length = direntSize) :
    namecmp name (nameOf de) = 0 ↔ direntName de = key name := by
  have bytes : ((de.drop 2).take DIRSIZ).length = DIRSIZ := by
    rw [List.length_take, List.length_drop, full]
    rfl
  have stored : upTo DIRSIZ (nameOf de) = direntName de := by
    grind [direntName, upTo_getD, upTo_congr, nameOf]
  rw [namecmp, strncmp_eq_zero, stored, key]
  exact eq_comm

theorem dirlookup_eq (dp : Nat) (name : CString) : dirlookup dp name = Blocks.dirlookup dp (key name) := by
  have scan (fuel off : Nat) : scanFrom dp .dirlookupRead (fun de => direntInum de ≠ 0 ∧ namecmp name (nameOf de) = 0) fuel off =
      scanFrom dp .dirlookupRead (fun de => direntInum de ≠ 0 ∧ direntName de = key name) fuel off := by
    induction fuel generalizing off with
    | zero => rfl
    | succ fuel ih =>
      refine bind_congr fun s => if_congr Iff.rfl (bind_congr fun de => ?_) rfl
      split
      next => rfl
      next full => simp only [namecmp_eq_zero (Decidable.not_not.mp full), ih]
  simp only [dirlookup, Blocks.dirlookup, scan]

theorem dirent_key (inum : Nat) (name : CString) :
    dirent inum (key name) = [.ofNat inum, .ofNat (inum / 2 ^ 8)] ++ strncpy name DIRSIZ := by
  have short : (key name).length ≤ DIRSIZ := upTo_length DIRSIZ name
  rw [dirent, strncpy_eq, List.take_append, List.take_of_length_le short, List.take_replicate,
    Nat.min_eq_left (Nat.sub_le _ _)]
  rfl

theorem dirlink_eq (dp : Nat) (name : CString) (inum : Nat) : dirlink dp name inum = Blocks.dirlink dp (key name) inum := by
  simp only [dirlink, Blocks.dirlink, dirlookup_eq, dirent_key]

end Raw

end Xv6.Blocks
