import Xv6.Fs.BlockMap
import Xv6.Mkfs.Image

namespace Xv6.Mkfs
open Lib Blocks Function
open Fs (short)

/-! ## Dinodes on disk -/

structure Fits (d : Dinode) : Prop where
  type : -32768 ≤ d.type ∧ d.type < 32768
  major : -32768 ≤ d.major ∧ d.major < 32768
  minor : -32768 ≤ d.minor ∧ d.minor < 32768
  nlink : -32768 ≤ d.nlink ∧ d.nlink < 32768
  size : d.size < 2 ^ 32
  addrs : ∀ k ≤ NDIRECT, d.addrs k < 2 ^ 32
  rest : ∀ k > NDIRECT, d.addrs k = 0

variable {d : Dinode} {k other : Nat}

theorem Fits.resize (fits : Fits d) {n : Nat} (small : n < 2 ^ 32) : Fits { d with size := n } :=
  ⟨fits.type, fits.major, fits.minor, fits.nlink, small, fits.addrs, fits.rest⟩

theorem ushort_lt (n : Int) : ushort n < 2 ^ 16 := by
  rw [ushort]
  omega

theorem short_ushort {n : Int} (range : -32768 ≤ n ∧ n < 32768) : short (ushort n : Nat) = n := by
  rw [short, ushort, Int.bmod]
  omega

theorem short_range (n : Int) : -32768 ≤ short n ∧ short n < 32768 := by
  rw [short, Int.bmod]
  omega

variable (c : Bytes)

theorem word_lt (k : Nat) : word c k < 2 ^ 32 := by
  have one := (c (4 * k)).toNat_lt
  have two := (c (4 * k + 1)).toNat_lt
  have three := (c (4 * k + 2)).toNat_lt
  have four := (c (4 * k + 3)).toNat_lt
  rw [word]
  omega

theorem getDinode_fits (slot : Nat) : Fits (getDinode c slot) := by
  constructor
  case type | major | minor | nlink =>
    dsimp only [getDinode]
    exact short_range _
  case size => exact word_lt ..
  case addrs =>
    intro k small
    have there : (getDinode c slot).addrs k = word c (16 * slot + (k + 3)) := if_pos small
    rw [there]
    exact word_lt ..
  case rest =>
    intro k large
    exact if_neg (Nat.not_le.mpr large)

theorem dinodeWord_lt (fits : Fits d) (inside : k < 16) : dinodeWord d k < 2 ^ 32 := by
  have type := ushort_lt d.type
  have major := ushort_lt d.major
  have minor := ushort_lt d.minor
  have nlink := ushort_lt d.nlink
  match k with
  | 0 =>
    rw [dinodeWord]
    omega
  | 1 =>
    rw [dinodeWord]
    omega
  | 2 => exact fits.size
  | k + 3 => exact fits.addrs k (by simp only [NDIRECT]; omega)

theorem word_of_bytes {c : Bytes} {j w : Nat} (fits : w < 2 ^ 32) (bytes : ∀ r < 4, c (4 * j + r) = .ofNat (w / 2 ^ (8 * r))) :
    word c j = w := by
  have first := bytes 0 (by decide)
  rw [Nat.add_zero] at first
  rw [word, first, bytes 1 (by decide), bytes 2 (by decide), bytes 3 (by decide)]
  simp only [UInt8.toNat_ofNat']
  omega

theorem word_setDinode (fits : Fits d) (slot : Nat) (inside : k < 16) :
    word (setDinode c slot d) (16 * slot + k) = dinodeWord d k := by
  refine word_of_bytes (dinodeWord_lt fits inside) fun r small => ?_
  have here : (4 * (16 * slot + k) + r) / 64 = slot := by omega
  have index : (4 * (16 * slot + k) + r) % 64 / 4 = k := by omega
  have byte : (4 * (16 * slot + k) + r) % 4 = r := by omega
  rw [setDinode, if_pos here, index, byte]

theorem word_setDinode_of_ne (d : Dinode) {slot : Nat} (apart : other ≠ slot) (inside : k < 16) :
    word (setDinode c slot d) (16 * other + k) = word c (16 * other + k) := by
  have keeps (r : Nat) (small : r < 4) : setDinode c slot d (4 * (16 * other + k) + r) = c (4 * (16 * other + k) + r) :=
    if_neg (by omega)
  have first := keeps 0 (by decide)
  rw [Nat.add_zero] at first
  rw [word, word, first, keeps 1 (by decide), keeps 2 (by decide), keeps 3 (by decide)]

theorem getDinode_setDinode (slot : Nat) (fits : Fits d) : getDinode (setDinode c slot d) slot = d := by
  have type := ushort_lt d.type
  have minor := ushort_lt d.minor
  have first := word_setDinode c fits slot (show 0 < 16 by decide)
  rw [Nat.add_zero] at first
  have addrs (k : Nat) : (if k ≤ NDIRECT then word (setDinode c slot d) (16 * slot + (k + 3)) else 0) = d.addrs k := by
    split
    next small => exact word_setDinode c fits slot (by simp only [NDIRECT] at small; omega)
    next large => exact (fits.rest k (Nat.lt_of_not_le large)).symm
  have low (a b : Nat) (small : a < 2 ^ 16) : (a + 2 ^ 16 * b) % 2 ^ 16 = a ∧ (a + 2 ^ 16 * b) / 2 ^ 16 = b := by omega
  simp only [getDinode, first, word_setDinode c fits slot (show 1 < 16 by decide),
    word_setDinode c fits slot (show 2 < 16 by decide),
    addrs, dinodeWord, low _ _ type, low _ _ minor, short_ushort fits.type, short_ushort fits.major, short_ushort fits.minor,
    short_ushort fits.nlink]

theorem getDinode_setDinode_of_ne (d : Dinode) {slot : Nat} (apart : other ≠ slot) :
    getDinode (setDinode c slot d) other = getDinode c other := by
  have first := word_setDinode_of_ne c d apart (show 0 < 16 by decide)
  rw [Nat.add_zero] at first
  have addrs (k : Nat) : (if k ≤ NDIRECT then word (setDinode c slot d) (16 * other + (k + 3)) else 0) =
      if k ≤ NDIRECT then word c (16 * other + (k + 3)) else 0 := by
    split
    next small => exact word_setDinode_of_ne c d apart (by simp only [NDIRECT] at small; omega)
    next => rfl
  simp only [getDinode, first, word_setDinode_of_ne c d apart (show 1 < 16 by decide),
    word_setDinode_of_ne c d apart (show 2 < 16 by decide), addrs]

/-! ## The file system in an image

While mkfs runs, the blocks below `freeblock` count as used; the bitmap is written at the end. -/

def geometry : Superblock := ⟨FSSIZE, nblocks, NINODES, by decide, by decide⟩

def freeDinode : Dinode := ⟨0, 0, 0, 0, 0, fun _ => 0⟩

def iblock (inum : Nat) : Nat := inum / IPB + inodestart

def dinodes (sect : Nat → Bytes) (inum : Nat) : Dinode :=
  if inum < NINODES then getDinode (sect (iblock inum)) (inum % IPB) else freeDinode

def dataBlocks (sect : Nat → Bytes) (b : Nat) : Bytes := if nmeta ≤ b then sect b else fun _ => 0

def setInode (sect : Nat → Bytes) (inum : Nat) (d : Dinode) : Nat → Bytes :=
  update sect (iblock inum) (setDinode (sect (iblock inum)) (inum % IPB) d)

def Image.view (m : Image) : State := ⟨geometry, dinodes m.sect, fun _ => none, (decide <| · < m.freeblock), dataBlocks m.sect⟩

section
variable {m : Image} {sect : Nat → Bytes} {inum x : Nat} {d : Dinode}

theorem dinodes_fits (sect : Nat → Bytes) (inum : Nat) : Fits (dinodes sect inum) := by
  rw [dinodes]
  split
  next => exact getDinode_fits ..
  next => exact ⟨by decide, by decide, by decide, by decide, by decide, fun _ _ => Nat.two_pow_pos 32, fun _ _ => rfl⟩

theorem iblock_lt (inside : inum < NINODES) : iblock inum < bmapstart := by
  rw [iblock]
  have bound : inum / IPB < ninodeblocks := Nat.lt_succ_of_le (Nat.div_le_div_right (Nat.le_of_lt inside))
  have layout : bmapstart = ninodeblocks + inodestart := by decide
  omega

theorem bmapstart_lt : bmapstart < nmeta := by decide

theorem dinodes_setInode (inside : inum < NINODES) (fits : Fits d) :
    dinodes (setInode sect inum d) = update (dinodes sect) inum d := by
  funext j
  by_cases same : j = inum
  · subst same
    rw [dinodes, if_pos inside, setInode, update_self, update_self]
    exact getDinode_setDinode _ _ fits
  · rw [update_of_ne same, dinodes, dinodes]
    split
    next =>
      by_cases block : iblock j = iblock inum
      · have apart : j % IPB ≠ inum % IPB := by
          intro equal
          have quotient : j / IPB = inum / IPB := Nat.add_right_cancel block
          have all := Nat.div_add_mod j IPB
          rw [quotient, equal, Nat.div_add_mod] at all
          exact same all.symm
        rw [setInode, block, update_self]
        exact getDinode_setDinode_of_ne _ _ apart
      · rw [setInode, update_of_ne block]
    next => rfl

theorem dinodes_update (outside : bmapstart ≤ x) (buf : Bytes) : dinodes (update sect x buf) = dinodes sect := by
  funext j
  rw [dinodes, dinodes]
  split
  next inside =>
    have low := iblock_lt inside
    rw [update_of_ne (by omega)]
  next => rfl

theorem dataBlocks_update_of_lt (low : x < nmeta) (buf : Bytes) :
    dataBlocks (update sect x buf) = dataBlocks sect := by grind [dataBlocks]

theorem dataBlocks_update (high : nmeta ≤ x) (buf : Bytes) :
    dataBlocks (update sect x buf) = update (dataBlocks sect) x buf := by
  funext b
  by_cases same : b = x
  · subst same
    rw [dataBlocks, if_pos high, update_self, update_self]
  · rw [update_of_ne same, dataBlocks, update_of_ne same, dataBlocks]

theorem view_setInode (inside : inum < NINODES) (fits : Fits d) :
    Image.view { m with sect := setInode m.sect inum d } = { m.view with dinode := update m.view.dinode inum d } := by
  have low := Nat.lt_trans (iblock_lt inside) bmapstart_lt
  rw [Image.view, dinodes_setInode inside fits, setInode, dataBlocks_update_of_lt low]
  rfl

theorem view_wsect (high : nmeta ≤ x) (buf : Bytes) :
    Image.view { m with sect := update m.sect x buf } = m.view.setData x buf := by
  have above := bmapstart_lt
  rw [Image.view, dinodes_update (by omega), dataBlocks_update high]
  rfl

/-! ## Reading and writing sectors and inodes -/

@[simp] theorem wp_wsect (sec : Nat) (buf : Bytes) (Q : Unit → Image → Prop) :
    wp (wsect sec buf) Q m ↔ Q ⟨⟩ { m with sect := update m.sect sec buf } := by
  rw [wsect, wp_modify]

theorem wp_rsect {sec : Nat} (inside : sec < FSSIZE) {Q : Bytes → Image → Prop} : wp (rsect sec) Q m ↔ Q (m.sect sec) m := by
  rw [rsect, wp_bind, wp_get, if_pos inside, wp_pure]

theorem wp_winode (inside : inum < NINODES) {Q : Unit → Image → Prop} :
    wp (winode inum d) Q m ↔ Q ⟨⟩ { m with sect := setInode m.sect inum d } := by
  have small : iblock inum < FSSIZE := Nat.lt_trans (iblock_lt inside) (by decide)
  rw [iblock] at small
  rw [winode, wp_bind, wp_rsect small, wp_wsect]
  exact Iff.rfl

theorem wp_rinode (inside : inum < NINODES) {Q : Dinode → Image → Prop} :
    wp (rinode inum) Q m ↔ Q (dinodes m.sect inum) m := by
  have small : iblock inum < FSSIZE := Nat.lt_trans (iblock_lt inside) (by decide)
  rw [iblock] at small
  rw [rinode, wp_bind, wp_rsect small, wp_pure, dinodes, if_pos inside]
  exact Iff.rfl

end

end Xv6.Mkfs
