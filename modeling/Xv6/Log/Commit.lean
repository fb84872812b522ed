import Xv6.Lib.Writes
import Xv6.Param

namespace Xv6.Commit
open Lib

/-! ## Blocks and the on-disk log header -/

abbrev Word := BitVec 32

/-- A block: `BSIZE = 1024` bytes, as the 32-bit words of `struct logheader`. -/
abbrev Block := Fin 256 → Word

abbrev Disk := Nat → Block

def headN (b : Block) : Int := (b 0).toInt

def headBlocks (b : Block) : List Word :=
  (List.range (headN b).toNat).map fun i => b (Fin.ofNat 256 (i + 1))

/-- The header block after `write_head` has stored `lh` into it; the words beyond stay. -/
def storeHead (b : Block) (lh : List Word) : Block := fun j =>
  if j.val = 0 then BitVec.ofNat 32 lh.length
  else if j.val - 1 < lh.length then lh.getD (j.val - 1) 0
  else b j

structure Layout where
  start : Nat
  size : Nat

def Layout.InLog (l : Layout) (b : Nat) : Prop := l.start ≤ b ∧ b < l.start + l.size

/-! ## The running kernel

`cache` is what `bread` returns for each block, a cached buffer or else the disk contents, and
`out` the blocks that `bwrite` has sent to the disk, in program order. -/

structure Kernel where
  lh : List Word
  cache : Nat → Block
  out : List (Nat × Block)

namespace Kernel

def bwrite (k : Kernel) (b : Nat) : Kernel := { k with out := k.out ++ [(b, k.cache b)] }

/-- `memmove` of a whole block into the buffer of block `b`. -/
def fill (k : Kernel) (b : Nat) (data : Block) : Kernel :=
  { k with cache := Function.update k.cache b data }

def home (k : Kernel) (tail : Nat) : Nat := (k.lh.getD tail 0).toNat

end Kernel

def writeLog (l : Layout) (k : Kernel) : Kernel :=
  (List.range k.lh.length).foldl (fun m tail =>
    (m.fill (l.start + tail + 1) (m.cache (k.home tail))).bwrite (l.start + tail + 1)) k

def writeHead (l : Layout) (k : Kernel) : Kernel :=
  (k.fill l.start (storeHead (k.cache l.start) k.lh)).bwrite l.start

/-- Unpinning the buffers changes no contents, so `recovering` makes no difference here. -/
def installTrans (l : Layout) (k : Kernel) : Kernel :=
  (List.range k.lh.length).foldl (fun m tail =>
    (m.fill (k.home tail) (m.cache (l.start + tail + 1))).bwrite (k.home tail)) k

def commit (l : Layout) (k : Kernel) : Kernel :=
  if k.lh.length > 0 then
    let k := installTrans l (writeHead l (writeLog l k))
    writeHead l { k with lh := [] }
  else k

def readHead (l : Layout) (k : Kernel) : Kernel := { k with lh := headBlocks (k.cache l.start) }

def recoverFromLog (l : Layout) (d : Disk) : Kernel :=
  let k := installTrans l (readHead l ⟨[], d, []⟩)
  writeHead l { k with lh := [] }

/-! ## The writes in closed form -/

def logWrites (l : Layout) (k : Kernel) : List (Nat × Block) :=
  (List.range k.lh.length).map fun tail => (l.start + tail + 1, k.cache (k.home tail))

def homeWrites (l : Layout) (k : Kernel) : List (Nat × Block) :=
  (List.range k.lh.length).map fun tail => (k.home tail, k.cache (l.start + tail + 1))

/-- The blocks of `log.lh` lie outside the log area and leave a log block for each of them. -/
structure Fits (l : Layout) (lh : List Word) : Prop where
  outside : ∀ b ∈ lh, ¬ l.InLog b.toNat
  room : lh.length < l.size
  bounded : lh.length ≤ LOGSIZE

variable {l : Layout} {k : Kernel}

theorem Fits.home_outside (fits : Fits l k.lh) {tail : Nat} (below : tail < k.lh.length) : ¬ l.InLog (k.home tail) := by
  simpa [Kernel.home, below] using fits.outside _ (List.getElem_mem below)

theorem Fits.slot_inLog {lh : List Word} (fits : Fits l lh) {tail : Nat} (below : tail < lh.length) :
    l.InLog (l.start + tail + 1) := by
  have := fits.room
  constructor <;> omega

theorem copyLoop_eq (k : Kernel) (target source : Nat → Nat) (n : Nat) (apart : ∀ i < n, ∀ j < n, target i ≠ source j) :
    (List.range n).foldl (fun k tail =>
        (k.fill (target tail) (k.cache (source tail))).bwrite (target tail)) k =
      { k with
        cache := applyWrites k.cache ((List.range n).map fun i => (target i, k.cache (source i)))
        out := k.out ++ (List.range n).map fun i => (target i, k.cache (source i)) } := by
  induction n with
  | zero => simp
  | succ n ih =>
    rw [List.range_succ, List.foldl_append, ih fun i hi j hj => apart i (by omega) j (by omega)]
    have unread : applyWrites k.cache ((List.range n).map fun i => (target i, k.cache (source i)))
        (source n) = k.cache (source n) := by grind [applyWrites_of_not_mem]
    simp [Kernel.fill, Kernel.bwrite, unread, applyWrites_append]

theorem writeLog_eq (fits : Fits l k.lh) :
    writeLog l k = { k with cache := applyWrites k.cache (logWrites l k), out := k.out ++ logWrites l k } := by
  apply copyLoop_eq k (fun tail => l.start + tail + 1) k.home
  intro i hi j hj same
  exact fits.home_outside hj (same ▸ fits.slot_inLog hi)

theorem installTrans_eq (fits : Fits l k.lh) :
    installTrans l k = { k with cache := applyWrites k.cache (homeWrites l k), out := k.out ++ homeWrites l k } := by
  apply copyLoop_eq k k.home (fun tail => l.start + tail + 1)
  intro i hi j hj same
  exact fits.home_outside hi (same ▸ fits.slot_inLog hj)

end Xv6.Commit
