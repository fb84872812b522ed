import Xv6.Mkfs.Main

namespace Xv6.Mkfs
open Lib Blocks Function
open Fs (T_DIR direntSize)

/-! ## The bitmap -/

theorem bitmap_testBit (used j : Nat) {k : Nat} (small : k < 8) : (bitmap used j).toNat.testBit k = decide (8 * j + k < used) := by
  induction used with
  | zero => simp [bitmap]
  | succ n ih =>
    rw [bitmap, List.range_succ, List.foldl_append, ← bitmap]
    simp only [List.foldl_cons, List.foldl_nil]
    by_cases here : j = n / 8
    · have low : n % 8 < 8 := Nat.mod_lt n (by decide)
      have power : 2 ^ (n % 8) % 2 ^ 8 = 2 ^ (n % 8) := Nat.mod_eq_of_lt (Nat.pow_lt_pow_right (by decide) low)
      rw [← here, update_self, UInt8.toNat_or, Nat.testBit_or, ih, UInt8.toNat_ofNat', power, Nat.testBit_two_pow,
        ← Bool.decide_or]
      exact decide_eq_decide.mpr (by omega)
    · rw [update_of_ne here, ih]
      exact decide_eq_decide.mpr (by omega)

/-! ## Mounting -/

def mounted (sect : Nat → Bytes) : State where
  sb := geometry
  dinode := dinodes sect
  core := fun _ => none
  bit := fun b => (sect (b / BPB + bmapstart) (b % BPB / 8)).toNat.testBit (b % BPB % 8)
  data := sect

theorem mount_eq {sect : Nat → Bytes} (super : sect 1 = superblock) : mount sect = some (mounted sect) := by
  have magic : word superblock 0 = FSMAGIC := by decide
  have size : word superblock 1 = FSSIZE := by decide
  have blocks : word superblock 2 = nblocks := by decide
  have ninodes : word superblock 3 = NINODES := by decide
  have inodes : word superblock 6 = inodestart := by decide
  have bits : word superblock 7 = bmapstart := by decide
  simp only [mount, super, magic, size, blocks, ninodes, inodes, bits]
  rw [dif_pos ⟨trivial, by decide, by decide⟩]
  rfl

theorem blockAt_of_data {s t : State} {low : Nat} (range : ∀ x, s.blockAt x ≠ 0 → low ≤ s.blockAt x)
    (type : ∀ i, (t.ip i).type = (s.ip i).type) (addrs : ∀ i, (t.ip i).addrs = (s.ip i).addrs)
    (data : ∀ b, low ≤ b → t.data b = s.data b) : t.blockAt = s.blockAt := by
  funext x
  cases x with
  | addr i k => rw [State.blockAt, State.blockAt, type, addrs]
  | slot i j =>
    rw [State.blockAt, State.blockAt, type, addrs]
    split
    next there =>
      have table : s.blockAt (.addr i NDIRECT) = (s.ip i).addrs NDIRECT := if_pos ⟨there.1, Nat.le_refl _⟩
      have high := range (.addr i NDIRECT) (by rw [table]; exact there.2.2)
      rw [table] at high
      rw [data _ high]
    next => rfl

structure Built (files : List Input) (first : Nat) (s : State) : Prop where
  sb : s.sb = geometry
  kept : Kept s
  bit : ∀ b < BPB, s.bit b = decide (b < first)
  low : nmeta ≤ first
  high : first ≤ FSSIZE
  type : ∀ i, 0 < i → i < files.length + 2 → (s.ip i).type = kinds i
  free : ∀ i, i = 0 ∨ files.length + 2 ≤ i → (s.ip i).type = 0
  root : (s.ip ROOTINO).size = ((files.length + 2) * direntSize / BSIZE + 1) * BSIZE
  size : ∀ i, ROOTINO < i → i < files.length + 2 → (s.ip i).size = (texts files i).length
  blocks : ∀ i, 0 < i → i < files.length + 2 → ∀ bn, bn * BSIZE < (texts files i).length ↔ s.blockAt (place i bn) ≠ 0
  bytes : ∀ i, 0 < i → i < files.length + 2 → (List.range (texts files i).length).map (byteAt s i) = texts files i

section
variable {files : List Input} {m : Image} {b : Nat}

def Image.root (m : Image) : Dinode :=
  { dinodes m.sect ROOTINO with size := ((dinodes m.sect ROOTINO).size / BSIZE + 1) * BSIZE }

def Image.finished (m : Image) : Nat → Bytes :=
  update (setInode m.sect ROOTINO m.root) bmapstart (bitmap m.freeblock)

theorem view_ip (m : Image) (i : Nat) : m.view.ip i = dinodes m.sect i := rfl

theorem mounted_ip (sect : Nat → Bytes) (i : Nat) : (mounted sect).ip i = dinodes sect i := rfl

theorem root_lt : ROOTINO < NINODES := by decide

theorem Progress.rootSize (progress : Progress (fun i => (texts files i).length) kinds (texts files) (files.length + 2) m) :
    (dinodes m.sect ROOTINO).size = (files.length + 2) * direntSize := by
  rw [← rootBytes_length, ← texts_root, ← view_ip]
  exact progress.size (by decide) (by simp only [ROOTINO]; omega)

theorem Progress.rootFits (fits : FitsImage files)
    (progress : Progress (fun i => (texts files i).length) kinds (texts files) (files.length + 2) m) : Fits m.root := by
  have few := fits.few
  refine (dinodes_fits m.sect ROOTINO).resize ?_
  rw [progress.rootSize]
  simp only [NINODES, direntSize, BSIZE] at few ⊢
  omega

theorem finished_dinodes (fits : Fits m.root) : dinodes m.finished = update (dinodes m.sect) ROOTINO m.root := by
  rw [Image.finished, dinodes_update (Nat.le_refl _), dinodes_setInode root_lt fits]

theorem finished_sect (bits : b ≠ bmapstart) (inodes : b ≠ iblock ROOTINO) : m.finished b = m.sect b := by
  rw [Image.finished, update_of_ne bits, setInode, update_of_ne inodes]

theorem finished_data (high : nmeta ≤ b) : m.finished b = m.sect b := by
  have inodes := iblock_lt root_lt
  have bits := bmapstart_lt
  exact finished_sect (by omega) (by omega)

theorem finished_bit (inside : b < BPB) : (mounted m.finished).bit b = decide (b < m.freeblock) := by
  change (m.finished (b / BPB + bmapstart) (b % BPB / 8)).toNat.testBit (b % BPB % 8) = _
  rw [Nat.div_eq_of_lt inside, Nat.zero_add, Nat.mod_eq_of_lt inside, Image.finished, update_self,
    bitmap_testBit _ _ (Nat.mod_lt b (by decide))]
  exact decide_eq_decide.mpr (by omega)

section

variable (fits : Fits m.root) (kept : Kept m.view)

include fits kept

theorem finished_blockAt : (mounted m.finished).blockAt = m.view.blockAt := by
  have dataStart : m.view.sb.dataStart = nmeta := by
    change geometry.dataStart = nmeta
    decide
  refine blockAt_of_data (fun x full => (kept.owned.range x full).1) (fun i => ?_) (fun i => ?_) fun b high => ?_
  · rw [mounted_ip, finished_dinodes fits, view_ip]
    by_cases same : i = ROOTINO
    · rw [same, update_self, Image.root]
    · rw [update_of_ne same]
  · rw [mounted_ip, finished_dinodes fits, view_ip]
    by_cases same : i = ROOTINO
    · rw [same, update_self, Image.root]
    · rw [update_of_ne same]
  · rw [dataStart] at high
    change m.finished b = dataBlocks m.sect b
    rw [finished_data high, dataBlocks, if_pos high]

theorem finished_byteAt (i o : Nat) : byteAt (mounted m.finished) i o = byteAt m.view i o := by
  rw [byteAt, byteAt, finished_blockAt fits kept]
  split
  next => rfl
  next full =>
    have high := (kept.owned.range _ full).1
    have dataStart : m.view.sb.dataStart = nmeta := by
      change geometry.dataStart = nmeta
      decide
    rw [dataStart] at high
    change m.finished _ _ = dataBlocks m.sect _ _
    rw [finished_data high, dataBlocks, if_pos high]

theorem finished_kept : Kept (mounted m.finished) := by
  have small : geometry.size ≤ BPB := by decide
  have start : geometry.dataStart ≤ BPB := by decide
  refine ⟨⟨?_, ?_, fun b low high => ?_⟩, fun b below => ?_⟩
  · rw [finished_blockAt fits kept]
    exact kept.owned.range
  · rw [finished_blockAt fits kept]
    exact kept.owned.once
  · rw [finished_blockAt fits kept, finished_bit (Nat.lt_of_lt_of_le high small)]
    exact kept.owned.marked b low high
  · rw [finished_bit (Nat.lt_of_lt_of_le below start)]
    exact kept.reserved b below

end

theorem Progress.built (fits : FitsImage files)
    (progress : Progress (fun i => (texts files i).length) kinds (texts files) (files.length + 2) m) :
    Built files m.freeblock (mounted m.finished) := by
  have rootFits := progress.rootFits fits
  have ip (i : Nat) : (mounted m.finished).ip i = update (dinodes m.sect) ROOTINO m.root i := by
    rw [mounted_ip, finished_dinodes rootFits]
  have type (i : Nat) : ((mounted m.finished).ip i).type = (m.view.ip i).type := by
    rw [ip, view_ip]
    by_cases same : i = ROOTINO
    · rw [same, update_self, Image.root]
    · rw [update_of_ne same]
  refine ⟨rfl, finished_kept rootFits progress.kept, fun b => finished_bit, progress.sound.low, progress.sound.high,
    fun i pos below => ?_, fun i outside => ?_, ?_, fun i file below => ?_, fun i pos below bn => ?_, fun i pos below => ?_⟩
  · rw [type, (progress.type i pos below).1]
  · rw [type, progress.free i outside]
  · rw [ip, update_self, Image.root, progress.rootSize]
  · rw [ip, update_of_ne (Nat.ne_of_gt file), ← view_ip, progress.size (Nat.zero_lt_of_lt file) below]
  · rw [finished_blockAt rootFits progress.kept, ← progress.blocks i pos below bn, progress.size pos below, index_lt_iff]
  · have bytes := progress.bytes i pos below
    rw [content, progress.size pos below] at bytes
    rw [← bytes, List.length_map, List.length_range]
    exact List.map_congr_left fun o _ => finished_byteAt rootFits progress.kept i o

/-! ## The end of mkfs -/

theorem wp_finish (progress : Progress (fun i => (texts files i).length) kinds (texts files) (files.length + 2) m) :
    wp (finish ROOTINO) (fun _ m' => m' = { m with sect := m.finished }) m := by
  have small : m.freeblock < BSIZE * 8 := Nat.lt_of_le_of_lt progress.sound.high (by decide)
  rw [finish, wp_bind, wp_rinode root_lt, wp_bind, wp_winode root_lt, wp_bind, wp_get, balloc, if_pos small, wp_wsect]
  rfl

theorem mount_main (fits : FitsImage files) : ends (main files) (Slashed files)
      (fun _ m => (∀ f ∈ files, 47 ∉ f.file) ∧ ∃ s first, mount m.sect = some s ∧ Built files first s) blank := by
  refine ends_main fits fun m plain progress => ?_
  refine (wp_finish progress).ends.mono fun _ m' isM => ?_
  have super : m.finished 1 = superblock := by
    rw [finished_sect (by decide) (by decide), progress.sound.super]
  rw [isM]
  exact ⟨plain, _, _, mount_eq super, progress.built fits⟩

theorem main_mounts (fits : FitsImage files) (plain : ∀ f ∈ files, 47 ∉ f.file) :
    ∃ m s first, (main files).run blank = .ok ((), m) ∧ mount m.sect = some s ∧ Built files first s := by
  obtain ⟨_, m, ran, -, s, first, mounts, built⟩ := ((mount_main fits).total fun e stopped => by
    obtain ⟨-, f, member, slash⟩ := stopped
    exact plain f member slash).run_eq
  exact ⟨m, s, first, ran, mounts, built⟩

/-! ## Holes -/

def Used (s : State) (b : Nat) : Prop := b < s.sb.dataStart ∨ ∃ x, s.blockAt x = b

def Packed (s : State) : Prop := ∃ first, ∀ b < BPB, (s.bit b = true ↔ b < first) ∧ (Used s b ↔ b < first)

variable {s : State} {first : Nat}

theorem Built.packed (built : Built files first s) : Packed s := by
  have dataStart : s.sb.dataStart = nmeta := by
    rw [built.sb]
    decide
  have size : s.sb.size = FSSIZE := by
    rw [built.sb]
    rfl
  refine ⟨first, fun b inside => ?_⟩
  have marks : s.bit b = true ↔ b < first := by rw [built.bit b inside, decide_eq_true_eq]
  refine ⟨marks, ?_⟩
  have start := built.low
  have stop := built.high
  rw [Used, dataStart]
  by_cases low : b < nmeta
  · exact ⟨fun _ => Nat.lt_of_lt_of_le low start, fun _ => .inl low⟩
  by_cases high : b < FSSIZE
  · rw [← marks, built.kept.owned.marked b (by omega) (by omega)]
    exact or_iff_right low
  · refine ⟨fun used => ?_, fun below => absurd (Nat.lt_of_lt_of_le below stop) high⟩
    obtain ⟨x, rfl⟩ := used.resolve_left low
    have full : s.blockAt x ≠ 0 := fun none => low (none ▸ (by decide : 0 < nmeta))
    exact absurd (size ▸ (built.kept.owned.range x full).2) high

theorem Built.whole_iff (built : Built files first s) : Whole s ↔ (files.length + 2) % 64 ≠ 0 := by
  have rootText : (texts files ROOTINO).length = (files.length + 2) * direntSize := by rw [texts_root, rootBytes_length]
  have isRoot : 0 < ROOTINO ∧ ROOTINO < files.length + 2 := by
    simp only [ROOTINO]
    omega
  have rootBlocks := built.blocks ROOTINO isRoot.1 isRoot.2
  rw [rootText] at rootBlocks
  constructor
  · intro whole full
    have allocated : (s.ip ROOTINO).type ≠ 0 := by
      rw [built.type ROOTINO isRoot.1 isRoot.2]
      decide
    have there := whole ROOTINO allocated ((files.length + 2) * direntSize / BSIZE) (by
      rw [built.root]
      simp only [BSIZE]
      omega)
    have below := (rootBlocks _).mpr there
    simp only [BSIZE, direntSize] at below
    omega
  · intro part i allocated bn below
    have inUse : 0 < i ∧ i < files.length + 2 := by
      by_contra outside
      exact allocated (built.free i (by omega))
    by_cases root : i = ROOTINO
    · subst root
      rw [built.root] at below
      refine (rootBlocks bn).mp ?_
      simp only [BSIZE, direntSize] at below ⊢
      omega
    · have file : ROOTINO < i := by
        simp only [ROOTINO] at root ⊢
        omega
      rw [built.size i file inUse.2] at below
      exact (built.blocks i inUse.1 inUse.2 bn).mp (index_lt_iff.mp below)

/-- For files that fit, mkfs ends unless a name has a slash, and the image has no hole and a bitmap of
the blocks in use iff the entries of the root directory do not fill its blocks to the last byte. -/
theorem image_whole (files : List Input) (fits : FitsImage files) :
    ((∀ f ∈ files, 47 ∉ f.file) → ∃ m, (main files).run blank = .ok ((), m)) ∧
    ∀ m, (main files).run blank = .ok ((), m) →
      ∃ s, mount m.sect = some s ∧ ((Whole s ∧ Packed s) ↔ (files.length + 2) % 64 ≠ 0) := by
  refine ⟨fun plain => ?_, fun m ran => ?_⟩
  · grind [main_mounts]
  · obtain ⟨-, s, first, mounts, built⟩ := (mount_main fits).of_run ran
    exact ⟨s, mounts, (and_iff_left built.packed).trans built.whole_iff⟩

def splitFile : Input := ⟨[97], [[1, 2], [3]], by decide, by decide⟩

theorem image_whole_one : ∃ m s, (main [splitFile]).run blank = .ok ((), m) ∧ mount m.sect = some s ∧ Whole s ∧ Packed s := by
  have image := image_whole [splitFile] ⟨by decide, by decide, by decide⟩
  obtain ⟨m, ran⟩ := image.1 (by decide)
  obtain ⟨s, mounts, good⟩ := image.2 m ran
  exact ⟨m, s, ran, mounts, good.mpr (by decide)⟩

/-- The 64 entries of 62 files fill a block, and the root directory is rounded up to two. -/
theorem image_whole_full_root : ∃ files m s, FitsImage files ∧ (main files).run blank = .ok ((), m) ∧
    mount m.sect = some s ∧ ¬ Whole s := by
  have fits : FitsImage (List.replicate 62 splitFile) := by
    refine ⟨by decide, fun f member => ?_, ?_⟩
    · rw [List.eq_of_mem_replicate member]
      decide
    · decide
  obtain ⟨m, s, first, ran, mounts, built⟩ := main_mounts fits fun f member => by
    rw [List.eq_of_mem_replicate member]
    decide
  refine ⟨_, m, s, fits, ran, mounts, fun whole => built.whole_iff.mp whole ?_⟩
  rw [List.length_replicate]

end

end Xv6.Mkfs
