import Xv6.Mkfs.Mount

namespace Xv6.Mkfs
open Lib Blocks
open Fs (T_DIR dot dotdot Name direntSize)

/-! ## Directory entries -/

def slots (files : List Input) : List (Nat × Name) :=
  (ROOTINO, dot) :: (ROOTINO, dotdot) :: files.mapIdx fun k f => (k + 2, f.shortname)

variable (files : List Input)

theorem rootBytes_slots : rootBytes files = ((slots files).map fun e => dirent e.1 e.2).flatten := by
  simp [rootBytes, slots, List.mapIdx_eq_zipIdx_map, Function.comp_def]

variable {k : Nat}

theorem drop_take_flatten {α : Type} {n : Nat} {lines : List (List α)} (each : ∀ l ∈ lines, l.length = n)
    {l : List α} (there : lines[k]? = some l) : (lines.flatten.drop (k * n)).take n = l := by
  induction lines generalizing k with
  | nil => cases there
  | cons first rest ih =>
    have length := each first List.mem_cons_self
    cases k with
    | zero => grind
    | succ k =>
      rw [Nat.succ_mul, Nat.add_comm, List.flatten_cons, ← List.drop_drop, ← length, List.drop_left, length]
      exact ih (fun l member => each l (List.mem_cons_of_mem _ member)) there

theorem shortname_terminated (f : Input) : 0 ∉ f.shortname := by
  have file : f.file.Sublist f.path := by grind [Input.file]
  have name : f.shortname.Sublist f.path := by
    rw [Input.shortname]
    split
    next => exact (List.drop_sublist ..).trans file
    next => exact file
  exact fun zero => f.terminated (name.subset zero)

section
variable {files : List Input} {first : Nat} {s : State} {e : Nat × Name} {name : Name}

theorem slots_file (k : Nat) : (slots files)[k + 2]? = (files[k]?).map fun f => (k + 2, f.shortname) := by
  simp [slots]

theorem slots_length : (slots files).length = files.length + 2 := by simp [slots]

theorem slots_valid (fits : FitsImage files) (member : e ∈ slots files) : e.1 ≠ 0 ∧ e.1 < 2 ^ 16 ∧ 0 ∉ e.2 := by
  rcases List.mem_cons.mp member with rfl | member
  · decide
  rcases List.mem_cons.mp member with rfl | member
  · decide
  obtain ⟨k, below, rfl⟩ := List.mem_mapIdx.mp member
  have few := fits.few
  simp only [NINODES] at few
  exact ⟨Nat.succ_ne_zero _, by dsimp only; omega, shortname_terminated _⟩

/-! ## Reading the image -/

theorem Built.allocated (built : Built files first s) {i : Nat} (pos : 0 < i) (below : i < files.length + 2) :
    (s.ip i).type ≠ 0 := by
  rw [built.type i pos below, kinds]
  split <;> decide

theorem Built.intact (built : Built files first s) (below : k < files.length) : Intact s (k + 2) where
  owned := built.kept.owned
  reserved := built.kept.reserved
  allocated := built.allocated (Nat.succ_pos _) (by omega)
  whole bn inside := by
    rw [built.size (k + 2) (by simp only [ROOTINO]; omega) (by omega)] at inside
    exact (built.blocks (k + 2) (Nat.succ_pos _) (by omega) bn).mp (index_lt_iff.mp inside)

theorem Built.content (built : Built files first s) {f : Input} (there : files[k]? = some f) :
    (s.ip (k + 2)).size = f.bytes.length ∧ content s (k + 2) = f.bytes := by
  have below := (List.getElem?_eq_some_iff.mp there).1
  have text : texts files (k + 2) = f.bytes := by rw [texts_file, there, Option.map_some, Option.getD_some]
  have size := built.size (k + 2) (by simp only [ROOTINO]; omega) (by omega)
  have bytes := built.bytes (k + 2) (Nat.succ_pos _) (by omega)
  rw [← size] at bytes
  rw [Blocks.content, bytes, size, text]
  exact ⟨rfl, rfl⟩

section

variable (fits : FitsImage files) (built : Built files first s)

include fits built

theorem Built.readSlot (there : (slots files)[k]? = some e) :
    k * direntSize < (s.ip ROOTINO).size ∧
      wp (readi ROOTINO (k * direntSize) direntSize) (fun de t => t = s ∧ de = dirent e.1 e.2) s := by
  have below := (List.getElem?_eq_some_iff.mp there).1
  rw [slots_length] at below
  have few := fits.few
  have isRoot : 0 < ROOTINO ∧ ROOTINO < files.length + 2 := by
    simp only [ROOTINO]
    omega
  have length : (texts files ROOTINO).length = (files.length + 2) * direntSize := by rw [texts_root, rootBytes_length]
  have entry : ((texts files ROOTINO).drop (k * direntSize)).take direntSize = dirent e.1 e.2 := by
    rw [texts_root, rootBytes_slots]
    refine drop_take_flatten (fun l member => ?_) (by rw [List.getElem?_map, there, Option.map_some])
    obtain ⟨e, -, rfl⟩ := List.mem_map.mp member
    exact dirent_length ..
  have inside : k * direntSize + direntSize ≤ (files.length + 2) * direntSize := by
    simp only [direntSize]
    omega
  have short : (files.length + 2) * direntSize ≤ (s.ip ROOTINO).size := by
    rw [built.root]
    simp only [BSIZE]
    omega
  have least : 0 < direntSize := by decide
  refine ⟨by omega, ?_⟩
  simp only [readi, wp_bind, wp_get]
  have fitsWord : ¬ (k * direntSize > (s.ip ROOTINO).size ∨ k * direntSize + direntSize ≥ 2 ^ 32) := by grind
  have left : min direntSize ((s.ip ROOTINO).size - k * direntSize) = direntSize := by omega
  rw [if_neg fitsWord, left]
  refine wp_of_ends ((ends_readiFrom built.kept (built.allocated isRoot.1 isRoot.2)
    (fun bn _ low => (built.blocks ROOTINO isRoot.1 isRoot.2 bn).mp low)
    (fun long => absurd (fits.each ROOTINO) (Nat.not_le.mpr long)) _ _ _ (length ▸ inside) (Nat.le_refl _)).mono ?_)
  rintro de t ⟨rfl, rfl⟩
  refine ⟨rfl, ?_⟩
  rw [← entry, ← built.bytes ROOTINO isRoot.1 isRoot.2, length]
  refine List.ext_getElem ?_ fun j _ _ => ?_
  · grind
  · simp

theorem Built.scanFrom {slot : Nat} (there : (slots files)[slot]? = some e) (same : e.2.take DIRSIZ = name)
    (before : ∀ k < slot, ∀ d, (slots files)[k]? = some d → d.2.take DIRSIZ ≠ name) (fuel k : Nat) (reached : k ≤ slot)
    (enough : slot < k + fuel) :
    wp (Blocks.scanFrom ROOTINO .dirlookupRead (fun de => direntInum de ≠ 0 ∧ direntName de = name) fuel (k * direntSize))
      (fun r t => t = s ∧ r = (some (dirent e.1 e.2), slot * direntSize)) s := by
  induction fuel generalizing k with
  | zero => omega
  | succ fuel ih =>
    have below := (List.getElem?_eq_some_iff.mp there).1
    have here : (slots files)[k]? = some (slots files)[k] := List.getElem?_eq_getElem _
    obtain ⟨inside, reads⟩ := built.readSlot fits here
    obtain ⟨used, small, terminated⟩ := slots_valid fits (List.mem_of_getElem? here)
    rw [Blocks.scanFrom, wp_bind, wp_get, if_pos inside]
    refine reads.bind ?_
    rintro de t ⟨rfl, rfl⟩
    rw [if_neg (not_not.mpr (dirent_length ..)), direntInum_dirent small, direntName_dirent _ terminated]
    by_cases target : k = slot
    · subst target
      obtain rfl : (slots files)[k] = e := Option.some.inj (here.symm.trans there)
      rw [if_pos (decide_eq_true ⟨used, same⟩)]
      exact (wp_pure ..).mpr ⟨rfl, rfl⟩
    · rw [if_neg fun found => before k (by omega) _ here (of_decide_eq_true found).2, ← Nat.succ_mul]
      exact ih (k + 1) (by omega) (by omega)

theorem Built.dirlookup {slot : Nat} (there : (slots files)[slot]? = some e) (same : e.2.take DIRSIZ = name)
    (before : ∀ k < slot, ∀ d, (slots files)[k]? = some d → d.2.take DIRSIZ ≠ name) :
    (Blocks.dirlookup ROOTINO name).run s = .ok (some (e.1, slot * direntSize), s) := by
  have isDir : (s.ip ROOTINO).type = T_DIR := built.type ROOTINO (by decide) (by simp only [ROOTINO]; omega)
  have inside := (built.readSlot fits there).1
  have scan := built.scanFrom fits there same before (s.ip ROOTINO).size 0 (Nat.zero_le _) (by
    simp only [direntSize] at inside
    omega)
  have all : wp (Blocks.dirlookup ROOTINO name) (fun found t => t = s ∧ found = some (e.1, slot * direntSize)) s := by
    rw [Blocks.dirlookup, wp_bind, wp_get, if_neg (not_not.mpr isDir)]
    refine scan.bind ?_
    rintro _ t ⟨rfl, rfl⟩
    obtain ⟨-, small, -⟩ := slots_valid fits (List.mem_of_getElem? there)
    exact (wp_pure ..).mpr ⟨rfl, by rw [Option.map_some, direntInum_dirent small]⟩
  obtain ⟨found, t, ran, rfl, rfl⟩ := all.run_eq
  exact ran

end

theorem take_ne_of_short {short : Name} (apart : name ≠ short) (less : short.length < DIRSIZ) : name.take DIRSIZ ≠ short := by
  intro same
  have length : (name.take DIRSIZ).length = short.length := by rw [same]
  rw [List.length_take] at length
  exact apart ((List.take_of_length_le (by omega)).symm.trans same)

theorem Built.finds (fits : FitsImage files) (built : Built files first s)
    (distinct : (files.map fun f => f.shortname.take DIRSIZ).Nodup) {f : Input} (there : files[k]? = some f)
    (notDot : f.shortname ≠ dot) (notDotdot : f.shortname ≠ dotdot) :
    (Blocks.dirlookup ROOTINO (f.shortname.take DIRSIZ)).run s = .ok (some (k + 2, (k + 2) * direntSize), s) := by
  refine built.dirlookup fits (e := (k + 2, f.shortname)) (by rw [slots_file, there, Option.map_some]) rfl
    fun j below d other => ?_
  match j with
  | 0 =>
    obtain rfl : (ROOTINO, dot) = d := Option.some.inj other
    exact (take_ne_of_short notDot (by decide)).symm
  | 1 =>
    obtain rfl : (ROOTINO, dotdot) = d := Option.some.inj other
    exact (take_ne_of_short notDotdot (by decide)).symm
  | j + 2 => grind [slots_file, List.pairwise_iff_getElem.mp]

end

/-- The kernel finds every file that mkfs put into the image, with its bytes, in blocks of its own. -/
theorem kernel_reads_image (files : List Input) (fits : FitsImage files)
    (distinct : (files.map fun f => f.shortname.take DIRSIZ).Nodup)
    (names : ∀ f ∈ files, 47 ∉ f.file ∧ f.shortname ≠ dot ∧ f.shortname ≠ dotdot) :
    ∃ m s, (main files).run blank = .ok ((), m) ∧ mount m.sect = some s ∧
      (∀ k f, files[k]? = some f →
        (dirlookup ROOTINO (f.shortname.take DIRSIZ)).run s = .ok (some (k + 2, (k + 2) * direntSize), s) ∧
        (s.ip (k + 2)).size = f.bytes.length ∧
        ∀ off n, off + n < 2 ^ 32 → (readi (k + 2) off n).run s = .ok ((f.bytes.drop off).take n, s)) ∧
      (∀ x y, s.blockAt x ≠ 0 → s.blockAt x = s.blockAt y → x = y) ∧
      ∀ x, s.blockAt x ≠ 0 → s.bit (s.blockAt x) = true := by
  obtain ⟨m, s, first, ran, mounts, built⟩ := main_mounts fits fun f member => (names f member).1
  refine ⟨m, s, ran, mounts, fun k f there => ?_, built.kept.owned.once, fun x => built.kept.owned.used_of_held⟩
  have name := (names f (List.mem_of_getElem? there)).2
  obtain ⟨size, bytes⟩ := built.content there
  refine ⟨built.finds fits distinct there name.1 name.2, size, fun off n word => ?_⟩
  rw [(built.intact (List.getElem?_eq_some_iff.mp there).1).readi, bytes]
  split
  next long =>
    rw [List.drop_eq_nil_of_le (by omega), List.take_nil]
  next => rfl

theorem kernel_reads_image_split : ∃ m s, (main [splitFile]).run blank = .ok ((), m) ∧ mount m.sect = some s ∧
    (dirlookup ROOTINO [97]).run s = .ok (some (2, 32), s) ∧ (readi 2 0 10).run s = .ok ([1, 2, 3], s) := by
  obtain ⟨m, s, ran, mounts, reads, -⟩ := kernel_reads_image [splitFile] ⟨by decide, by decide, by decide⟩ (by decide) (by decide)
  obtain ⟨found, -, bytes⟩ := reads 0 splitFile rfl
  exact ⟨m, s, ran, mounts, found, bytes 0 10 (by decide)⟩

/-- Mkfs stops at `a/b`, and under the name of `user/_.` the kernel finds the root directory. -/
theorem kernel_reads_image_names :
    (∃ files, FitsImage files ∧ (files.map fun f => f.shortname.take DIRSIZ).Nodup ∧ ∀ m, (main files).run blank ≠ .ok ((), m)) ∧
    ∃ files m s, FitsImage files ∧ (files.map fun f => f.shortname.take DIRSIZ).Nodup ∧
      (main files).run blank = .ok ((), m) ∧ mount m.sect = some s ∧
      ∃ f ∈ files, (dirlookup ROOTINO (f.shortname.take DIRSIZ)).run s = .ok (some (ROOTINO, 0), s) ∧
        (s.ip ROOTINO).size ≠ f.bytes.length := by
  constructor
  · have fits : FitsImage [⟨[97, 47, 98], [], by decide, by decide⟩] := ⟨by decide, by decide, by decide⟩
    refine ⟨_, fits, by decide, fun m ran => ?_⟩
    exact ((mount_main fits).of_run ran).1 _ List.mem_cons_self (by decide)
  · have fits : FitsImage [⟨[117, 115, 101, 114, 47, 95, 46], [], by decide, by decide⟩] := ⟨by decide, by decide, by decide⟩
    obtain ⟨m, s, first, ran, mounts, built⟩ := main_mounts fits (by decide)
    refine ⟨_, m, s, fits, by decide, ran, mounts, _, List.mem_cons_self, ?_, ?_⟩
    · have rootSlot : (slots [⟨[117, 115, 101, 114, 47, 95, 46], [], by decide, by decide⟩])[0]? = some (ROOTINO, dot) := rfl
      exact built.dirlookup fits rootSlot rfl fun k below => absurd below (Nat.not_lt_zero k)
    · rw [built.root]
      decide

end Xv6.Mkfs
