import Xv6.Mkfs.Build
import Xv6.Fs.Names

namespace Xv6.Mkfs
open Lib Blocks Function
open Fs (T_DIR T_FILE dot dotdot Name direntSize)

/-! ## What mkfs puts into the image -/

def rootBytes (files : List Input) : List UInt8 :=
  dirent ROOTINO dot ++ dirent ROOTINO dotdot ++ (files.mapIdx fun k f => dirent (k + 2) f.shortname).flatten

def texts (files : List Input) (i : Nat) : List UInt8 :=
  if i = ROOTINO then rootBytes files else ((files[i - 2]?).map Input.bytes).getD []

def kinds (i : Nat) : Int := if i = ROOTINO then T_DIR else T_FILE

structure FitsImage (files : List Input) : Prop where
  few : files.length ≤ NINODES - 2
  small : ∀ f ∈ files, f.bytes.length ≤ MAXFILE * BSIZE
  blocks : nmeta + blocksFor ((files.length + 2) * direntSize) + (files.map fun f => blocksFor f.bytes.length).sum ≤ FSSIZE

theorem rootBytes_concat (files : List Input) (f : Input) :
    rootBytes (files ++ [f]) = rootBytes files ++ dirent (files.length + 2) f.shortname := by simp [rootBytes]

theorem rootBytes_length (files : List Input) : (rootBytes files).length = (files.length + 2) * direntSize := by
  induction files using List.reverseRecOn with
  | nil => simp [rootBytes, dirent_length, Nat.two_mul]
  | append_singleton files f ih =>
    rw [rootBytes_concat, List.length_append, ih, dirent_length, List.length_append, List.length_singleton]
    simp only [direntSize]
    omega

theorem texts_root (files : List Input) : texts files ROOTINO = rootBytes files := if_pos rfl

theorem texts_file (files : List Input) (k : Nat) : texts files (k + 2) = ((files[k]?).map Input.bytes).getD [] := by
  rw [texts, if_neg (by simp only [ROOTINO]; omega), Nat.add_sub_cancel]

section
variable {files done rest : List Input} {f : Input} {m : Image}

theorem FitsImage.each (fits : FitsImage files) (i : Nat) : (texts files i).length ≤ MAXFILE * BSIZE := by
  rw [texts]
  split
  next =>
    have few := fits.few
    rw [rootBytes_length]
    simp only [NINODES, direntSize, MAXFILE, NDIRECT, NINDIRECT, BSIZE] at few ⊢
    omega
  next =>
    cases found : files[i - 2]? with
    | none => exact Nat.zero_le _
    | some f => exact fits.small f (List.mem_of_getElem? found)

theorem sum_texts (files : List Input) : ∑ i ∈ Finset.Ico 2 (files.length + 2), blocksFor (texts files i).length =
    (files.map fun f => blocksFor f.bytes.length).sum := by
  induction files using List.reverseRecOn with
  | nil => rfl
  | append_singleton files f ih =>
    rw [List.length_append, List.length_singleton, Nat.add_right_comm, Finset.sum_Ico_succ_top (by omega), List.map_append,
      List.sum_append, ← ih]
    congr 1
    · refine Finset.sum_congr rfl fun i member => ?_
      obtain ⟨low, high⟩ := Finset.mem_Ico.mp member
      obtain ⟨k, rfl⟩ : ∃ k, i = k + 2 := ⟨i - 2, by omega⟩
      rw [texts_file, texts_file, List.getElem?_append_left (by omega)]
    · rw [texts_file]
      simp

theorem FitsImage.total (fits : FitsImage files) :
    ∑ i ∈ Finset.Ico 1 (files.length + 2), blocksFor (texts files i).length ≤ nblocks := by
  have sums : ∑ i ∈ Finset.Ico 1 (files.length + 2), blocksFor (texts files i).length =
      blocksFor ((files.length + 2) * direntSize) + (files.map fun f => blocksFor f.bytes.length).sum := by
    rw [Finset.sum_eq_sum_Ico_succ_bot (by omega), texts_root, rootBytes_length]
    exact congrArg _ (sum_texts files)
  have blocks := fits.blocks
  have layout : FSSIZE = nmeta + nblocks := by decide
  omega

/-! ## Adding a file -/

theorem texts_append (split : done ++ rest = files) {k : Nat} (below : k < done.length) :
    texts files (k + 2) = texts done (k + 2) := by
  rw [texts_file, texts_file, ← split, List.getElem?_append_left below]

theorem texts_next (split : done ++ f :: rest = files) : texts files (done.length + 2) = f.bytes := by
  rw [texts_file, ← split, List.getElem?_append_right (Nat.le_refl _), Nat.sub_self]
  rfl

theorem Progress.pieces {limit : Nat → Nat} {kind : Nat → Int} {text : Nat → List UInt8} {i n N : Nat}
    (progress : Progress limit kind (update text i []) n m) (pos : 0 < i) (below : i < n) (few : n ≤ N) (small : N ≤ NINODES)
    (each : ∀ j, limit j ≤ MAXFILE * BSIZE) (total : ∑ j ∈ Finset.Ico 1 N, blocksFor (limit j) ≤ nblocks)
    (pieces : List (List UInt8)) (short : pieces.flatten.length ≤ limit i) :
    wp (pieces.forM (Mkfs.iappend i)) (fun _ m' => Progress limit kind (update text i pieces.flatten) n m') m := by
  have body (p : List UInt8) (rest : List (List UInt8)) (m : Image)
      (start : ∃ done, done ++ p :: rest = pieces ∧ Progress limit kind (update text i done.flatten) n m) :
      wp (Mkfs.iappend i p) (fun _ m' => ∃ done, done ++ rest = pieces ∧
        Progress limit kind (update text i done.flatten) n m') m := by
    obtain ⟨done, rfl, progress⟩ := start
    have fits : (update text i done.flatten i ++ p).length ≤ limit i := by grind
    refine (progress.iappend pos below few small each total p fits).mono fun _ m' after => ?_
    refine ⟨done ++ [p], by simp, ?_⟩
    rwa [update_idem, update_self, ← List.flatten_concat] at after
  refine (wp_forM (I := fun rest m => ∃ done, done ++ rest = pieces ∧
    Progress limit kind (update text i done.flatten) n m) body ⟨[], rfl, progress⟩).mono fun _ m' after => ?_
  obtain ⟨done, rfl, progress⟩ := after
  rwa [List.append_nil]

def Slashed (files : List Input) (e : Fault) : Prop := e = .slash ∧ ∃ f ∈ files, 47 ∈ f.file

theorem Progress.addFile (fits : FitsImage files) (split : done ++ f :: rest = files)
    (progress : Progress (fun i => (texts files i).length) kinds (texts done) (done.length + 2) m) :
    ends (addFile ROOTINO f) (Slashed files) (fun _ m' => 47 ∉ f.file ∧
      Progress (fun i => (texts files i).length) kinds (texts (done ++ [f])) (done.length + 3) m') m := by
  have lengths : done.length + (rest.length + 1) = files.length := by
    rw [← split, List.length_append, List.length_cons]
  have few := fits.few
  have inside : done.length + 2 < NINODES := by omega
  rw [Mkfs.addFile]
  split
  next slash => exact (ends_throw ..).mpr ⟨rfl, f, split ▸ List.mem_append_right _ List.mem_cons_self, slash⟩
  next plain =>
    refine wp.ends ?_
    have small : files.length + 2 ≤ NINODES := by omega
    rw [wp_bind, wp_ialloc (by rwa [progress.next]), progress.next, wp_bind]
    have start := progress.addInode (Nat.succ_pos _) inside (t := T_FILE) (by decide)
    have rootText : update (texts done) (done.length + 2) [] ROOTINO = rootBytes done := by
      rw [update_of_ne (by simp only [ROOTINO]; omega), texts_root]
    refine (start.iappend (i := ROOTINO) (N := files.length + 2) (by decide) (by simp only [ROOTINO]; omega)
      (by omega) small fits.each
      fits.total _ ?_).mono fun _ m₁ one => ?_
    · rw [rootText, ← rootBytes_concat, rootBytes_length, texts_root, rootBytes_length, List.length_append, List.length_singleton]
      exact Nat.mul_le_mul_right _ (by omega)
    · rw [rootText, update_comm (by simp only [ROOTINO]; omega)] at one
      have last := texts_next split
      refine (one.pieces (N := files.length + 2) (Nat.succ_pos _) (Nat.lt_succ_self _)
        (by omega) small fits.each fits.total f.pieces
        (by rw [last, Input.bytes])).mono fun _ m₂ two => ?_
      refine ⟨plain, two.congr (fun i pos below => ?_) fun i pos below => ?_⟩
      · by_cases new : i = done.length + 2
        · rw [new, update_self, kinds, if_neg (by simp only [ROOTINO]; omega)]
        · rw [update_of_ne new]
      · by_cases new : i = done.length + 2
        · grind [texts_next, Input.bytes]
        rw [update_of_ne new]
        by_cases root : i = ROOTINO
        · rw [root, update_self, texts_root, rootBytes_concat]
        · obtain ⟨k, rfl⟩ : ∃ k, i = k + 2 := ⟨i - 2, by simp only [ROOTINO] at root; omega⟩
          rw [update_of_ne root, texts_append rfl (by omega)]

/-! ## The run of mkfs -/

def Image.start : Image := ⟨update (fun _ _ => 0) 1 superblock, 1, nmeta⟩

theorem getDinode_zero (slot : Nat) : getDinode (fun _ => 0) slot = freeDinode := by
  simp only [getDinode, word_zero, freeDinode, ite_self]
  rfl

theorem start_ip (i : Nat) : Image.start.view.ip i = freeDinode := by
  change dinodes (update (fun _ _ => 0) 1 superblock) i = freeDinode
  rw [dinodes]
  split
  next =>
    exact getDinode_zero _
  next => rfl

theorem start_blockAt (x : Place) : Image.start.view.blockAt x = 0 := by
  have free (i : Nat) : (Image.start.view.ip i).type = 0 := by rw [start_ip, freeDinode]
  cases x <;> simp [State.blockAt, free]

theorem start_kept : Kept Image.start.view where
  owned := {
    range := fun x full => absurd (start_blockAt x) full
    once := fun x _ full => absurd (start_blockAt x) full
    marked := by
      intro b low high
      have bit : Image.start.view.bit b = decide (b < nmeta) := rfl
      rw [bit, decide_eq_true_eq]
      refine ⟨fun used => absurd used (Nat.not_lt.mpr low), fun ⟨x, holds⟩ => ?_⟩
      rw [start_blockAt] at holds
      exact absurd (holds ▸ low) (by decide) }
  reserved b below := by
    exact decide_eq_true below

theorem Progress.start (limit : Nat → Nat) (kind : Nat → Int) (text : Nat → List UInt8) :
    Progress limit kind text 1 Image.start where
  sound := {
    low := Nat.le_refl _
    high := by decide
    zero := by
      intro b high
      have apart : b ≠ 1 := Nat.ne_of_gt (Nat.lt_of_lt_of_le (by decide : 1 < nmeta) high)
      exact update_of_ne apart superblock fun _ _ => 0
    super := by simp only [Image.start, update_self] }
  next := rfl
  kept := start_kept
  type i pos below := absurd below (Nat.not_lt.mpr pos)
  blocks i pos below := absurd below (Nat.not_lt.mpr pos)
  bytes i pos below := absurd below (Nat.not_lt.mpr pos)
  free i _ := by rw [start_ip, freeDinode]
  within i pos below := absurd below (Nat.not_lt.mpr pos)
  budget := by
    rw [view_free, Finset.Ico_self, Finset.sum_empty]
    exact Nat.le_refl _

def Image.cleared : Image := ⟨fun _ _ => 0, 1, nmeta⟩

theorem wp_clear (n : Nat) : wp (clear n) (fun _ m => m = Image.cleared) Image.cleared := by
  refine wp_forM (I := fun _ m => m = Image.cleared) (fun i rest m same => ?_) rfl
  have zero : update (fun _ _ => 0 : Nat → Bytes) i (fun _ => 0) = fun _ _ => 0 :=
    update_eq_self i fun _ _ => 0
  rw [same, wp_wsect]
  exact congrArg (Image.mk · 1 nmeta) zero

theorem ends_main (fits : FitsImage files) {Q : Unit → Image → Prop}
    (last : ∀ m, (∀ f ∈ files, 47 ∉ f.file) → Progress (fun i => (texts files i).length) kinds (texts files) (files.length + 2) m →
      ends (finish ROOTINO) (Slashed files) Q m) : ends (main files) (Slashed files) Q blank := by
  have few := fits.few
  have small : files.length + 2 ≤ NINODES := by
    simp only [NINODES] at few ⊢
    omega
  rw [main, ends_bind, ends_modify, ends_bind]
  refine (wp_clear FSSIZE).ends.mono fun _ m isM => ?_
  rw [isM, ends_bind]
  refine wp.ends ((wp_wsect ..).mpr ?_)
  change ends _ _ _ Image.start
  rw [ends_bind]
  refine wp.ends ((wp_ialloc (by decide) T_DIR).mpr ?_)
  have isRoot : Image.start.freeinode = ROOTINO := rfl
  rw [if_pos isRoot, isRoot, ends_bind]
  have zero := (Progress.start (fun i => (texts files i).length) kinds (texts files)).addInode (by decide) (by decide) (t := T_DIR)
    (by decide)
  have short : 2 * direntSize ≤ (texts files ROOTINO).length := by
    rw [texts_root, rootBytes_length]
    exact Nat.mul_le_mul_right _ (Nat.le_add_left ..)
  refine (zero.iappend (i := ROOTINO) (N := files.length + 2) (by decide) (by decide) (by omega) small fits.each fits.total
    _ ?_).ends.mono fun _ m₁ one => ?_
  · rw [update_self, List.nil_append, dirent_length]
    omega
  rw [ends_bind]
  refine (one.iappend (i := ROOTINO) (N := files.length + 2) (by decide) (by decide) (by omega) small fits.each fits.total
    _ ?_).ends.mono fun _ m₂ two => ?_
  · grind [dirent_length]
  have begun : Progress (fun i => (texts files i).length) kinds (texts []) 2 m₂ := by
    refine two.congr (fun i pos below => ?_) fun i pos below => ?_
    · obtain rfl : i = ROOTINO := by
        simp only [ROOTINO]
        omega
      rw [update_self, kinds, if_pos rfl]
    · obtain rfl : i = ROOTINO := by
        simp only [ROOTINO]
        omega
      rw [update_self, texts_root, rootBytes]
      simp
  rw [ends_bind]
  have body (f : Input) (rest : List Input) (m : Image)
      (start : ∃ done, done ++ f :: rest = files ∧ (∀ f ∈ done, 47 ∉ f.file) ∧
        Progress (fun i => (texts files i).length) kinds (texts done) (done.length + 2) m) :
      ends (addFile ROOTINO f) (Slashed files) (fun _ m' => ∃ done, done ++ rest = files ∧ (∀ f ∈ done, 47 ∉ f.file) ∧
        Progress (fun i => (texts files i).length) kinds (texts done) (done.length + 2) m') m := by
    obtain ⟨done, split, plain, progress⟩ := start
    refine (progress.addFile fits split).mono fun _ m' after => ⟨done ++ [f], by simpa using split, fun g member => ?_, ?_⟩
    · grind
    · grind
  refine (ends_forM (I := fun rest m => ∃ done, done ++ rest = files ∧ (∀ f ∈ done, 47 ∉ f.file) ∧
    Progress (fun i => (texts files i).length) kinds (texts done) (done.length + 2) m) body ⟨[], rfl, nofun, begun⟩).mono ?_
  rintro _ m ⟨done, same, plain, progress⟩
  obtain rfl : done = files := by simpa using same
  exact last m plain progress

end

end Xv6.Mkfs
