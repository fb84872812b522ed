import Xv6.Fs.LoggedWrites
import Xv6.File.SharedWrite

namespace Xv6.Blocks
open Lib Fs

/-! ## The blocks an operation logs

The superblock's `inodestart` and `bmapstart` say which blocks hold the dinodes and the bitmap. -/

abbrev IPB : Nat := 16
abbrev BPB : Nat := BSIZE * 8

structure Starts where
  inodestart : Nat
  bmapstart : Nat

def Starts.iblock (sb : Starts) (i : Nat) : Nat := i / IPB + sb.inodestart

def Starts.bblock (sb : Starts) (b : Nat) : Nat := b / BPB + sb.bmapstart

structure Transaction where
  fs : State
  written : Finset Nat

namespace Reserved

def logWrite (b : Nat) (c : Transaction) : Transaction := { c with written := insert b c.written }

def recorder (sb : Starts) : Recorder Transaction where
  fs := Transaction.fs
  setFs t c := { c with fs := t }
  block := logWrite
  bitmap b := logWrite (sb.bblock b)
  inode i := logWrite (sb.iblock i)
  fs_setFs _ _ := rfl
  fs_block _ _ := rfl
  fs_bitmap _ _ := rfl
  fs_inode _ _ := rfl

theorem recorder_fs (sb : Starts) (c : Transaction) : (recorder sb).fs c = c.fs := rfl

def writei (sb : Starts) : (i : Nat) → Source → (off n : Nat) → Comp Transaction Panic (Option Nat) := (recorder sb).writei

/-! ## Counting them

The indirect block and the bitmap block of its allocation are paid for when the inode has an
indirect block. Besides them a new block costs itself and its bitmap block, an old one only itself. -/

/-- At most `k` blocks are logged besides those for the indirect block of inode `i`; block 0, the
boot block, is not free. -/
structure Within (i k : Nat) (c : Transaction) : Prop where
  boot : c.fs.bit 0 = true
  few : if (c.fs.ip i).addrs NDIRECT = 0 then c.written.card ≤ k
    else (insert ((c.fs.ip i).addrs NDIRECT) c.written).card ≤ k + 2

section
variable {sb : Starts} {s : State} {c d : Transaction} {i k n : Nat} {src : Source}

section

variable (within : Within i k c)

include within

theorem Within.card_le : c.written.card ≤ k + 2 := by
  have few := within.few
  split at few
  next => omega
  next => exact (Finset.card_le_card (Finset.subset_insert _ _)).trans few

theorem Within.mono (more : k ≤ n) : Within i n c := by
  refine ⟨within.boot, ?_⟩
  have few := within.few
  split at few
  next none =>
    rw [if_pos none]
    exact few.trans more
  next there =>
    rw [if_neg there]
    omega

theorem Within.log (new : Finset Nat) (boot : d.fs.bit 0 = true)
    (table : (d.fs.ip i).addrs NDIRECT = (c.fs.ip i).addrs NDIRECT) (more : d.written ⊆ new ∪ c.written)
    (bound : new.card ≤ n) : Within i (k + n) d := by
  have step (old : Finset Nat) : (new ∪ old).card ≤ n + old.card :=
    (Finset.card_union_le _ _).trans (Nat.add_le_add_right bound _)
  have few := within.few
  refine ⟨boot, ?_⟩
  rw [table]
  split at few
  next none =>
    rw [if_pos none]
    have := (Finset.card_le_card more).trans (step c.written)
    omega
  next there =>
    rw [if_neg there]
    have covered : insert ((c.fs.ip i).addrs NDIRECT) d.written ⊆ new ∪ insert ((c.fs.ip i).addrs NDIRECT) c.written := by
      rw [Finset.union_insert]
      exact Finset.insert_subset_insert _ more
    have := (Finset.card_le_card covered).trans (step _)
    omega

theorem Within.one (b : Nat) : Within i (k + 1) { c with written := insert b c.written } :=
  within.log {b} within.boot rfl (Finset.insert_eq _ _).subset (Finset.card_singleton b).le

theorem Within.logTable (there : (c.fs.ip i).addrs NDIRECT ≠ 0) (boot : d.fs.bit 0 = true)
    (table : (d.fs.ip i).addrs NDIRECT = (c.fs.ip i).addrs NDIRECT)
    (more : d.written = insert ((c.fs.ip i).addrs NDIRECT) c.written) : Within i k d := by
  have few := within.few
  refine ⟨boot, ?_⟩
  rw [if_neg there] at few
  rwa [table, if_neg there, more, Finset.insert_idem]

theorem Within.takeTable {b : Nat} (none : (c.fs.ip i).addrs NDIRECT = 0) (some : b ≠ 0)
    (boot : d.fs.bit 0 = true) (table : (d.fs.ip i).addrs NDIRECT = b)
    (more : d.written = insert b (insert (sb.bblock b) c.written)) : Within i k d := by
  have few := within.few
  rw [if_pos none] at few
  refine ⟨boot, ?_⟩
  rw [table, if_neg some, more, Finset.insert_idem]
  have one := Finset.card_insert_le (sb.bblock b) c.written
  have two := Finset.card_insert_le b (insert (sb.bblock b) c.written)
  omega

end

/-! ## The functions -/

theorem ends_balloc (boot : c.fs.bit 0 = true) : ends (recorder sb).balloc (· = .outOfBlocks)
      (fun b d => b ≠ 0 ∧ d.fs.bit 0 = true ∧ d.fs.ip = c.fs.ip ∧ d.written = insert b (insert (sb.bblock b) c.written)) c := by
  rw [Recorder.balloc, ends_bind, Recorder.onFs, ends_zoom, Blocks.balloc, ends_bind, ends_get, recorder_fs]
  cases found : (List.range c.fs.sb.size).find? (fun b => !c.fs.bit b) with
  | none => exact (ends_throw ..).mpr rfl
  | some b =>
    have taken : b ≠ 0 := by grind
    simp only [recorder, logWrite, ends_bind, ends_modify, ends_pure]
    refine ⟨taken, ?_, rfl, trivial⟩
    rw [← boot]
    exact Function.update_of_ne taken.symm ..

theorem ends_bmapDirect {bn : Nat} (direct : bn < NDIRECT) (within : Within i k c) :
    ends ((recorder sb).bmapAddr i bn) (· = .outOfBlocks)
      (fun b d => Within i (k + if (c.fs.ip i).addrs bn = 0 then 2 else 1) { d with written := insert b d.written }) c := by
  rw [Recorder.bmapAddr, ends_bind, Recorder.onFs, ends_zoom, ends_get, recorder_fs]
  split
  next =>
    refine (ends_balloc within.boot).bind fun b d after => ?_
    obtain ⟨-, boot, ip, written⟩ := after
    simp only [Recorder.onFs, recorder, ends_bind, ends_zoom, ends_modify, ends_pure]
    refine within.log {b, sb.bblock b} boot ?_ ?_ Finset.card_le_two
    · rw [← ip]
      simp [State.setAddr, State.setIp, State.ip, direct.ne']
    · grind
  next => exact (ends_pure ..).mpr (within.one _)

theorem ends_bmapTable (within : Within i k c) : ends ((recorder sb).bmapAddr i NDIRECT) (· = .outOfBlocks)
      (fun b d => Within i k d ∧ b ≠ 0 ∧ (d.fs.ip i).addrs NDIRECT = b ∧ ((c.fs.ip i).addrs NDIRECT ≠ 0 → d = c)) c := by
  rw [Recorder.bmapAddr, ends_bind, Recorder.onFs, ends_zoom, ends_get, recorder_fs]
  split
  next none =>
    refine (ends_balloc within.boot).bind fun b d after => ?_
    obtain ⟨some, boot, ip, written⟩ := after
    simp only [Recorder.onFs, recorder, ends_bind, ends_zoom, ends_modify, ends_pure]
    have table : ((d.fs.setAddr i NDIRECT b).ip i).addrs NDIRECT = b := by
      simp [State.setAddr, State.setIp, State.ip]
    exact ⟨within.takeTable none some boot table written, some, table, absurd none⟩
  next there => exact (ends_pure ..).mpr ⟨within, there, rfl, fun _ => rfl⟩

theorem ends_bmap {bn a : Nat} (inside : bn < MAXFILE) (within : Within i k c)
    (charge : a = 2 ∨ a = 1 ∧ c.fs.blockAt (place i bn) ≠ 0) :
    ends ((recorder sb).bmap i bn) (· = .outOfBlocks) (fun b d =>
    Within i (k + a) { d with written := insert b d.written }) c := by
  rw [Recorder.bmap]
  split
  next direct =>
    refine (ends_bmapDirect direct within).mono fun b d after => after.mono ?_
    split
    next none =>
      rcases charge with rfl | ⟨-, full⟩
      · exact Nat.le_refl _
      · simp [place, direct, State.blockAt, none] at full
    next => omega
  next high =>
    have slot : bn - NDIRECT < NINDIRECT := by
      have : MAXFILE = NDIRECT + NINDIRECT := rfl
      omega
    rw [if_pos slot]
    refine (ends_bmapTable within).bind fun table d after => ?_
    obtain ⟨within, some, rfl, same⟩ := after
    rw [ends_bind, Recorder.onFs, ends_zoom, ends_get]
    split
    next none =>
      have two : a = 2 := by
        rcases charge with two | ⟨-, full⟩
        · exact two
        · simp only [place, if_neg high, State.blockAt] at full
          obtain ⟨there, full⟩ := ite_ne_right_iff.mp full
          obtain rfl := same there.2.2
          exact absurd none full
      subst two
      refine (ends_balloc within.boot).bind fun b e after => ?_
      obtain ⟨-, boot, ip, written⟩ := after
      simp only [Recorder.onFs, recorder, logWrite, ends_bind, ends_zoom, ends_modify, ends_pure]
      -- the indirect block is charged to the inode, the new block and its bitmap block to the two
      have paid : Within i k { d with written := insert ((d.fs.ip i).addrs NDIRECT) d.written } :=
        within.logTable some within.boot rfl rfl
      refine paid.log {b, sb.bblock b} boot (congrArg (fun ip => (ip i).addrs NDIRECT) ip) ?_ Finset.card_le_two
      rw [written]
      intro x logged
      simp only [Finset.mem_insert, Finset.mem_union, Finset.mem_singleton] at logged ⊢
      tauto
    next =>
      have one : 1 ≤ a := by omega
      exact (ends_pure ..).mpr ((within.one _).mono (Nat.add_le_add_left one k))

def span (off left : Nat) : Nat := (off % BSIZE + left + BSIZE - 1) / BSIZE

theorem writeiFrom_done (fuel tot off : Nat) : (recorder sb).writeiFrom i src fuel tot off 0 = pure (tot, off) := by
  cases fuel with
  | zero => rfl
  | succ fuel => rw [Recorder.writeiFrom, if_pos rfl]

theorem ends_writeiFrom {a : Nat} (fuel tot off left : Nat) (inside : off + left ≤ MAXFILE * BSIZE) (within : Within i k c)
    (charge : a = 2 ∨ a = 1 ∧ c.fs.blockAt (place i (off / BSIZE)) ≠ 0) :
    ends ((recorder sb).writeiFrom i src fuel tot off left) (· = .outOfBlocks)
      (fun _ d => Within i (k + a + 2 * (span off left - 1)) d) c := by
  -- only the first block may be known to be there; the others count as new
  induction fuel generalizing c k a tot off left with
  | zero => exact (ends_pure ..).mpr (within.mono (by omega))
  | succ fuel ih =>
    rw [Recorder.writeiFrom]
    split
    next => exact (ends_pure ..).mpr (within.mono (by omega))
    next more =>
      have small : off / BSIZE < MAXFILE := by grind
      refine (ends_bmap small within charge).bind fun b d logged => ?_
      simp only [Recorder.onFs, ends_bind, ends_zoom, ends_modify]
      split
      next =>
        rw [ends_bind, ends_modify]
        have next : Within i (k + a)
            { fs := d.fs.setData b (setBytes (d.fs.data b) (off % BSIZE) ((src tot (min left (BSIZE - off % BSIZE))).1.take
                (min left (BSIZE - off % BSIZE)))), written := insert b d.written } :=
          ⟨logged.boot, logged.few⟩
        by_cases last : left ≤ BSIZE - off % BSIZE
        · rw [Nat.min_eq_left last, Nat.sub_self, writeiFrom_done, ends_pure]
          rw [Nat.min_eq_left last] at next
          exact next.mono (Nat.le_add_right _ _)
        · refine (ih _ _ _ ?_ next (.inl rfl)).mono fun _ _ after => after.mono ?_
          · omega
          · simp only [span, BSIZE] at *
            omega
      next =>
        have kept : Within i (k + a + 0) d := logged.log ∅ logged.boot rfl (by simp) (Nat.le_refl 0)
        exact (ends_pure ..).mpr ⟨kept.boot, (kept.mono (Nat.le_add_right (k + a) _)).few⟩

theorem chunk_charge (whole : NoHole s i) {off n : Nat} (chunk : n ≤ 3 * BSIZE) (low : off ≤ (s.ip i).size)
    (inside : off + n ≤ MAXFILE * BSIZE) :
    ∃ a, (a = 2 ∨ a = 1 ∧ s.blockAt (place i (off / BSIZE)) ≠ 0) ∧ a + 2 * (span off n - 1) ≤ 7 := by
  by_cases aligned : off % BSIZE = 0
  · refine ⟨2, .inl rfl, ?_⟩
    simp only [span, aligned, BSIZE] at *
    omega
  · have start : off / BSIZE * BSIZE < off := by
      simp only [BSIZE] at *
      omega
    have small : off / BSIZE < MAXFILE := by grind
    refine ⟨1, .inr ⟨rfl, whole _ small (start.trans_le low)⟩, ?_⟩
    simp only [span, BSIZE] at *
    omega

theorem ends_writei (sb : Starts) (src : Source) (boot : s.bit 0 = true) (whole : NoHole s i) (off : Nat)
    (chunk : n ≤ 3 * BSIZE) :
    ends (writei sb i src off n) (· = .outOfBlocks) (fun _ d => d.written.card ≤ MAXOPBLOCKS) ⟨s, ∅⟩ := by
  rw [writei, Recorder.writei, ends_bind, Recorder.onFs, ends_zoom, ends_get]
  split
  next => exact (ends_pure ..).mpr (Nat.zero_le _)
  next low =>
    split
    next => exact (ends_pure ..).mpr (Nat.zero_le _)
    next inside =>
      have start : Within i 0 ⟨s, ∅⟩ := by
        refine ⟨boot, ?_⟩
        split <;> simp
      obtain ⟨a, charge, seven⟩ := chunk_charge whole chunk (Nat.le_of_not_gt fun high => low (.inl high))
        (Nat.le_of_not_gt inside)
      refine (ends_writeiFrom n 0 off n (Nat.le_of_not_gt inside) start charge).bind fun done d few => ?_
      simp only [Recorder.iupdate, Blocks.iupdate, Recorder.onFs, recorder, logWrite, ends_bind, ends_zoom, ends_modify, ends_pure]
      have nine := few.card_le
      have ten := Finset.card_insert_le (sb.iblock i) d.written
      simp only [MAXOPBLOCKS]
      omega

end

end Reserved

theorem chunk_fits_reservation (sb : Starts) (s : State) (i : Nat) (src : Source) (off n1 : Nat) (boot : s.bit 0 = true)
    (whole : NoHole s i) (chunk : n1 ≤ File.maxChunk) :
    (∀ r d, (Reserved.writei sb i src off n1).run ⟨s, ∅⟩ = .ok (r, d) →
      (writei i src off n1).run s = .ok (r, d.fs) ∧ d.written.card ≤ MAXOPBLOCKS) ∧
    ∀ e, (Reserved.writei sb i src off n1).run ⟨s, ∅⟩ = .error e → e = .outOfBlocks := by
  have same := (@Recorder.projects_writei _ (Reserved.recorder sb) i src off n1).run_part ⟨s, ∅⟩
  have few := Reserved.ends_writei sb src boot whole off chunk
  constructor
  · intro r d ran
    exact ⟨same.of_run ran, few.of_run ran⟩
  · intro e ran
    exact few.of_stop ran

/-- The file ends with the first byte of its last direct block; its blocks begin the data area. -/
def edge (sb : Superblock) (bit : Nat → Bool) : State where
  sb := sb
  dinode
    | 1 => ⟨T_FILE, 0, 0, 1, 11 * BSIZE + 1, fun k => if k < NDIRECT then sb.dataStart + k else 0⟩
    | _ => ⟨0, 0, 0, 0, 0, fun _ => 0⟩
  core _ := none
  bit := bit
  data _ _ := 0

theorem edge_whole (sb : Superblock) (bit : Nat → Bool) : NoHole (edge sb bit) 1 := by
  intro bn _ below
  have size : ((edge sb bit).ip 1).size = 11265 := rfl
  have direct : bn < NDIRECT := by
    rw [size, BSIZE] at below
    rw [NDIRECT]
    omega
  have start := sb.dataStart_pos
  have addr : ((edge sb bit).ip 1).addrs bn = sb.dataStart + bn := if_pos direct
  have typed : ((edge sb bit).ip 1).type ≠ 0 := by
    change T_FILE ≠ 0
    decide
  rw [place, if_pos direct, State.blockAt_addr typed direct.le, addr]
  omega

def sevens : Source := fun _ m => (List.replicate m 7, true)

theorem chunk_fits_reservation_edge :
    ∃ s r d, s.bit 0 = true ∧ NoHole s 1 ∧
      (Reserved.writei ⟨32, 45⟩ 1 sevens (s.ip 1).size File.maxChunk).run ⟨s, ∅⟩ = .ok (r, d) ∧
      (writei 1 sevens (s.ip 1).size File.maxChunk).run s = .ok (r, d.fs) ∧ d.written.card ≤ MAXOPBLOCKS := by
  obtain ⟨⟨r, d⟩, ran, -⟩ := exists_some (P := fun _ => True) (o := ((Reserved.writei ⟨32, 45⟩ 1 sevens (11 * BSIZE + 1)
    File.maxChunk).run ⟨edge ⟨2000, 1954, 200, by decide, by decide⟩ (· < 58), ∅⟩).toOption) (by decide +kernel)
  have ran := toOption_eq_some.mp ran
  exact ⟨_, r, d, rfl, edge_whole _ _, ran,
    (chunk_fits_reservation ⟨32, 45⟩ _ 1 sevens _ File.maxChunk rfl (edge_whole _ _) (Nat.le_refl _)).1 r d ran⟩

/-- With the boot block unmarked the indirect block is taken twice: number 0 means that there is none. -/
theorem unmarked_boot_overflows :
    ∃ s d, NoHole s 1 ∧ (∀ b < s.sb.dataStart, 0 < b → s.bit b = true) ∧
      (Reserved.writei ⟨32, 45⟩ 1 sevens (s.ip 1).size File.maxChunk).run ⟨s, ∅⟩ = .ok (some File.maxChunk, d) ∧
      d.written.card = 11 := by
  obtain ⟨⟨r, d⟩, ran, rfl, many⟩ := exists_some (P := fun (r, d) => r = some File.maxChunk ∧ d.written.card = 11)
    (o := ((Reserved.writei ⟨32, 45⟩ 1 sevens (11 * BSIZE + 1) File.maxChunk).run
      ⟨edge ⟨24577, 24528, 200, by decide, by decide⟩ fun b => b % BPB ≠ 0 ∧ b ≠ 61, ∅⟩).toOption) (by decide +kernel)
  refine ⟨_, d, edge_whole _ _, fun b below pos => ?_, toOption_eq_some.mp ran, many⟩
  have below : b < 49 := below
  simp only [edge, BPB, BSIZE]
  exact decide_eq_true (by omega)

end Xv6.Blocks
