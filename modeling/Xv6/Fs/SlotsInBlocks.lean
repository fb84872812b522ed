import Xv6.Fs.DirectoryMap
import Xv6.Fs.Lookup

namespace Xv6.Blocks
open Lib Fs Function

/-! ## The slots of a directory and its bytes

The calls of `sysfile.c` work on directories made of slots, the block maps on directories made of bytes.
What `dirlookup`, `dirlink` and the clearing of an entry do to the slots is what they do to the bytes. -/

def entry (de : List UInt8) : Dirent := ⟨direntInum de, direntName de⟩

/-- Entry `e` of the inode table is in use for the directory `dp`, and its slots are what the bytes say. -/
structure Shows (f : Fs.State) (e : Entry) (s : State) (dp : Nat) : Prop where
  shaped : Shaped s dp
  used : 0 < (f.table e).ref
  inum : (f.table e).inum = dp
  size : (f.table e).copy.size = (s.ip dp).size
  slots : ∀ k < slotCount s dp, f.slots dp k = entry (slot s dp k)

section
variable {f g : Fs.State} {e : Entry} {s t : State} {dp k : Nat} {name : Name} {p : Slot}

theorem writeDirent_eq {off : Nat} (de : Dirent) (inside : off ≤ (f.table e).copy.size)
    (short : off + direntSize ≤ MAXFILE * BSIZE) :
    f.writeDirent e off de = (true, (f.setSlots (f.table e).inum (update (f.slots (f.table e).inum) (off / direntSize) de)).update
      e { (f.table e).copy with size := max (f.table e).copy.size (off + direntSize) }) := by
  have word : ¬ (off > (f.table e).copy.size ∨ off + direntSize ≥ 2 ^ 32) := by
    simp only [MAXFILE, NDIRECT, NINDIRECT, BSIZE] at short
    omega
  rw [Fs.State.writeDirent]
  dsimp only
  rw [if_neg word, if_neg (Nat.not_lt.mpr short)]
  split_ifs with longer
  · rw [Nat.max_eq_right (Nat.le_of_lt longer)]
    rfl
  · have same (h : Fs.State) : h.setCopy e (h.table e).copy = h := by
      rw [Fs.State.setCopy, Fs.State.setEntry, update_eq_self]
    rw [Nat.max_eq_left (Nat.le_of_not_lt longer), Fs.State.update]
    exact congrArg (fun h => (true, Fs.State.iupdate h e)) (same _).symm

section

variable (shows : Shows f e s dp)

include shows

theorem Shows.count : Fs.slotCount (f.table e).copy.size = slotCount s dp := by
  rw [shows.size, shows.shaped.even, Fs.slotCount]
  simp only [direntSize]
  omega

theorem Shows.names (below : k < slotCount s dp) : f.names (f.table e).inum k name ↔ bears s dp name k = true := by
  rw [bears, decide_eq_true_iff, Fs.State.names, shows.inum, shows.slots k below]
  rfl

theorem Shows.congr (same : SameEntry (f.table e) (g.table e)) (used : 0 < (g.table e).ref) (slots : g.slots = f.slots) :
    Shows g e s dp :=
  ⟨shows.shaped, used, same.inum.trans shows.inum, by rw [same.copy, shows.size], slots ▸ shows.slots⟩

theorem Shows.writeDirent {de : List UInt8} (within : k ≤ slotCount s dp) (room : direntSize * (k + 1) ≤ MAXFILE * BSIZE)
    (put : Put dp k de s t) (shaped : Shaped t dp) :
    ∃ g, f.writeDirent e (direntSize * k) (entry de) = (true, g) ∧ Shows g e t dp := by
  have inside : direntSize * k ≤ (f.table e).copy.size := by
    rw [shows.size, shows.shaped.even]
    exact Nat.mul_le_mul_left _ within
  rw [writeDirent_eq (entry de) inside room, Nat.mul_div_cancel_left k (by decide), shows.inum]
  refine ⟨_, rfl, shaped, ?_, ?_, ?_, fun j below => ?_⟩
  · rw [update_ref]
    exact shows.used
  · rw [update_inum]
    exact shows.inum
  · rw [update_table, if_pos rfl, put.size, ← Nat.mul_succ, shows.size, shows.shaped.even, Nat.mul_max_mul_left]
  · change update f.slots dp (update (f.slots dp) k (entry de)) dp j = _
    rw [update_self]
    by_cases here : j = k
    · rw [here, update_self, put.self]
    · rw [update_of_ne here, put.others j here]
      rw [put.slotCount] at below
      exact shows.slots j (by omega)

theorem Shows.absent (missing : ∀ i < Fs.slotCount (f.table e).copy.size, ¬ f.names (f.table e).inum i name) :
    answer s dp name = none := by
  refine answer_eq_none.mpr fun j below bears => ?_
  exact missing j (by rwa [shows.count]) ((shows.names below).mpr bears)

theorem Shows.present (range : k < Fs.slotCount (f.table e).copy.size) (names : f.names (f.table e).inum k name) :
    answer s dp name = some ((f.slots (f.table e).inum k).inum, k * direntSize) := by
  rw [shows.count] at range
  refine shows.shaped.answer_eq_some.mpr ⟨k, range, (shows.names range).mp names, ?_⟩
  rw [shows.inum, shows.slots k range, Nat.mul_comm]
  rfl

theorem Shows.got {inum : Nat} {ip : Entry} (taken : f.iget inum = .ok (ip, g)) :
    Shows g e s dp ∧ ¬ Last g ip ∧ Shows (g.addRef ip (-1)) e s dp := by
  have used := shows.used
  have same := iget_same taken used
  have image := (iget_image taken).2
  have back := addRef_same g ip e (-1)
  refine ⟨shows.congr same ?_ image, ?_, (shows.congr same ?_ image).congr back ?_ rfl⟩
  all_goals
    rcases iget_cases taken with ⟨held, -, rfl⟩ | ⟨zero, -, rfl⟩
    · grind [addRef_ref, Last]
    · grind [addRef_ref, Last, setEntry_table]

theorem Shows.dirlookup (name : Name) :
    Does p (fun found g => (dirlookup dp name).run s = .ok (found.map (fun r => ((g.table r.1).inum, r.2)), s) ∧ Shows g e s dp)
      (Fs.dirlookup e name) f := by
  rw [shows.shaped.dirlookup name]
  refine does_dirlookup (fun _ missing => ⟨?_, shows⟩) fun i ip g _ range names _ taken => ⟨?_, (shows.got taken).1⟩
  · rw [shows.absent missing]
    rfl
  · rw [shows.present range names, ← iget_inum taken]
    rfl

theorem Shows.free : Does p (fun r h => h = f ∧ r.2 = direntSize * freeSlot s dp)
    (Fs.scanFrom e .dirlinkRead (·.inum = 0) (Fs.slotCount (f.table e).copy.size) 0) f := by
  rw [shows.count]
  have inum (i : Nat) (low : i < slotCount s dp) : (f.slots (f.table e).inum i).inum = direntInum (slot s dp i) := by
    rw [shows.inum, shows.slots i low]
    rfl
  refine goes_scanFrom _ 0 (fun _ _ _ => trivial) (fun full => ⟨rfl, ?_⟩) fun i low free before => ⟨rfl, ?_⟩
  · have none : (List.range (slotCount s dp)).find? (fun k => direntInum (slot s dp k) = 0) = none := by
      grind
    simp [freeSlot, none, Nat.mul_comm]
  · have first : (List.range (slotCount s dp)).find? (fun k => direntInum (slot s dp k) = 0) = some i := by
      grind [List.find?_range_eq_some]
    simp [freeSlot, first, Nat.mul_comm]

theorem Shows.dirlink (short : (s.ip dp).size < MAXFILE * BSIZE) {inum : Nat} (used : 0 < inum) (small : inum < 2 ^ 16)
    (terminated : 0 ∉ name) (fits : name.length ≤ DIRSIZ) {done : Bool} (ran : (dirlink dp name inum).run s = .ok (done, t)) :
    Does p (fun r g => (r = 0 ↔ done = true) ∧ Shows g e t dp) (Fs.dirlink e name inum) f := by
  unfold Fs.dirlink
  rw [does_bind]
  refine does_dirlookup (fun _ missing => ?_) fun i ip g _ range names _ taken => ?_
  · have absent := shows.absent missing
    obtain ⟨rfl, put⟩ := (shows.shaped.ends_dirlink_put short inum absent).of_run ran
    have shaped := (shows.shaped.linked used small terminated fits absent put).1
    have isEntry : entry (dirent inum name) = ⟨inum % 65536, name⟩ := by
      rw [entry, direntInum_dirent small, direntName_dirent inum terminated, List.take_of_length_le fits]
      exact congrArg (Dirent.mk · name) (Nat.mod_eq_of_lt small).symm
    obtain ⟨g, wrote, after⟩ := shows.writeDirent (freeSlot_le s dp).1 (shows.shaped.room short) put shaped
    refine does_next rfl (shows.free.bind ?_)
    rintro ⟨-, off⟩ h ⟨rfl, rfl⟩
    rw [isEntry] at wrote
    exact does_next (congrArg Except.ok wrote) ⟨⟨fun _ => rfl, fun _ => rfl⟩, after⟩
  · have found : (answer s dp name).isSome := by rw [shows.present range names]; rfl
    obtain ⟨rfl, rfl⟩ := Prod.mk.inj (Except.ok.inj (ran.symm.trans (shows.shaped.dirlink_found inum found)))
    obtain ⟨-, last, after⟩ := shows.got taken
    exact (does_iput_kept (Q := fun _ g => Shows g e t dp) last after).bind fun _ _ after => ⟨by simp, after⟩

theorem Shows.clear {inum off : Nat} (found : answer s dp name = some (inum, off)) :
    ∃ g t, f.writeDirent e off ⟨0, []⟩ = (true, g) ∧
      (writei dp (kernelBytes (List.replicate direntSize 0)) off direntSize).run s = .ok (some direntSize, t) ∧
      Shows g e t dp := by
  obtain ⟨j, below, -, same⟩ := shows.shaped.answer_eq_some.mp found
  obtain ⟨rfl, rfl⟩ := Prod.mk.inj same
  have isEntry : entry (List.replicate direntSize 0) = ⟨0, []⟩ := by decide
  obtain ⟨done, t, ran, rfl, put, shaped, -⟩ := (shows.shaped.wp_clear found).run_eq
  rw [Nat.mul_div_cancel_left j (by decide)] at put
  have room := (shows.shaped.inside below).trans shows.shaped.intact.small
  obtain ⟨g, wrote, after⟩ := shows.writeDirent (Nat.le_of_lt below) room put shaped
  rw [isEntry] at wrote
  exact ⟨g, t, wrote, ran, after⟩

end

end

end Xv6.Blocks
