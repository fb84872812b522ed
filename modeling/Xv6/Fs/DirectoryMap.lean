import Xv6.Fs.ByteArray
import Xv6.Fs.Names
import Xv6.Lib.Records

namespace Xv6.Blocks
open Lib Fs

/-! ## The slots of a directory -/

def slotCount (s : State) (dp : Nat) : Nat := (s.ip dp).size / direntSize

def slot (s : State) (dp k : Nat) : List UInt8 := record direntSize (content s dp) k

def bears (s : State) (dp : Nat) (name : Name) (k : Nat) : Bool :=
  direntInum (slot s dp k) ≠ 0 ∧ direntName (slot s dp k) = name

/-- A directory of whole slots where no name stands twice. That it is intact says that it has no hole, that no
block has two places, and that the bitmap has exactly the blocks in use and those before the data area. -/
structure Shaped (s : State) (dp : Nat) : Prop where
  intact : Intact s dp
  isDir : (s.ip dp).type = T_DIR
  even : (s.ip dp).size = direntSize * slotCount s dp
  distinct : ∀ name, ∀ j < slotCount s dp, ∀ k < slotCount s dp, bears s dp name j = true → bears s dp name k = true → j = k

def answer (s : State) (dp : Nat) (name : Name) : Option (Nat × Nat) :=
  ((List.range (slotCount s dp)).find? (bears s dp name)).map fun k => (direntInum (slot s dp k), direntSize * k)

section
variable {s t : State} {dp k fuel : Nat} {name : Name}

section

variable (shaped : Shaped s dp)

include shaped

theorem Shaped.length : (content s dp).length = direntSize * slotCount s dp := by
  rw [← shaped.even, content, List.length_map, List.length_range]

section

variable (below : k < slotCount s dp)

include below

theorem Shaped.inside : direntSize * (k + 1) ≤ (s.ip dp).size := by
  rw [shaped.even]
  exact Nat.mul_le_mul_left _ below

theorem Shaped.slot_length : (slot s dp k).length = direntSize :=
  record_length shaped.length below

theorem Shaped.readi : (readi dp (direntSize * k) direntSize).run s = .ok (slot s dp k, s) := by
  have inside := shaped.inside below
  have small := shaped.intact.small
  have fits : ¬ (direntSize * k > (s.ip dp).size ∨ direntSize * k + direntSize ≥ 2 ^ 32) := by grind
  rw [shaped.intact.readi, if_neg fits]
  rfl

end

theorem Shaped.more_iff : direntSize * k < (s.ip dp).size ↔ k < slotCount s dp := by
  rw [shaped.even]
  exact Nat.mul_lt_mul_left (by decide)

/-! ## Looking for a slot -/

theorem Shaped.wp_scanFrom (short : Panic) (wanted : List UInt8 → Bool) (k : Nat)
    (within : k ≤ slotCount s dp) (enough : slotCount s dp ≤ k + fuel) :
    wp (scanFrom dp short wanted fuel (direntSize * k)) (fun r t => t = s ∧
      ∃ found, (List.range' k (slotCount s dp - k)).find? (fun j => wanted (slot s dp j)) = found ∧
        r = (found.map (slot s dp), direntSize * found.getD (slotCount s dp))) s := by
  induction fuel generalizing k with
  | zero =>
    obtain rfl : k = slotCount s dp := Nat.le_antisymm within enough
    rw [Nat.sub_self]
    exact (wp_pure ..).mpr ⟨rfl, none, rfl, rfl⟩
  | succ fuel ih =>
    rw [scanFrom, wp_bind, wp_get]
    by_cases below : k < slotCount s dp
    · have count : slotCount s dp - k = slotCount s dp - (k + 1) + 1 := by omega
      rw [if_pos (shaped.more_iff.mpr below), wp_bind, wp_of_run (shaped.readi below),
        if_neg (not_not.mpr (shaped.slot_length below)), count, List.range'_succ, List.find?_cons]
      cases wanted (slot s dp k) with
      | true => exact (wp_pure ..).mpr ⟨rfl, some k, rfl, rfl⟩
      | false => exact ih (k + 1) below (by omega)
    · obtain rfl : k = slotCount s dp := by omega
      rw [if_neg fun more => below (shaped.more_iff.mp more), Nat.sub_self]
      exact (wp_pure ..).mpr ⟨rfl, none, rfl, rfl⟩

theorem Shaped.wp_scan (short : Panic) (wanted : List UInt8 → Bool) :
    wp (scanFrom dp short wanted (s.ip dp).size 0) (fun r t => t = s ∧
      ∃ found, (List.range (slotCount s dp)).find? (fun j => wanted (slot s dp j)) = found ∧
        r = (found.map (slot s dp), direntSize * found.getD (slotCount s dp))) s := by
  have enough : slotCount s dp ≤ 0 + (s.ip dp).size := by
    rw [Nat.zero_add, shaped.even]
    exact Nat.le_mul_of_pos_left _ (by decide)
  rw [List.range_eq_range']
  exact shaped.wp_scanFrom short wanted 0 (Nat.zero_le _) enough

theorem Shaped.dirlookup (name : Name) : (dirlookup dp name).run s = .ok (answer s dp name, s) := by
  have found : wp (Blocks.dirlookup dp name) (fun found t => t = s ∧ found = answer s dp name) s := by
    rw [Blocks.dirlookup, wp_bind, wp_get, if_neg (not_not.mpr shaped.isDir)]
    refine (shaped.wp_scan .dirlookupRead _).bind ?_
    rintro _ t ⟨rfl, found, first, rfl⟩
    refine (wp_pure ..).mpr ⟨rfl, ?_⟩
    have same : (List.range (slotCount t dp)).find? (bears t dp name) = found := first
    rw [answer, same]
    cases found <;> rfl
  obtain ⟨_, _, ran, rfl, rfl⟩ := found.run_eq
  exact ran

end

/-- The first free slot, or the one after the last. -/
def freeSlot (s : State) (dp : Nat) : Nat :=
  ((List.range (slotCount s dp)).find? fun k => direntInum (slot s dp k) = 0).getD (slotCount s dp)

theorem freeSlot_le (s : State) (dp : Nat) : freeSlot s dp ≤ slotCount s dp ∧
    (freeSlot s dp < slotCount s dp → direntInum (slot s dp (freeSlot s dp)) = 0) := by
  rw [freeSlot]
  cases first : (List.range (slotCount s dp)).find? fun k => direntInum (slot s dp k) = 0 with
  | none => exact ⟨Nat.le_refl _, fun less => absurd less (Nat.lt_irrefl _)⟩
  | some j =>
    refine ⟨?_, fun _ => by simpa using List.find?_some first⟩
    exact Nat.le_of_lt (List.mem_range.mp (List.mem_of_find?_eq_some first))

/-! ## What a slot that is written changes -/

structure Put (dp k : Nat) (de : List UInt8) (s t : State) : Prop where
  intact : Intact t dp
  isDir : (t.ip dp).type = T_DIR
  size : (t.ip dp).size = direntSize * max (slotCount s dp) (k + 1)
  self : slot t dp k = de
  others : ∀ j ≠ k, slot t dp j = slot s dp j

theorem cost_within {i off n : Nat} (some : n ≠ 0) (within : off % BSIZE + n ≤ BSIZE) :
    cost s i off n = needed s i (off / BSIZE) := by
  have one : (off + n + BSIZE - 1) / BSIZE = off / BSIZE + 1 := by
    simp only [BSIZE] at *
    omega
  rw [cost, if_neg some, one, needs_cons (Nat.lt_succ_self _), Finset.Ico_self, Finset.filter_empty, Finset.card_empty, needed,
    Nat.add_zero, Nat.add_comm]
  simp only [Nat.lt_succ_iff]

theorem needed_le_two (s : State) (i bn : Nat) : needed s i bn ≤ 2 := by
  rw [needed]
  split <;> split <;> decide

theorem Shaped.ends_put (shaped : Shaped s dp) {de : List UInt8} (full : de.length = direntSize)
    (within : k ≤ slotCount s dp) (short : direntSize * (k + 1) ≤ MAXFILE * BSIZE) :
    ends (writei dp (kernelBytes de) (direntSize * k) direntSize)
      (fun e => e = .outOfBlocks ∧ k = slotCount s dp ∧ s.free < 2)
      (fun done t => done = some direntSize ∧ Put dp k de s t) s := by
  have even := shaped.even
  have start : direntSize * k ≤ (s.ip dp).size := by
    rw [even]
    exact Nat.mul_le_mul_left _ within
  have inBlock : direntSize * k % BSIZE + direntSize ≤ BSIZE := by
    simp only [direntSize, BSIZE]
    omega
  have room (less : s.free < cost s dp (direntSize * k) de.length) :
      Panic.outOfBlocks = .outOfBlocks ∧ k = slotCount s dp ∧ s.free < 2 := by
    rw [full, cost_within (by decide) inBlock] at less
    refine ⟨rfl, ?_, less.trans_le (needed_le_two ..)⟩
    by_contra other
    have full : s.blockAt (place dp (direntSize * k / BSIZE)) ≠ 0 := by
      refine shaped.intact.whole _ (index_lt_iff.mpr ?_)
      simp only [direntSize, BSIZE] at *
      omega
    rw [needed_zero shaped.intact.allocated full] at less
    exact absurd less (Nat.not_lt_zero _)
  have ended : ends (writei dp (kernelBytes de) (direntSize * k) de.length)
      (fun e => e = .outOfBlocks ∧ k = slotCount s dp ∧ s.free < 2)
      (fun done t => done = some de.length ∧ Rewritten dp (direntSize * k) de s t) s :=
    shaped.intact.ends_writei (fun _ _ _ => rfl) start (by rw [full]; exact short) room
  rw [full] at ended
  refine ended.mono fun done t after => ?_
  obtain ⟨rfl, wrote⟩ := after
  have content : content t dp = putRecord direntSize (content s dp) k de := by
    rw [wrote.content, full]
    rfl
  refine ⟨rfl, wrote.intact, wrote.type.trans shaped.isDir, ?_, ?_, fun j other => ?_⟩
  · rw [wrote.size, even, full, ← Nat.mul_succ, Nat.mul_max_mul_left]
  · rw [slot, content, record_putRecord_self shaped.length within full]
  · rw [slot, content, record_putRecord_of_ne shaped.length within full other, slot]

variable {de : List UInt8}

theorem Put.slotCount (put : Put dp k de s t) : Blocks.slotCount t dp = max (Blocks.slotCount s dp) (k + 1) := by
  rw [Blocks.slotCount, put.size, Nat.mul_div_cancel_left _ (by decide)]

theorem Put.bears_self (put : Put dp k de s t) : bears t dp name k = true ↔ direntInum de ≠ 0 ∧ direntName de = name := by
  rw [bears, put.self, decide_eq_true_iff]

theorem Put.bears_of_ne (put : Put dp k de s t) {j : Nat} (other : j ≠ k) : bears t dp name j = bears s dp name j := by
  rw [bears, bears, put.others j other]

theorem Shaped.answer_eq_some (shaped : Shaped s dp) {found : Nat × Nat} : answer s dp name = some found ↔
      ∃ j < Blocks.slotCount s dp, bears s dp name j = true ∧ (direntInum (slot s dp j), direntSize * j) = found := by
  rw [answer, Option.map_eq_some_iff]
  simp only [find_range_iff (shaped.distinct name), and_assoc]

theorem answer_eq_none :
    answer s dp name = none ↔ ∀ j < Blocks.slotCount s dp, bears s dp name j ≠ true := by simp [answer]

section

variable (put : Put dp k de s t)

include put

theorem Put.holds (within : k ≤ Blocks.slotCount s dp) {j : Nat} : j < Blocks.slotCount t dp ∧ bears t dp name j = true ↔
      j = k ∧ direntInum de ≠ 0 ∧ direntName de = name ∨ j ≠ k ∧ j < Blocks.slotCount s dp ∧ bears s dp name j = true := by
  rw [put.slotCount]
  by_cases same : j = k
  · subst same
    rw [put.bears_self]
    simp
  · rw [put.bears_of_ne same]
    simp only [same, false_and, false_or, ne_eq, not_false_eq_true, true_and, and_congr_left_iff]
    omega

theorem Put.shaped (shaped : Shaped s dp) (within : k ≤ Blocks.slotCount s dp)
    (fresh : direntInum de ≠ 0 → ∀ j < Blocks.slotCount s dp, bears s dp (direntName de) j ≠ true) : Shaped t dp where
  intact := put.intact
  isDir := put.isDir
  even := by rw [put.slotCount, put.size]
  distinct m i below j below' one two := by
    rcases (put.holds within).mp ⟨below, one⟩ with ⟨rfl, used, rfl⟩ | ⟨-, oldI, one⟩
    · grind [put.holds]
    · grind [put.holds, shaped.distinct]

variable (shaped : Shaped s dp)

include shaped

theorem Put.answer_of_ne (after : Shaped t dp)
    (within : k ≤ Blocks.slotCount s dp) (old : k < Blocks.slotCount s dp → bears s dp name k ≠ true)
    (new : ¬ (direntInum de ≠ 0 ∧ direntName de = name)) : answer t dp name = answer s dp name := by
  refine Option.ext fun found => ?_
  rw [after.answer_eq_some, shaped.answer_eq_some]
  constructor
  · grind [put.holds, put.others]
  · rintro ⟨j, below, here, rfl⟩
    have other : j ≠ k := by
      rintro rfl
      exact old below here
    obtain ⟨below, here⟩ := (put.holds within).mpr (.inr ⟨other, below, here⟩)
    exact ⟨j, below, here, by rw [put.others j other]⟩

theorem Put.linked (within : k ≤ Blocks.slotCount s dp)
    (free : k < Blocks.slotCount s dp → direntInum (slot s dp k) = 0) (absent : answer s dp (direntName de) = none)
    (used : direntInum de ≠ 0) :
    Shaped t dp ∧ ∀ name, answer t dp name =
      if name = direntName de then some (direntInum de, direntSize * k) else answer s dp name := by
  have after := put.shaped shaped within fun _ => answer_eq_none.mp absent
  refine ⟨after, fun name => ?_⟩
  split
  next same =>
    obtain ⟨below, here⟩ := (put.holds within).mpr (.inl ⟨rfl, used, same.symm⟩)
    exact after.answer_eq_some.mpr ⟨k, below, here, by rw [put.self]⟩
  next other =>
    refine put.answer_of_ne shaped after within (fun below here => ?_) fun both => other both.2.symm
    exact (of_decide_eq_true here).1 (free below)

theorem Put.unlinked (below : k < Blocks.slotCount s dp) (here : bears s dp name k = true) (cleared : direntInum de = 0) :
    Shaped t dp ∧ ∀ m, answer t dp m = if m = name then none else answer s dp m := by
  have within := Nat.le_of_lt below
  have after := put.shaped shaped within fun used => absurd cleared used
  refine ⟨after, fun m => ?_⟩
  split
  next same =>
    subst same
    refine answer_eq_none.mpr fun j inside also => ?_
    rcases (put.holds within).mp ⟨inside, also⟩ with ⟨-, used, -⟩ | ⟨other, old, also⟩
    · exact used cleared
    · exact other (shaped.distinct m j old k below also here)
  next other =>
    refine put.answer_of_ne shaped after within (fun _ also => other ?_) fun both => both.1 cleared
    exact (of_decide_eq_true also).2.symm.trans (of_decide_eq_true here).2

end

/-! ## `dirlink` and the clearing of a slot -/

section

variable (shaped : Shaped s dp)

include shaped

theorem Shaped.dirlink_found (inum : Nat) (found : (answer s dp name).isSome) :
    (dirlink dp name inum).run s = .ok (false, s) := by
  have same : wp (dirlink dp name inum) (fun done t => done = false ∧ t = s) s := by
    rw [dirlink, wp_bind, wp_of_run (shaped.dirlookup name), if_pos found]
    exact (wp_pure ..).mpr ⟨rfl, rfl⟩
  obtain ⟨_, _, ran, rfl, rfl⟩ := same.run_eq
  exact ran

theorem Shaped.room (short : (s.ip dp).size < MAXFILE * BSIZE) : direntSize * (freeSlot s dp + 1) ≤ MAXFILE * BSIZE := by
  have within := (freeSlot_le s dp).1
  have even := shaped.even
  simp only [direntSize, MAXFILE, NDIRECT, NINDIRECT, BSIZE] at *
  omega

theorem Shaped.ends_dirlink_put (short : (s.ip dp).size < MAXFILE * BSIZE) (inum : Nat)
    (absent : answer s dp name = none) :
    ends (dirlink dp name inum) (fun e => e = .outOfBlocks ∧ s.free < 2)
      (fun done t => done = true ∧ Put dp (freeSlot s dp) (dirent inum name) s t) s := by
  rw [dirlink, ends_bind]
  apply wp.ends
  rw [wp_of_run (shaped.dirlookup name), absent, if_neg (by decide), ends_bind, ends_get]
  refine (shaped.wp_scan .dirlinkRead _).ends.bind ?_
  rintro _ t ⟨same, found, first, rfl⟩
  obtain rfl : s = t := same.symm
  have isSlot : found.getD (Blocks.slotCount s dp) = freeSlot s dp := by rw [freeSlot, first]
  rw [isSlot]
  refine ((shaped.ends_put (dirent_length inum name) (freeSlot_le s dp).1 (shaped.room short)).mono_stop
    fun e stop => ⟨stop.1, stop.2.2⟩).bind
    fun done t after => ?_
  obtain ⟨rfl, put⟩ := after
  rw [if_pos rfl, ends_pure]
  exact ⟨rfl, put⟩

theorem Shaped.linked {inum : Nat} (used : 0 < inum) (small : inum < 2 ^ 16) (terminated : 0 ∉ name)
    (fits : name.length ≤ DIRSIZ) (absent : answer s dp name = none) (put : Put dp (freeSlot s dp) (dirent inum name) s t) :
    Shaped t dp ∧ ∀ m, answer t dp m = if m = name then some (inum, direntSize * freeSlot s dp) else answer s dp m := by
  have named : direntName (dirent inum name) = name := by
    rw [direntName_dirent inum terminated, List.take_of_length_le fits]
  obtain ⟨within, free⟩ := freeSlot_le s dp
  have linked := put.linked shaped within free (by rwa [named]) (by rw [direntInum_dirent small]; omega)
  rwa [named, direntInum_dirent small] at linked

theorem Shaped.wp_clear {inum off : Nat} (found : answer s dp name = some (inum, off)) :
    wp (writei dp (kernelBytes (List.replicate direntSize 0)) off direntSize)
      (fun done t => done = some direntSize ∧ Put dp (off / direntSize) (List.replicate direntSize 0) s t ∧ Shaped t dp ∧
        ∀ m, answer t dp m = if m = name then none else answer s dp m) s := by
  obtain ⟨j, below, here, same⟩ := shaped.answer_eq_some.mp found
  obtain ⟨rfl, rfl⟩ := Prod.mk.inj same
  have room := (shaped.inside below).trans shaped.intact.small
  rw [Nat.mul_div_cancel_left j (by decide)]
  refine ((shaped.ends_put (List.length_replicate ..) (Nat.le_of_lt below) room).total fun e stop => ?_).mono
    fun done t after => ?_
  · exact absurd stop.2.1 (Nat.ne_of_lt below)
  · obtain ⟨rfl, put⟩ := after
    exact ⟨rfl, put, put.unlinked shaped below here (by decide)⟩

end

end

theorem key_terminated (name : CString) : 0 ∉ key name := fun member => upTo_nonzero DIRSIZ name 0 member rfl

theorem directory_is_map (s : State) (dp : Nat) (shaped : Shaped s dp) (short : (s.ip dp).size < MAXFILE * BSIZE) :
    ∃ answers : CString → Option (Nat × Nat),
      (∀ m, (Raw.dirlookup dp m).run s = .ok (answers m, s)) ∧
      (∀ name inum, 0 < inum → inum < 2 ^ 16 →
        ((Raw.dirlink dp name inum).run s = .ok (false, s) ↔ (answers name).isSome) ∧
        (answers name = none →
          (∀ done t, (Raw.dirlink dp name inum).run s = .ok (done, t) → done = true ∧ Shaped t dp ∧
            ∃ off, ∀ m, (Raw.dirlookup dp m).run t = .ok (if key m = key name then some (inum, off) else answers m, t)) ∧
          ∀ e, (Raw.dirlink dp name inum).run s = .error e → e = .outOfBlocks ∧ s.free < 2)) ∧
      ∀ name inum off, answers name = some (inum, off) →
        ∃ t, (writei dp (kernelBytes (List.replicate direntSize 0)) off direntSize).run s = .ok (some direntSize, t) ∧
          Shaped t dp ∧ ∀ m, (Raw.dirlookup dp m).run t = .ok (if key m = key name then none else answers m, t) := by
  refine ⟨fun m => answer s dp (key m), fun m => ?_, fun name inum used small => ⟨?_, fun absent => ?_⟩,
    fun name inum off found => ?_⟩
  · rw [Raw.dirlookup_eq]
    exact shaped.dirlookup _
  · rw [Raw.dirlink_eq]
    constructor
    · intro ran
      by_contra absent
      have ended := shaped.ends_dirlink_put short inum (Option.not_isSome_iff_eq_none.mp absent)
      exact absurd (ended.of_run ran).1 (by decide)
    · exact shaped.dirlink_found inum
  · have ended := shaped.ends_dirlink_put short inum absent
    rw [Raw.dirlink_eq]
    refine ⟨fun done t ran => ?_, fun e ran => ended.of_stop ran⟩
    obtain ⟨rfl, put⟩ := ended.of_run ran
    obtain ⟨after, answers⟩ := shaped.linked used small (key_terminated name) (upTo_length ..) absent put
    refine ⟨rfl, after, direntSize * freeSlot s dp, fun m => ?_⟩
    rw [Raw.dirlookup_eq, after.dirlookup, answers]
  · obtain ⟨done, t, ran, rfl, -, after, answers⟩ := (shaped.wp_clear found).run_eq
    refine ⟨t, ran, after, fun m => ?_⟩
    rw [Raw.dirlookup_eq, after.dirlookup, answers]

/-- A directory with a freed slot between its two entries. -/
def twoEntries : State := oneBlock T_DIR (dirent 1 dot ++ List.replicate direntSize 0 ++ dirent 1 dotdot)

theorem twoEntries_shaped : Shaped twoEntries 1 where
  intact := oneBlock_intact _ (by decide) (by decide)
  isDir := rfl
  even := rfl
  distinct name := by
    have names : ∀ j < 3, ∀ k < 3, direntInum (slot twoEntries 1 j) ≠ 0 ∧ direntInum (slot twoEntries 1 k) ≠ 0 ∧
        direntName (slot twoEntries 1 j) = direntName (slot twoEntries 1 k) → j = k := by decide +kernel
    intro j below k below' one two
    obtain ⟨used, named⟩ := of_decide_eq_true one
    obtain ⟨used', named'⟩ := of_decide_eq_true two
    exact names j below k below' ⟨used, used', named.trans named'.symm⟩

def dotdotString : CString := fun k => if k < 2 then 46 else 0

def aString : CString := fun k => if k = 0 then 97 else 0

theorem directory_is_map_dots :
    ∃ t off u, (Raw.dirlookup 1 dotdotString).run twoEntries = .ok (some (1, 32), twoEntries) ∧
      (Raw.dirlink 1 aString 2).run twoEntries = .ok (true, t) ∧ (Raw.dirlookup 1 aString).run t = .ok (some (2, off), t) ∧
      (Raw.dirlookup 1 dotdotString).run t = .ok (some (1, 32), t) ∧
      (writei 1 (kernelBytes (List.replicate direntSize 0)) 32 direntSize).run twoEntries = .ok (some direntSize, u) ∧
      (Raw.dirlookup 1 dotdotString).run u = .ok (none, u) := by
  obtain ⟨answers, lookup, link, clear⟩ := directory_is_map twoEntries 1 twoEntries_shaped (by decide)
  have absent : answers aString = none := by
    have same := (lookup aString).symm.trans (show _ = .ok (none, twoEntries) from rfl)
    simpa using same
  have present : answers dotdotString = some (1, 32) := by
    have same := (lookup dotdotString).symm.trans (show _ = .ok (some (1, 32), twoEntries) from rfl)
    simpa using same
  obtain ⟨u, cleared, -, gone⟩ := clear dotdotString 1 32 present
  obtain ⟨returns, stops⟩ := (link aString 2 (by decide) (by decide)).2 absent
  cases outcome : (Raw.dirlink 1 aString 2).run twoEntries with
  | error e => exact absurd (stops e outcome).2 (by decide +kernel)
  | ok result =>
    obtain ⟨isDone, -, off, found⟩ := returns result.1 result.2 outcome
    refine ⟨result.2, off, u, present ▸ lookup dotdotString, by rw [← isDone], ?_, ?_, cleared, ?_⟩
    · exact (found aString).trans (by rw [if_pos rfl])
    · exact (found dotdotString).trans (by rw [if_neg (by decide), present])
    · exact (gone dotdotString).trans (by rw [if_pos rfl])

end Xv6.Blocks
