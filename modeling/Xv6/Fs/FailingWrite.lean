import Xv6.Fs.ByteArray
import Xv6.Fs.LoggedWrites

namespace Xv6.Blocks
open Lib Fs

attribute [local simp] State.blockAt

/-! ## A write that stops -/

def Before (i n : Nat) (s : State) (b : Nat) : Prop := ∀ m ≥ n, s.blockAt (place i m) ≠ 0 → s.blockAt (place i m) ≠ b

section
variable {src : Source} {f : Nat → UInt8} {r n : Nat} {s t : State} {c d : Cache} {i b : Nat}

theorem Before.of_extends {m : Nat} (more : Extends i s t) (before : Before i m t b) : Before i m s b := by
  intro k late full
  have same := more.blocks _ full
  rw [← same]
  exact before k late (same ▸ full)

theorem Grown.before {bn m : Nat} (grown : Grown i (place i bn) s b t) (later : bn < m) : Before i m t b := by
  intro k late full same
  have index := place_inj (grown.kept.owned.once _ _ full (same.trans grown.at_place.symm))
  omega

theorem Keeps.before_table (kept : Kept s) (allocated : (s.ip i).type ≠ 0) (m : Nat) :
    Before i m s ((s.ip i).addrs NDIRECT) := by
  intro k _ full same
  rw [← State.blockAt_addr allocated (Nat.le_refl _)] at same
  exact place_ne_table i k (kept.owned.once _ _ full same)

theorem ends_writeiFrom_logs (supplies : Supplies src f r n) (short : r < n) (kept : Kept c.fs)
    (allocated : (c.fs.ip i).type ≠ 0) {fuel tot off left : Nat} (start : tot ≤ r) (total : tot + left = n)
    (enough : left ≤ fuel) :
    ends (Logged.recorder.writeiFrom i src fuel tot off left) (fun _ => True) (fun _ d =>
      d.fs.blockAt (place i ((off + (r - tot)) / BSIZE)) ≠ 0 ∧
      Logged.Logs (Before i ((off + (r - tot)) / BSIZE) c.fs) (· = d.fs.blockAt (place i ((off + (r - tot)) / BSIZE))) c d) c := by
  induction fuel generalizing c tot off left with
  | zero => omega
  | succ fuel ih =>
    rw [Recorder.writeiFrom, if_neg (by omega), ends_bind]
    generalize isM : min left (BSIZE - off % BSIZE) = m
    have pos := piece_pos off (show left ≠ 0 by omega)
    have mapped := (Recorder.projects_bmap (off / BSIZE) (fun _ => True) _ c (ends_bmap kept allocated (off / BSIZE)
      (fun _ => trivial) fun _ => trivial)).and (Logged.ends_bmap (off / BSIZE))
    refine mapped.mono fun b e after => ?_
    obtain ⟨⟨-, grown, -⟩, logs⟩ := after
    rw [Logged.recorder_fs] at grown
    have logs := logs.mono fun b isTable => isTable ▸ kept.before_table allocated ((off + (r - tot)) / BSIZE)
    simp only [Recorder.onFs, Logged.recorder, ends_bind, ends_zoom, ends_modify]
    generalize setBytes (e.fs.data b) (off % BSIZE) ((src tot m).1.take m) = bytes
    obtain ⟨kept', more, blocks⟩ := grown.setData bytes
    rw [supplies tot m start (by omega)]
    simp only [decide_eq_true_eq]
    split
    next whole =>
      have later : off / BSIZE < (off + (r - tot)) / BSIZE := by
        simp only [BSIZE] at isM ⊢
        omega
      have same : off + m + (r - (tot + m)) = off + (r - tot) := by omega
      simp only [ends_bind, ends_modify]
      have step : Logged.Logs (Before i ((off + (r - tot)) / BSIZE) c.fs) (fun _ => False) e
          { e with fs := e.fs.setData b bytes, logged := Function.update e.logged b true } :=
        .setData bytes (.inr ((grown.before later).of_extends grown.more))
      refine (ih kept' (by rwa [more.fields]) whole (by omega) (by omega)).mono fun _ d after => ?_
      rw [same] at after
      refine ⟨after.1, (logs.trans step).trans (after.2.mono fun b before => before.of_extends more)⟩
    next less =>
      have here : (off + (r - tot)) / BSIZE = off / BSIZE := by
        simp only [BSIZE] at isM ⊢
        omega
      rw [here] at logs ⊢
      refine (ends_pure ..).mpr ?_
      have isB : (e.fs.setData b bytes).blockAt (place i (off / BSIZE)) = b := by rw [blocks, grown.at_place]
      rw [isB]
      exact ⟨grown.positive, logs.trans (.spoil bytes)⟩

def Rejected (s : State) (i off n : Nat) : Prop := off > (s.ip i).size ∨ off + n ≥ 2 ^ 32 ∨ off + n > MAXFILE * BSIZE

theorem ends_writei_logs (supplies : Supplies src f r n) (short : r < n) (kept : Kept c.fs)
    (allocated : (c.fs.ip i).type ≠ 0) {off : Nat} (accepted : ¬ Rejected c.fs i off n) :
    ends (Logged.writei i src off n) (fun _ => True) (fun _ d =>
      d.fs.blockAt (place i ((off + r) / BSIZE)) ≠ 0 ∧
      Logged.Logs (Before i ((off + r) / BSIZE) c.fs) (· = d.fs.blockAt (place i ((off + r) / BSIZE))) c d) c := by
  rw [Rejected] at accepted
  rw [Logged.writei, Recorder.writei, ends_bind, Recorder.onFs, ends_zoom, ends_get, Logged.recorder_fs, if_neg (by omega),
    if_neg (by omega), ends_bind]
  refine (ends_writeiFrom_logs supplies short kept allocated (Nat.zero_le _) (Nat.zero_add _) (Nat.le_refl _)).mono
    fun done d after => ?_
  simp only [Recorder.onFs, Recorder.iupdate, Logged.recorder, iupdate, ends_bind, ends_zoom, ends_modify, ends_pure]
  have blocks := blockAt_resized d.fs i done.2
  rw [State.resized] at blocks
  rw [blocks]
  exact ⟨after.1, { after.2 with }⟩

/-! ## What is reported -/

def Cache.Coherent (c : Cache) (i : Nat) : Prop :=
  ∀ x : Place, x.inode = i → c.fs.blockAt x ≠ 0 → c.logged (c.fs.blockAt x) = false →
    ∀ k < BSIZE, c.fs.data (c.fs.blockAt x) k = c.disk (c.fs.blockAt x) k

/-- The file that `readi` returns is the old one with the bytes that `writei` reports, and what is not logged is as on disk. -/
def Reported (i off : Nat) (f : Nat → UInt8) (c : Cache) (done : Option Nat) (d : Cache) : Prop :=
  ∃ old, (readi i 0 (c.fs.ip i).size).run c.fs = .ok (old, c.fs) ∧ d.Coherent i ∧
    match done with
    | none => (readi i 0 (d.fs.ip i).size).run d.fs = .ok (old, d.fs) ∧ (d.fs.ip i).size = (c.fs.ip i).size
    | some tot =>
      (readi i 0 (d.fs.ip i).size).run d.fs = .ok (old.take off ++ (List.range tot).map f ++ old.drop (off + tot), d.fs) ∧
      (d.fs.ip i).size = max (c.fs.ip i).size (off + tot)

/-- Every byte copied of the piece whose copying fails goes to a new block, or beyond the end of the file into a
block of the log, or is the byte that is there. -/
def Harmless (i off n r : Nat) (f : Nat → UInt8) (c : Cache) : Prop :=
  ∀ o, stopAt off r n ≤ o → o < off + r →
    c.fs.blockAt (place i (o / BSIZE)) = 0 ∨
    (c.fs.ip i).size ≤ o ∧ c.logged (c.fs.blockAt (place i (o / BSIZE))) = true ∨
    f (o - off) = c.fs.data (c.fs.blockAt (place i (o / BSIZE))) (o % BSIZE)

structure Broken (i off r : Nat) (f : Nat → UInt8) (c d : Cache) : Prop where
  kept : Kept c.fs
  kept' : Kept d.fs
  sb : d.fs.sb = c.fs.sb
  blocks : ∀ x, c.fs.blockAt x ≠ 0 → d.fs.blockAt x = c.fs.blockAt x
  bytes : ∀ o, byteAt d.fs i o = if off ≤ o ∧ o < off + r then f (o - off) else byteAt c.fs i o
  full : d.fs.blockAt (place i ((off + r) / BSIZE)) ≠ 0
  logs : Logged.Logs (Before i ((off + r) / BSIZE) c.fs) (· = d.fs.blockAt (place i ((off + r) / BSIZE))) c d

variable {off : Nat}

section

variable (broken : Broken i off r f c d)

include broken

theorem Broken.old {x : Place} (full : d.fs.blockAt x ≠ 0)
    (unlogged : d.logged (d.fs.blockAt x) = false) : c.fs.blockAt x ≠ 0 := by
  intro empty
  obtain ⟨low, high⟩ := broken.kept'.owned.range x full
  have used := (broken.kept'.owned.marked _ low high).mpr ⟨x, rfl⟩
  have free : c.fs.bit (d.fs.blockAt x) = false := by
    by_contra held
    rw [broken.sb] at low high
    obtain ⟨y, here⟩ := (broken.kept.owned.marked _ low high).mp (Bool.not_eq_false _ ▸ held)
    have same := broken.blocks y (here ▸ full)
    obtain rfl := broken.kept'.owned.once x y full (by rw [same, here])
    exact full (here ▸ empty)
  rw [broken.logs.taken _ free used] at unlogged
  exact absurd unlogged (by decide)

theorem Broken.unlogged (full : c.fs.blockAt (place i ((off + r) / BSIZE)) ≠ 0)
    (unlogged : c.logged (c.fs.blockAt (place i ((off + r) / BSIZE))) = false) :
    d.logged (c.fs.blockAt (place i ((off + r) / BSIZE))) = false := by
  by_contra logged
  rcases broken.logs.only _ (Bool.not_eq_false _ ▸ logged) with before | free | new
  · rw [before] at unlogged
    exact absurd unlogged (by decide)
  · grind [broken.kept.owned.range, broken.kept.owned.marked]
  · exact new _ (Nat.le_refl _) full rfl

theorem Broken.coherent_iff (short : r < n) (coherent : c.Coherent i) :
    d.Coherent i ↔ ∀ o, stopAt off r n ≤ o → o < off + r →
      c.fs.blockAt (place i (o / BSIZE)) = 0 ∨ c.logged (c.fs.blockAt (place i (o / BSIZE))) = true ∨
        f (o - off) = c.fs.data (c.fs.blockAt (place i (o / BSIZE))) (o % BSIZE) := by
  have stop : stopAt off r n = max off ((off + r) / BSIZE * BSIZE) := if_neg (by omega)
  rw [stop]
  constructor
  · intro after o low high
    have index : o / BSIZE = (off + r) / BSIZE := by
      simp only [BSIZE] at low high ⊢
      omega
    rw [index]
    by_cases full : c.fs.blockAt (place i ((off + r) / BSIZE)) = 0
    · exact .inl full
    cases logged : c.logged (c.fs.blockAt (place i ((off + r) / BSIZE))) with
    | true => exact .inr (.inl rfl)
    | false =>
      have same := broken.blocks _ full
      have now := broken.unlogged full logged
      have inBlock := Nat.mod_lt o (show 0 < BSIZE by decide)
      have there := after (place i ((off + r) / BSIZE)) (place_inode ..) broken.full (same ▸ now) _ inBlock
      have before := coherent (place i ((off + r) / BSIZE)) (place_inode ..) full logged _ inBlock
      have byte := broken.bytes o
      rw [if_pos ⟨by omega, high⟩, byteAt_of_full (by rw [index]; exact broken.full), index, there, same,
        broken.logs.disk, ← before] at byte
      exact .inr (.inr byte.symm)
  · intro harmless x ofI full unlogged k inBlock
    have old := broken.old full unlogged
    have same := broken.blocks x old
    have before : c.logged (c.fs.blockAt x) = false := by
      by_contra logged
      rw [same, broken.logs.grows _ (Bool.not_eq_false _ ▸ logged)] at unlogged
      exact absurd unlogged (by decide)
    have there := coherent x ofI old before k inBlock
    rw [broken.logs.disk, same, ← there]
    by_cases unchanged : d.fs.data (c.fs.blockAt x) = c.fs.data (c.fs.blockAt x)
    · rw [unchanged]
    rcases broken.logs.changed _ unchanged with logged | isB
    · grind
    obtain rfl := broken.kept'.owned.once x _ full (same.trans isB)
    have index : ((off + r) / BSIZE * BSIZE + k) / BSIZE = (off + r) / BSIZE := by
      simp only [BSIZE] at inBlock ⊢
      omega
    have offset : ((off + r) / BSIZE * BSIZE + k) % BSIZE = k := by
      simp only [BSIZE] at inBlock ⊢
      omega
    have byte := broken.bytes ((off + r) / BSIZE * BSIZE + k)
    have fine := harmless ((off + r) / BSIZE * BSIZE + k)
    rw [index, offset] at fine
    rw [byteAt_of_full (by rwa [index]), byteAt_of_full (by rwa [index]), index, offset, same] at byte
    rw [byte]
    split
    next window =>
      have equal := (fine (by omega) window.2).resolve_left old
      rw [before] at equal
      exact equal.resolve_left (by decide)
    next => rfl

theorem Broken.content_iff (short : r < n) (intact : Intact c.fs i)
    (inside : off ≤ (c.fs.ip i).size) (size : (d.fs.ip i).size = max (c.fs.ip i).size (stopAt off r n)) :
    content d.fs i = (content c.fs i).take off ++ (List.range (stopAt off r n - off)).map f ++
        (content c.fs i).drop (stopAt off r n) ↔
      ∀ o, stopAt off r n ≤ o → o < off + r → o < (c.fs.ip i).size →
        f (o - off) = c.fs.data (c.fs.blockAt (place i (o / BSIZE))) (o % BSIZE) := by
  have stop : stopAt off r n = max off ((off + r) / BSIZE * BSIZE) := if_neg (by omega)
  have high : stopAt off r n ≤ off + r := by
    have floor := Nat.div_mul_le_self (off + r) BSIZE
    omega
  have ends : off + (stopAt off r n - off) = stopAt off r n := by omega
  have pointwise := content_eq_iff (s := c.fs) (t := d.fs) (f := f) (k := stopAt off r n - off) inside (by rw [ends]; exact size)
  rw [ends] at pointwise
  rw [pointwise]
  have full (o : Nat) (below : o < (c.fs.ip i).size) : c.fs.blockAt (place i (o / BSIZE)) ≠ 0 := by
    refine intact.whole _ (index_lt_iff.mpr ?_)
    have floor := Nat.div_mul_le_self o BSIZE
    omega
  constructor
  · intro same o after before below
    have byte := same o (by omega)
    rw [broken.bytes o, if_pos (by omega), if_neg (by omega), byteAt_of_full (full o below)] at byte
    exact byte
  · intro same o below
    rw [broken.bytes o]
    by_cases written : off ≤ o ∧ o < stopAt off r n
    · rw [if_pos (by omega), if_pos written]
    · split
      next window =>
        rw [byteAt_of_full (full o (by omega))]
        exact same o (by omega) window.2 (by omega)
      next => rfl

end

theorem Intact.readi_all {s : State} (intact : Intact s i) : (Blocks.readi i 0 (s.ip i).size).run s = .ok (content s i, s) := by
  have small := intact.small
  have fits : ¬ (0 > (s.ip i).size ∨ 0 + (s.ip i).size ≥ 2 ^ 32) := by grind
  have all : (content s i).length = (s.ip i).size := by simp [content]
  rw [intact.readi, if_neg fits, List.drop_zero, ← all, List.take_length]

theorem ends_writei_wrote (supplies : Supplies src f r n) (intact : Intact c.fs i) (accepted : ¬ Rejected c.fs i off n) :
    ends (Logged.writei i src off n) (fun _ => True) (fun done d => done = some (stopAt off r n - off) ∧
      ∃ u, Written i off n (stopAt off r n - off, stopAt off r n) (patch src · n 0 off n) c.fs
        (stopAt off r n - off, stopAt off r n) u ∧ d.fs = u.resized i (stopAt off r n)) c := by
  have lands := supplies.lands off (Nat.zero_le _) (Nat.zero_add _) (Nat.le_refl _)
  rw [Nat.zero_add, Nat.sub_zero] at lands
  refine (Recorder.projects_writei off n (fun _ => True) _ c
    (ends_writei intact.kept intact.allocated src off n fun _ => trivial)).mono fun done d wrote => ?_
  rw [Rejected] at accepted
  rw [if_neg accepted, lands] at wrote
  exact wrote

theorem ends_writei_broken (supplies : Supplies src f r n) (short : r < n) (intact : Intact c.fs i)
    (accepted : ¬ Rejected c.fs i off n) :
    ends (Logged.writei i src off n) (fun _ => True) (fun done d => Broken i off r f c d ∧ Intact d.fs i ∧
      done = some (stopAt off r n - off) ∧ (d.fs.ip i).size = max (c.fs.ip i).size (stopAt off r n)) c := by
  have logs := ends_writei_logs supplies short intact.kept intact.allocated accepted
  refine ((ends_writei_wrote supplies intact accepted).and logs).mono fun done d after => ?_
  obtain ⟨⟨isDone, u, wrote, same⟩, full, logs⟩ := after
  have inside : off ≤ (c.fs.ip i).size := Nat.le_of_not_lt fun beyond => accepted (.inl beyond)
  have intact' : Intact d.fs i := by
    rw [same]
    exact intact.resized inside wrote
  have size : (d.fs.ip i).size = max (c.fs.ip i).size (stopAt off r n) := by
    rw [same, ip_resized, Function.update_self, wrote.more.fields]
  refine ⟨⟨intact.kept, intact'.kept, ?_, fun x there => ?_, fun o => ?_, full, logs⟩, intact', isDone, size⟩
  · rw [same]
    exact wrote.more.sb
  · rw [same, blockAt_resized]
    exact wrote.more.blocks x there
  · rw [same, byteAt_resized, wrote.bytes, supplies.patch o (Nat.zero_le _) (Nat.zero_add _) (Nat.le_refl _), Nat.sub_zero,
      Nat.min_eq_right (Nat.le_of_lt short), Nat.zero_add]
    split <;> rfl

theorem ends_writei_rejected (rejected : Rejected c.fs i off n) :
    ends (Logged.writei i src off n) (fun _ => True) (fun done d => done = none ∧ d = c) c := by
  rw [Rejected] at rejected
  rw [Logged.writei, Recorder.writei, ends_bind, Recorder.onFs, ends_zoom, ends_get, Logged.recorder_fs]
  split
  next => exact (ends_pure ..).mpr ⟨rfl, rfl⟩
  next =>
    rw [if_pos (by omega)]
    exact (ends_pure ..).mpr ⟨rfl, rfl⟩

theorem Broken.reported_iff (broken : Broken i off r f c d) (short : r < n) (intact : Intact c.fs i)
    (intact' : Intact d.fs i) (coherent : c.Coherent i) (inside : off ≤ (c.fs.ip i).size)
    (size : (d.fs.ip i).size = max (c.fs.ip i).size (stopAt off r n)) :
    Reported i off f c (some (stopAt off r n - off)) d ↔ Harmless i off n r f c := by
  have stop : stopAt off r n = max off ((off + r) / BSIZE * BSIZE) := if_neg (by omega)
  have total : off + (stopAt off r n - off) = stopAt off r n := by omega
  have parts : Reported i off f c (some (stopAt off r n - off)) d ↔ d.Coherent i ∧
      content d.fs i = (content c.fs i).take off ++ (List.range (stopAt off r n - off)).map f ++
        (content c.fs i).drop (stopAt off r n) := by
    have read := intact'.readi_all
    rw [size] at read
    simp only [Reported, intact.readi_all, read, total, size, Except.ok.injEq, Prod.mk.injEq, and_true, exists_eq_left']
  rw [parts, broken.coherent_iff short coherent, broken.content_iff short intact inside size]
  constructor
  · rintro ⟨calm, same⟩ o low high
    by_cases below : o < (c.fs.ip i).size
    · exact .inr (.inr (same o low high below))
    · grind
  · intro harmless
    refine ⟨fun o low high => (harmless o low high).imp_right (·.imp_left And.right), fun o low high below => ?_⟩
    rcases harmless o low high with empty | beyond | equal
    · refine absurd empty (intact.whole _ (index_lt_iff.mpr ?_))
      have floor := Nat.div_mul_le_self o BSIZE
      omega
    · exact absurd beyond.1 (Nat.not_le.mpr below)
    · exact equal

end

theorem failing_write (c d : Cache) (i off n src : Nat) (pages : Nat → Option Bytes) (done : Option Nat)
    (intact : Intact c.fs i) (coherent : c.Coherent i)
    (ran : (Logged.writei i (userBytes pages src) off n).run c = .ok (done, d)) (fails : done ≠ some n) :
    Reported i off (fun k => userByte pages (src + k)) c done d ↔
      Rejected c.fs i off n ∨ Harmless i off n (readable pages src n) (fun k => userByte pages (src + k)) c := by
  by_cases rejected : Rejected c.fs i off n
  · obtain ⟨rfl, rfl⟩ := (ends_writei_rejected rejected).of_run ran
    simp only [rejected, true_or, iff_true]
    exact ⟨_, intact.readi_all, coherent, intact.readi_all, rfl⟩
  · have supplies := userBytes_supplies pages src n
    have short : readable pages src n < n := by
      by_contra all
      have whole : stopAt off (readable pages src n) n = off + n := if_pos (Nat.le_of_not_lt all)
      obtain ⟨isDone, -⟩ := (ends_writei_wrote supplies intact rejected).of_run ran
      rw [whole, Nat.add_sub_cancel_left] at isDone
      exact fails isDone
    obtain ⟨broken, intact', rfl, size⟩ := (ends_writei_broken supplies short intact rejected).of_run ran
    have inside : off ≤ (c.fs.ip i).size := Nat.le_of_not_lt fun beyond => rejected (.inl beyond)
    rw [broken.reported_iff short intact intact' coherent inside size]
    simp only [rejected, false_or]

theorem bare_intact : Intact (bare T_FILE 0 (· < 5)) 1 where
  owned := bare_owned _ _ fun b low _ => by simpa using low
  reserved _ below := decide_eq_true below
  allocated := by decide
  whole bn below := absurd (index_lt_iff.mp below) (Nat.not_lt_zero _)

def onePage : Nat → Option Bytes := fun p => if p = 0 then some fun _ => 7 else none

theorem failing_write_newBlock :
    ∃ d, (Logged.writei 1 (userBytes onePage 4095) 0 2).run ⟨bare T_FILE 0 (· < 5), fun _ => false, fun _ _ => 0⟩ =
        .ok (some 0, d) ∧
      Reported 1 0 (fun k => userByte onePage (4095 + k)) ⟨bare T_FILE 0 (· < 5), fun _ => false, fun _ _ => 0⟩ (some 0) d := by
  refine ⟨_, rfl, (failing_write _ _ 1 0 2 4095 onePage (some 0) bare_intact ?_ rfl (by decide)).mpr (.inr ?_)⟩
  · intro x _ full
    exact absurd (bare_blockAt _ _ _ x) full
  · intro o _ _
    exact .inl (bare_blockAt _ _ _ _)

def oneBlockCache : Cache := ⟨oneBlock T_FILE [0, 0, 0, 0], fun _ => false, (oneBlock T_FILE [0, 0, 0, 0]).data⟩

/-- `writei` reports that it wrote nothing, and the first byte of the file is another one. -/
theorem failing_write_overwrites :
    Intact oneBlockCache.fs 1 ∧ oneBlockCache.Coherent 1 ∧
    ∃ d, (Logged.writei 1 (userBytes onePage 4095) 0 2).run oneBlockCache = .ok (some 0, d) ∧
      (readi 1 0 4).run oneBlockCache.fs = .ok ([0, 0, 0, 0], oneBlockCache.fs) ∧
      (∃ s, (readi 1 0 4).run d.fs = .ok ([7, 0, 0, 0], s)) ∧ ¬ d.Coherent 1 ∧
      ¬ Reported 1 0 (fun k => userByte onePage (4095 + k)) oneBlockCache (some 0) d := by
  refine ⟨oneBlock_intact _ (by decide) (by decide), fun _ _ _ _ _ _ => rfl, _, rfl, rfl, ⟨_, rfl⟩, fun coherent => ?_, ?_⟩
  · exact absurd (coherent (.addr 1 0) rfl (by decide) rfl 0 (by decide)) (by decide)
  · rintro ⟨old, -, coherent, -⟩
    exact absurd (coherent (.addr 1 0) rfl (by decide) rfl 0 (by decide)) (by decide)

end Xv6.Blocks
