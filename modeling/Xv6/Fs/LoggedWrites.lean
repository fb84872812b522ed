import Xv6.Fs.BlockWrites

namespace Xv6.Blocks
open Lib Fs

/-! ## Writes that are recorded

A recorder notes the calls of `log_write`: for a block, for the bitmap block with the bit of a block, and for
the block of an inode. -/

structure Recorder (σ : Type) where
  fs : σ → State
  setFs : State → σ → σ
  block : Nat → σ → σ
  bitmap : Nat → σ → σ
  inode : Nat → σ → σ
  fs_setFs : ∀ t c, fs (setFs t c) = t
  fs_block : ∀ b c, fs (block b c) = fs c
  fs_bitmap : ∀ b c, fs (bitmap b c) = fs c
  fs_inode : ∀ i c, fs (inode i c) = fs c

namespace Recorder
variable {σ : Type} (R : Recorder σ)

def onFs {α : Type} (f : Op α) : Comp σ Panic α := zoom R.fs R.setFs f

def balloc : Comp σ Panic Nat := do
  let b ← R.onFs Blocks.balloc
  modify (R.bitmap b)
  modify (R.block b)
  pure b

def bmapAddr (i k : Nat) : Comp σ Panic Nat := do
  let s ← R.onFs get
  if (s.ip i).addrs k = 0 then do
    let addr ← R.balloc
    R.onFs (modify (·.setAddr i k addr))
    pure addr
  else pure ((s.ip i).addrs k)

def bmap (i bn : Nat) : Comp σ Panic Nat :=
  if bn < NDIRECT then R.bmapAddr i bn
  else if bn - NDIRECT < NINDIRECT then do
    let table ← R.bmapAddr i NDIRECT
    let s ← R.onFs get
    if word (s.data table) (bn - NDIRECT) = 0 then do
      let addr ← R.balloc
      R.onFs (modify fun s => s.setData table (setWord (s.data table) (bn - NDIRECT) addr))
      modify (R.block table)
      pure addr
    else pure (word (s.data table) (bn - NDIRECT))
  else throw .bmapOutOfRange

def iupdate (i : Nat) : Comp σ Panic Unit := do
  R.onFs (Blocks.iupdate i)
  modify (R.inode i)

def writeiFrom (i : Nat) (src : Source) : (fuel tot off left : Nat) → Comp σ Panic (Nat × Nat)
  | 0, tot, off, _ => pure (tot, off)
  | fuel + 1, tot, off, left =>
    if left = 0 then pure (tot, off) else do
      let b ← R.bmap i (off / BSIZE)
      let m := min left (BSIZE - off % BSIZE)
      let copied := src tot m
      R.onFs (modify fun s => s.setData b (setBytes (s.data b) (off % BSIZE) (copied.1.take m)))
      if copied.2 then do
        modify (R.block b)
        writeiFrom i src fuel (tot + m) (off + m) (left - m)
      else pure (tot, off)

def writei (i : Nat) (src : Source) (off n : Nat) : Comp σ Panic (Option Nat) := do
  let s ← R.onFs get
  if off > (s.ip i).size ∨ off + n ≥ 2 ^ 32 then pure none
  else if off + n > MAXFILE * BSIZE then pure none
  else do
    let done ← R.writeiFrom i src n 0 off n
    R.onFs (modify fun s => s.setIp i { s.ip i with size := max (s.ip i).size done.2 })
    R.iupdate i
    pure (some done.1)

/-! ### What they do to the file system -/

section
variable {R} {i : Nat} {src : Source}

theorem projects_onFs {α : Type} (f : Op α) : Projects R.fs (R.onFs f) f := .zoom R.fs_setFs f

theorem projects_balloc : Projects R.fs R.balloc Blocks.balloc := by
  rw [← bind_pure Blocks.balloc]
  exact (projects_onFs _).bind fun b => .skip (R.fs_bitmap b) (.skip (R.fs_block b) (.pure b))

theorem projects_bmapAddr (k : Nat) : Projects R.fs (R.bmapAddr i k) (Blocks.bmapAddr i k) :=
  (projects_onFs get).bind fun _ => .ite (projects_balloc.bind fun addr => (projects_onFs _).bind fun _ => .pure addr) (.pure _)

theorem projects_bmap (bn : Nat) : Projects R.fs (R.bmap i bn) (Blocks.bmap i bn) := by
  refine .ite (projects_bmapAddr bn) (.ite ((projects_bmapAddr NDIRECT).bind fun table => ?_) (.throw _))
  refine (projects_onFs get).bind fun s => .ite (projects_balloc.bind fun addr => ?_) (.pure _)
  exact (projects_onFs _).bind fun _ => .skip (R.fs_block table) (.pure addr)

theorem projects_writeiFrom (fuel tot off left : Nat) :
    Projects R.fs (R.writeiFrom i src fuel tot off left) (Blocks.writeiFrom i src fuel tot off left) := by
  induction fuel generalizing tot off left with
  | zero => exact .pure _
  | succ fuel ih =>
    refine .ite (.pure _) ((projects_bmap _).bind fun b => (projects_onFs _).bind fun _ => .ite ?_ (.pure _))
    exact .skip (R.fs_block b) (ih _ _ _)

theorem projects_iupdate : Projects R.fs (R.iupdate i) (Blocks.iupdate i) :=
  (projects_onFs _).bind fun _ => .skip (R.fs_inode i) (.pure _)

theorem projects_writei (off n : Nat) : Projects R.fs (R.writei i src off n) (Blocks.writei i src off n) := by
  refine (projects_onFs get).bind fun s => .ite (.pure _) (.ite (.pure _) ((projects_writeiFrom n 0 off n).bind fun done => ?_))
  exact (projects_onFs _).bind fun _ => projects_iupdate.bind fun _ => .pure _

end

end Recorder

/-! ## The log

Blocks in the buffer cache, on disk and in the log header. The transaction has room for what is written. -/

structure Cache where
  fs : State
  logged : Nat → Bool
  disk : Nat → Bytes

namespace Logged

/-- Inodes and the bitmap are not among the blocks of contents. -/
def recorder : Recorder Cache where
  fs := Cache.fs
  setFs t c := { c with fs := t }
  block b c := { c with logged := Function.update c.logged b true }
  bitmap _ c := c
  inode _ c := c
  fs_setFs _ _ := rfl
  fs_block _ _ := rfl
  fs_bitmap _ _ := rfl
  fs_inode _ _ := rfl

theorem recorder_fs (c : Cache) : recorder.fs c = c.fs := rfl

def writei : (i : Nat) → Source → (off n : Nat) → Comp Cache Panic (Option Nat) := recorder.writei

/-! ## What they log -/

/-- From `c` to `d` every block that is taken or changed is logged, except for the blocks in `L`;
besides the blocks taken, only those in `N` are logged. -/
structure Logs (N L : Nat → Prop) (c d : Cache) : Prop where
  disk : d.disk = c.disk
  grows : ∀ b, c.logged b = true → d.logged b = true
  bits : ∀ b, d.fs.bit b = false → c.fs.bit b = false
  taken : ∀ b, c.fs.bit b = false → d.fs.bit b = true → d.logged b = true
  changed : ∀ b, d.fs.data b ≠ c.fs.data b → d.logged b = true ∨ L b
  only : ∀ b, d.logged b = true → c.logged b = true ∨ c.fs.bit b = false ∨ N b

section
variable {N M L : Nat → Prop} {c d e : Cache} {i b : Nat}

theorem Logs.refl (c : Cache) : Logs N L c c :=
  ⟨rfl, fun _ => id, fun _ => id, fun _ free used => by simp [free] at used, fun _ differs => absurd rfl differs, fun _ => .inl⟩

theorem Logs.trans (one : Logs N (fun _ => False) c d) (two : Logs N L d e) : Logs N L c e where
  disk := two.disk.trans one.disk
  grows b now := two.grows b (one.grows b now)
  bits b free := one.bits b (two.bits b free)
  taken b free used := by grind [two.grows, one.taken, two.taken]
  changed b differs := by grind [two.changed, one.changed, two.grows]
  only b logged := by grind [two.only, one.only, one.bits]

theorem Logs.mono (logs : Logs N L c d) (wider : ∀ b, N b → M b) : Logs M L c d :=
  { logs with only := fun b logged => (logs.only b logged).imp_right (·.imp_right (wider b)) }

theorem Logs.absorb (logs : Logs (fun b => N b ∨ c.fs.bit b = false) L c d) : Logs N L c d :=
  { logs with only := fun b logged => (logs.only b logged).imp_right fun free => free.elim .inl fun other => other.symm }

theorem Logs.of_ip {t : State} (bits : t.bit = c.fs.bit) (data : t.data = c.fs.data) : Logs N L c { c with fs := t } where
  disk := rfl
  grows _ := id
  bits b free := by rwa [← bits]
  taken b free used := by
    rw [bits, free] at used
    exact absurd used (by decide)
  changed b differs := absurd (congrFun data b) differs
  only _ := .inl

theorem Logs.write {t : State} (data : ∀ b' ≠ b, t.data b' = c.fs.data b') (bits : ∀ b' ≠ b, t.bit b' = c.fs.bit b')
    (held : t.bit b = false → c.fs.bit b = false) (isNew : c.fs.bit b = false ∨ N b) :
    Logs N L c { c with fs := t, logged := Function.update c.logged b true } where
  disk := rfl
  grows b' now := by grind
  bits b' free := by grind
  taken b' free used := by grind
  changed b' differs := by
    by_cases same : b' = b
    · simp [same]
    · exact absurd (data b' same) differs
  only b' logged := by
    by_cases same : b' = b
    · exact .inr (same ▸ isNew)
    · exact .inl (by simpa [same] using logged)

theorem Logs.setData (bytes : Bytes) (isNew : c.fs.bit b = false ∨ N b) :
    Logs N L c { c with fs := c.fs.setData b bytes, logged := Function.update c.logged b true } :=
  .write (fun _ other => State.data_setData_of_ne _ _ other) (fun _ _ => rfl) id isNew

theorem Logs.spoil (bytes : Bytes) : Logs N (· = b) c { c with fs := c.fs.setData b bytes } where
  disk := rfl
  grows _ := id
  bits _ := id
  taken b' free used := by
    have used : c.fs.bit b' = true := used
    rw [free] at used
    exact absurd used (by decide)
  changed b' differs := by grind [State.data_setData_of_ne]
  only _ := .inl

theorem ends_balloc : ends recorder.balloc (fun _ => True) (fun b d => Logs N (fun _ => False) c d ∧ c.fs.bit b = false) c := by
  rw [Recorder.balloc, ends_bind, Recorder.onFs, ends_zoom, Blocks.balloc, ends_bind, ends_get, recorder_fs]
  cases found : (List.range c.fs.sb.size).find? (fun b => !c.fs.bit b) with
  | none => exact (ends_throw ..).mpr trivial
  | some b =>
    have free : c.fs.bit b = false := by simpa using List.find?_some found
    simp only [recorder, ends_bind, ends_modify, ends_pure]
    refine ⟨.write (fun _ other => ?_) (fun _ other => ?_) (fun _ => free) (.inl free), free⟩
    · exact State.data_setData_of_ne _ _ other
    · exact Function.update_of_ne other ..

theorem ends_bmapAddr (k : Nat) : ends (recorder.bmapAddr i k) (fun _ => True)
      (fun b d => Logs N (fun _ => False) c d ∧ (b = (c.fs.ip i).addrs k ∨ c.fs.bit b = false)) c := by
  rw [Recorder.bmapAddr, ends_bind, Recorder.onFs, ends_zoom, ends_get]
  split
  next =>
    refine (ends_balloc (N := N) (c := c)).bind fun b d after => ?_
    obtain ⟨logs, free⟩ := after
    simp only [Recorder.onFs, recorder, ends_bind, ends_zoom, ends_modify, ends_pure]
    exact ⟨logs.trans (.of_ip rfl rfl), .inr free⟩
  next => exact (ends_pure ..).mpr ⟨.refl c, .inl rfl⟩

theorem ends_bmap (bn : Nat) :
    ends (recorder.bmap i bn) (fun _ => True) (fun _ d => Logs (· = (c.fs.ip i).addrs NDIRECT) (fun _ => False) c d) c := by
  rw [Recorder.bmap]
  split
  next => exact (ends_bmapAddr bn).mono fun _ _ after => after.1
  next =>
    split
    next =>
      refine (ends_bmapAddr (N := fun b => b = (c.fs.ip i).addrs NDIRECT ∨ c.fs.bit b = false) NDIRECT).bind
        fun table d after => ?_
      obtain ⟨logs, isTable⟩ := after
      rw [ends_bind, Recorder.onFs, ends_zoom, ends_get]
      split
      next =>
        refine (ends_balloc (N := fun b => b = (c.fs.ip i).addrs NDIRECT ∨ c.fs.bit b = false) (c := d)).bind
          fun b e after => ?_
        simp only [Recorder.onFs, recorder, ends_bind, ends_zoom, ends_modify, ends_pure]
        exact ((logs.trans after.1).trans (.setData _ (.inr isTable))).absorb
      next => exact (ends_pure ..).mpr logs.absorb
    next => exact (ends_throw ..).mpr trivial

end

end Logged

end Xv6.Blocks
