import Xv6.Fs.ByteArray
import Xv6.Mkfs.Format

namespace Xv6.Mkfs
open Lib Blocks Function

/-! ## Taking blocks

mkfs appends to an inode as the kernel's `writei` would in the file system of the image. The dinode
that `iappend` works on stands for the kernel's copy in memory. -/

structure Image.Sound (m : Image) : Prop where
  low : nmeta ≤ m.freeblock
  high : m.freeblock ≤ FSSIZE
  zero : ∀ b ≥ m.freeblock, m.sect b = fun _ => 0
  super : m.sect 1 = superblock

def Image.held (m : Image) (i : Nat) (din : Dinode) : State := m.view.setIp i din

def Image.next (m : Image) : Image := { m with freeblock := m.freeblock + 1 }

section
variable {m : Image} {i k off : Nat} {din din' : Dinode} {Q : Nat → State → Prop}

theorem Image.Sound.next (sound : m.Sound) (inside : m.freeblock < FSSIZE) : m.next.Sound where
  low := Nat.le_succ_of_le sound.low
  high := inside
  zero b high := sound.zero b (Nat.le_of_succ_le high)
  super := sound.super

theorem find_unused {f n : Nat} (inside : f < n) : (List.range n).find? (fun b => !decide (b < f)) = some f := by
  rw [List.find?_range_eq_some]
  refine ⟨by simp, List.mem_range.mpr inside, fun j below => ?_⟩
  simp [below]

theorem held_ip : (m.held i din).ip = update m.view.ip i din := State.ip_setIp ..

theorem held_taken (sound : m.Sound) : (m.held i din).taken m.freeblock = m.next.held i din := by
  have bits : update m.view.bit m.freeblock true = m.next.view.bit := by
    funext b
    by_cases same : b = m.freeblock
    · subst same
      rw [update_self]
      exact (decide_eq_true (Nat.lt_succ_self _)).symm
    · rw [update_of_ne same]
      exact decide_eq_decide.mpr (show b < m.freeblock ↔ b < m.freeblock + 1 by omega)
  have data : update m.view.data m.freeblock (fun _ => 0) = m.next.view.data := by
    refine update_eq_self_iff.mpr ?_
    change _ = dataBlocks m.sect m.freeblock
    rw [dataBlocks, if_pos sound.low]
    exact (sound.zero _ (Nat.le_refl _)).symm
  change State.mk _ _ _ (update m.view.bit m.freeblock true) (update m.view.data m.freeblock fun _ => 0) = _
  rw [bits, data]
  rfl

theorem wp_nextBlock (sound : m.Sound) (kernel : wp Blocks.balloc Q (m.held i din)) :
    wp nextBlock (fun b n => n = m.next ∧ b = m.freeblock ∧ b < FSSIZE ∧ Q b (n.held i din)) m := by
  rw [nextBlock, wp_bind, wp_get, wp_bind, wp_modify, wp_pure]
  refine ⟨rfl, rfl, ?_⟩
  rw [Blocks.balloc, wp_bind, wp_get] at kernel
  have scan : (List.range (m.held i din).sb.size).find? (fun b => !(m.held i din).bit b) =
      (List.range FSSIZE).find? fun b => !decide (b < m.freeblock) := rfl
  rw [scan] at kernel
  by_cases inside : m.freeblock < FSSIZE
  · rw [find_unused inside] at kernel
    rw [wp_bind, wp_modify, wp_bind, wp_modify, wp_pure] at kernel
    refine ⟨inside, ?_⟩
    have after : (m.held i din).taken m.freeblock = m.next.held i din := held_taken sound
    rw [State.taken] at after
    rwa [after] at kernel
  · have none : (List.range FSSIZE).find? (fun b => !decide (b < m.freeblock)) = none := by grind
    rw [none] at kernel
    exact absurd kernel (wp_throw ..).mp

/-! ## The block at an index -/

structure Step (m : Image) (din : Dinode) (n : Image) (din' : Dinode) : Prop where
  sound : n.Sound
  freeinode : n.freeinode = m.freeinode
  fields : din' = { din with addrs := din'.addrs }
  rest : (∀ k > NDIRECT, din.addrs k = 0) → ∀ k > NDIRECT, din'.addrs k = 0

theorem Step.refl (sound : m.Sound) (din : Dinode) : Step m din m din := ⟨sound, rfl, rfl, id⟩

theorem Step.trans {n o : Image} {din'' : Dinode} (one : Step m din n din') (two : Step n din' o din'') :
    Step m din o din'' where
  sound := two.sound
  freeinode := two.freeinode.trans one.freeinode
  fields := by
    rw [two.fields, one.fields]
  rest zero := two.rest (one.rest zero)

theorem held_setIp (d : Dinode) : (m.held i din).setIp i d = m.held i d := by
  rw [Image.held, State.setIp, State.setIp, update_idem]
  rfl

theorem held_addrs : ((m.held i din).ip i).addrs = din.addrs := by rw [held_ip, update_self]

theorem wp_appendAddr (sound : m.Sound) (small : k ≤ NDIRECT) (kernel : wp (Blocks.bmapAddr i k) Q (m.held i din)) :
    wp (appendAddr din k) (fun din' n => Q (din'.addrs k) (n.held i din') ∧ Step m din n din') m := by
  rw [Blocks.bmapAddr, wp_bind, wp_get, held_addrs] at kernel
  rw [appendAddr]
  split
  next empty =>
    rw [if_pos empty, wp_bind] at kernel
    refine (wp_nextBlock sound kernel).bind ?_
    rintro b n ⟨rfl, rfl, inside, after⟩
    rw [wp_bind, wp_modify, wp_pure, State.setAddr, held_ip, update_self, held_setIp] at after
    refine (wp_pure ..).mpr ⟨?_, sound.next inside, rfl, rfl, fun zero j large => ?_⟩
    · dsimp only
      rwa [update_self]
    · grind
  next full =>
    rw [if_neg full, wp_pure] at kernel
    exact (wp_pure ..).mpr ⟨kernel, .refl sound din⟩

theorem dataStart_eq : (m.held i din).sb.dataStart = nmeta := by
  change geometry.dataStart = nmeta
  decide

theorem held_data {b : Nat} (high : nmeta ≤ b) : (m.held i din).data b = m.sect b := if_pos high

theorem held_block (kept : Kept (m.held i din)) {x : Place} (full : (m.held i din).blockAt x ≠ 0) :
    nmeta ≤ (m.held i din).blockAt x ∧ (m.held i din).blockAt x < FSSIZE ∧ (m.held i din).blockAt x < m.freeblock := by
  obtain ⟨low, high⟩ := kept.owned.range x full
  have used := (kept.owned.marked _ low high).mpr ⟨x, rfl⟩
  rw [dataStart_eq] at low
  exact ⟨low, high, of_decide_eq_true used⟩

def Image.write (m : Image) (x : Nat) (buf : Bytes) : Image := { m with sect := update m.sect x buf }

theorem held_write {x : Nat} (high : nmeta ≤ x) (buf : Bytes) : (m.held i din).setData x buf = (m.write x buf).held i din := by
  rw [Image.held, Image.held, Image.write, view_wsect high]
  rfl

theorem Image.Sound.write (sound : m.Sound) {x : Nat} (low : nmeta ≤ x) (used : x < m.freeblock) (buf : Bytes) :
    (m.write x buf).Sound where
  low := sound.low
  high := sound.high
  zero b high := by
    have apart : b ≠ x := Nat.ne_of_gt (Nat.lt_of_lt_of_le used high)
    exact (update_of_ne apart ..).trans (sound.zero b high)
  super := by
    have apart : 1 ≠ x := Nat.ne_of_lt (Nat.lt_of_lt_of_le (by decide) low)
    exact (update_of_ne apart ..).trans sound.super

theorem wp_appendBlock (sound : m.Sound) (kept : Kept (m.held i din)) (allocated : din.type ≠ 0) {fbn : Nat}
    (kernel : wp (Blocks.bmap i fbn) Q (m.held i din)) :
    wp (appendBlock din fbn) (fun out n => Q out.2 (n.held i out.1) ∧ Step m din n out.1) m := by
  have allocated' : ((m.held i din).ip i).type ≠ 0 := by rwa [held_ip, update_self]
  rw [Blocks.bmap] at kernel
  rw [appendBlock]
  split
  next direct =>
    rw [if_pos direct] at kernel
    exact (wp_appendAddr sound (Nat.le_of_lt direct) kernel).bind fun din' n after => (wp_pure ..).mpr after
  next indirect =>
    rw [if_neg indirect] at kernel
    split at kernel
    next inside =>
      rw [wp_bind] at kernel
      rw [wp_bind]
      have grown := ends_bmapAddr (E := fun _ => True) kept allocated' (Nat.le_refl NDIRECT) fun _ _ => trivial
      refine (wp_appendAddr sound (Nat.le_refl _) (kernel.and_ends grown)).mono ?_
      rintro din' n ⟨⟨kernel, grown, -⟩, step⟩
      obtain ⟨low, high, used⟩ := held_block grown.kept (grown.at_place ▸ grown.positive)
      rw [grown.at_place] at low high used
      rw [wp_bind, wp_get, held_data low] at kernel
      rw [wp_bind, wp_rsect high]
      split
      next empty =>
        rw [if_pos empty, wp_bind] at kernel
        refine (wp_nextBlock step.sound kernel).bind ?_
        rintro b o ⟨rfl, rfl, room, after⟩
        rw [wp_bind, wp_modify, wp_pure, held_data low, held_write low] at after
        rw [wp_bind, wp_wsect, wp_pure]
        refine ⟨after, step.trans ⟨(step.sound.next room).write low (Nat.lt_succ_of_lt used) _, rfl, rfl, id⟩⟩
      next full =>
        rw [if_neg full, wp_pure] at kernel
        exact (wp_pure ..).mpr ⟨kernel, step⟩
    next => exact absurd kernel (wp_throw ..).mp

/-! ## Appending -/

theorem wp_iappendFrom (sound : m.Sound) (kept : Kept (m.held i din)) (allocated : din.type ≠ 0) (bytes : List UInt8)
    {fuel tot : Nat} {Q : Nat × Nat → State → Prop}
    (kernel : wp (writeiFrom i (kernelBytes bytes) fuel tot off (bytes.length - tot)) Q (m.held i din)) :
    wp (iappendFrom fuel din off (bytes.drop tot))
      (fun out n => (∃ tot', Q (tot', out.2) (n.held i out.1)) ∧ Step m din n out.1) m := by
  induction fuel generalizing m din tot off with
  | zero =>
    rw [writeiFrom, wp_pure] at kernel
    exact (wp_pure ..).mpr ⟨⟨tot, kernel⟩, .refl sound din⟩
  | succ fuel ih =>
    rw [writeiFrom] at kernel
    rw [iappendFrom, List.length_drop]
    split
    next none =>
      rw [if_pos none, wp_pure] at kernel
      exact (wp_pure ..).mpr ⟨⟨tot, kernel⟩, .refl sound din⟩
    next some =>
      rw [if_neg some, wp_bind] at kernel
      have allocated' : ((m.held i din).ip i).type ≠ 0 := by rwa [held_ip, update_self]
      have grown := ends_bmap (E := fun _ => True) kept allocated' (off / BSIZE) (fun _ => trivial) fun _ => trivial
      have kernel := kernel.and_ends grown
      have inside : off / BSIZE < MAXFILE := by grind [kernel.run_eq]
      have piece : (off / BSIZE + 1) * BSIZE - off = BSIZE - off % BSIZE := by
        simp only [BSIZE]
        omega
      have place : off - off / BSIZE * BSIZE = off % BSIZE := by
        simp only [BSIZE]
        omega
      rw [if_pos inside, wp_bind, piece, place]
      refine (wp_appendBlock sound kept allocated kernel).mono ?_
      rintro ⟨din', x⟩ n ⟨⟨kernel, -, grown, -⟩, step⟩
      dsimp only at kernel grown step ⊢
      obtain ⟨low, high, used⟩ := held_block grown.kept (grown.at_place ▸ grown.positive)
      rw [grown.at_place] at low high used
      obtain ⟨kept', -, -⟩ := grown.setData (setBytes (n.sect x) (off % BSIZE)
        ((bytes.drop tot).take (min (bytes.length - tot) (BSIZE - off % BSIZE))))
      rw [wp_bind, wp_modify] at kernel
      simp only [kernelBytes, if_true, List.take_take, Nat.min_self, held_data low, held_write low] at kernel
      rw [held_write low] at kept'
      rw [wp_bind, wp_rsect high, wp_bind, wp_wsect, List.drop_drop]
      have allocated'' : din'.type ≠ 0 := by rwa [step.fields]
      rw [Nat.sub_sub] at kernel
      refine (ih (step.sound.write low used _) kept' allocated'' kernel).mono ?_
      rintro out o ⟨after, step'⟩
      exact ⟨after, (step.trans ⟨step.sound.write low used _, rfl, rfl, id⟩).trans step'⟩

/-! ## States that look the same -/

structure Alike (s t : State) : Prop where
  sb : t.sb = s.sb
  ip : t.ip = s.ip
  bit : t.bit = s.bit
  data : t.data = s.data

section
variable {s t : State}

section

variable (alike : Alike s t)

include alike

theorem Alike.blockAt : t.blockAt = s.blockAt := State.blockAt_congr alike.ip alike.data

theorem Alike.kept (kept : Kept s) : Kept t := by
  refine ⟨?_, ?_⟩
  · rw [alike.blockAt, alike.bit, alike.sb]
    exact kept.owned
  · rw [alike.bit, alike.sb]
    exact kept.reserved

theorem Alike.intact (intact : Intact s i) : Intact t i := by
  have kept := alike.kept intact.kept
  refine ⟨kept.owned, kept.reserved, ?_, ?_⟩
  · rw [alike.ip]
    exact intact.allocated
  · rw [alike.ip, alike.blockAt]
    exact intact.whole

theorem Alike.content (j : Nat) : content t j = Blocks.content s j := by
  rw [Blocks.content, Blocks.content, alike.ip]
  refine List.map_congr_left fun o _ => byteAt_congr (by rw [alike.blockAt]) fun _ => by rw [alike.data]

theorem Alike.free : t.free = s.free := by rw [State.free, State.free, alike.bit, alike.sb]

theorem Alike.cost (j off n : Nat) : cost t j off n = Blocks.cost s j off n := by
  rw [Blocks.cost, Blocks.cost, needs, needs, alike.blockAt]

end

end

theorem held_alike (m : Image) (i : Nat) : Alike m.view (m.held i (dinodes m.sect i)) where
  sb := rfl
  ip := by
    rw [held_ip]
    exact update_eq_self i m.view.ip
  bit := rfl
  data := rfl

theorem resized_alike (inside : i < NINODES) (fits : Fits { din with size := off }) (grows : din.size ≤ off) :
    Alike ((m.held i din).resized i off) (Image.view { m with sect := setInode m.sect i { din with size := off } }) := by
  rw [view_setInode inside fits]
  refine ⟨rfl, ?_, rfl, rfl⟩
  rw [ip_resized, held_ip, update_self, update_idem, Nat.max_eq_right grows]
  rfl

/-! ## `iappend` -/

structure Appended (i : Nat) (p : List UInt8) (s t : State) : Prop where
  intact : Intact t i
  content : content t i = content s i ++ p
  fields : t.ip i = { s.ip i with size := (s.ip i).size + p.length, addrs := (t.ip i).addrs }
  others : ∀ j ≠ i, t.ip j = s.ip j
  blocks : ∀ x : Place, x.inode ≠ i → t.blockAt x = s.blockAt x
  bytes : ∀ j ≠ i, Blocks.content t j = Blocks.content s j
  beyond : ∀ bn, (s.ip i).size + p.length ≤ bn * BSIZE → t.blockAt (place i bn) = s.blockAt (place i bn)
  spent : s.free ≤ t.free + cost s i (s.ip i).size p.length

theorem Image.Sound.setInode (sound : m.Sound) (inside : i < NINODES) (d : Dinode) :
    Image.Sound { m with sect := setInode m.sect i d } where
  low := sound.low
  high := sound.high
  zero b high := by
    have below := Nat.lt_trans (iblock_lt inside) bmapstart_lt
    have apart : b ≠ iblock i := Nat.ne_of_gt (Nat.lt_of_lt_of_le (Nat.lt_of_lt_of_le below sound.low) high)
    exact (update_of_ne apart ..).trans (sound.zero b high)
  super := by
    exact sound.super

theorem Step.fits {n : Image} (step : Step m (dinodes m.sect i) n din')
    (kept : Kept (n.held i din')) (allocated : (dinodes m.sect i).type ≠ 0) (short : off ≤ MAXFILE * BSIZE) :
    Fits { din' with size := off } := by
  have before := dinodes_fits m.sect i
  have small : off < 2 ^ 32 := Nat.lt_of_le_of_lt short (by decide)
  have allocated' : ((n.held i din').ip i).type ≠ 0 := by
    rw [held_ip, update_self, step.fields]
    exact allocated
  rw [step.fields]
  refine ⟨before.type, before.major, before.minor, before.nlink, small, fun k inside => ?_, step.rest before.rest⟩
  have held := State.blockAt_addr allocated' inside
  rw [held_addrs] at held
  rw [← held]
  by_cases empty : (n.held i din').blockAt (.addr i k) = 0
  · rw [empty]
    exact Nat.two_pow_pos 32
  · exact Nat.lt_trans (held_block kept empty).2.1 (by decide)

theorem wp_iappend (sound : m.Sound) (inside : i < NINODES) (intact : Intact m.view i) (p : List UInt8)
    (short : (m.view.ip i).size + p.length ≤ MAXFILE * BSIZE)
    (room : cost m.view i (m.view.ip i).size p.length ≤ m.view.free) :
    wp (iappend i p) (fun _ n => n.Sound ∧ n.freeinode = m.freeinode ∧ Appended i p m.view n.view) m := by
  have short : (dinodes m.sect i).size + p.length ≤ MAXFILE * BSIZE := short
  have alike := held_alike m i
  have intact' := alike.intact intact
  have supplies : Supplies (kernelBytes p) (fun k => p.getD k 0) p.length p.length := supplies_of_readable fun _ _ _ => rfl
  have kernel := wp_of_ends (ends_writeiFrom intact'.kept intact'.allocated (kernelBytes p) p.length 0
    (dinodes m.sect i).size p.length (fun long => absurd short (Nat.not_le.mpr long)) fun less => by
      rw [alike.cost, alike.free] at less
      exact absurd room (Nat.not_le.mpr less))
  rw [supplies.lands_all] at kernel
  rw [iappend, wp_bind, wp_rinode inside, wp_bind]
  have allocated : (dinodes m.sect i).type ≠ 0 := intact.allocated
  refine (wp_iappendFrom sound intact'.kept allocated p kernel).mono ?_
  rintro ⟨din, off⟩ n ⟨⟨tot, wrote⟩, step⟩
  dsimp only at wrote step ⊢
  have isOff : off = (dinodes m.sect i).size + p.length := congrArg Prod.snd wrote.stops
  subst isOff
  have fits := step.fits wrote.kept allocated short
  have grows : din.size ≤ (dinodes m.sect i).size + p.length := by
    rw [step.fields]
    exact Nat.le_add_right ..
  have after := resized_alike (m := n) inside fits grows
  have length : (content m.view i).length = (dinodes m.sect i).size := by
    rw [content, List.length_map, List.length_range]
    rfl
  rw [wp_winode inside]
  refine ⟨step.sound.setInode inside _, step.freeinode, ?_⟩
  have isDin : (m.held i (dinodes m.sect i)).ip i = dinodes m.sect i := by rw [held_ip, update_self]
  have within : (dinodes m.sect i).size ≤ ((m.held i (dinodes m.sect i)).ip i).size := by rw [isDin]
  refine ⟨after.intact (intact'.resized within wrote), ?_, ?_, fun j other => ?_, fun x other => ?_, fun j other => ?_,
    fun bn high => ?_, ?_⟩
  · rw [after.content, wrote.content_resized supplies within, alike.content, ← length, List.take_length,
      List.drop_of_length_le (Nat.le_add_right ..), List.append_nil]
  · rw [after.ip, ip_resized, update_self, held_ip, update_self, Nat.max_eq_right grows, step.fields]
    rfl
  · rw [after.ip, ip_resized, update_of_ne other, wrote.more.others.ip other, alike.ip]
  · rw [after.blockAt, blockAt_resized, wrote.more.elsewhere x other, alike.blockAt]
  · rw [after.content, content_resized wrote.more _ other, alike.content]
  · rw [after.blockAt, blockAt_resized, wrote.beyond bn high, alike.blockAt]
  · have spent := wrote.spent
    rw [alike.free, alike.cost] at spent
    rw [after.free]
    exact spent

end

end Xv6.Mkfs
