import Xv6.Fs.BlockFiles

namespace Xv6.Blocks
open Lib Fs

/-! ## The bytes of a file -/

def byteAt (s : State) (i o : Nat) : UInt8 :=
  if s.blockAt (place i (o / BSIZE)) = 0 then 0 else s.data (s.blockAt (place i (o / BSIZE))) (o % BSIZE)

def content (s : State) (i : Nat) : List UInt8 := (List.range (s.ip i).size).map (byteAt s i)

section
variable {W : Rules} {E : Panic → Prop} {s t u : State} {i j m n b off o bn : Nat}

theorem byteAt_of_full (full : s.blockAt (place i (o / BSIZE)) ≠ 0) :
    byteAt s i o = s.data (s.blockAt (place i (o / BSIZE))) (o % BSIZE) := if_neg full

theorem byteAt_congr (blocks : t.blockAt (place j (o / BSIZE)) = s.blockAt (place j (o / BSIZE)))
    (data : s.blockAt (place j (o / BSIZE)) ≠ 0 →
      t.data (s.blockAt (place j (o / BSIZE))) = s.data (s.blockAt (place j (o / BSIZE)))) :
    byteAt t j o = byteAt s j o := by
  by_cases empty : s.blockAt (place j (o / BSIZE)) = 0
  · rw [byteAt, blocks, if_pos empty, byteAt, if_pos empty]
  · rw [byteAt, blocks, if_neg empty, byteAt, if_neg empty, data empty]

theorem place_inode (i bn : Nat) : (place i bn).inode = i := by
  rw [place]
  split <;> rfl

theorem Extends.byteAt (more : Extends i s t) (other : j ≠ i) (o : Nat) : byteAt t j o = Blocks.byteAt s j o := by
  have away : (place j (o / BSIZE)).inode ≠ i := by rwa [place_inode]
  exact byteAt_congr (more.elsewhere _ away) (more.data _ away)

/-! ## Reading -/

theorem Rules.allocated {type : Int} (W : Rules) (whole : W.whole type) : type ≠ 0 := fun free => W.free (free ▸ whole)

theorem min_add_range (m left : Nat) (f : Nat → UInt8) (short : m ≤ left) :
    (List.range m).map f ++ (List.range (left - m)).map (fun k => f (m + k)) = (List.range left).map f := by
  have whole : left = m + (left - m) := by omega
  conv_rhs => rw [whole, List.range_add, List.map_append, List.map_map]
  rfl

theorem ends_readiFrom (kept : Kept s) (allocated : (s.ip i).type ≠ 0) {stop : Nat}
    (hole : ∀ bn < MAXFILE, bn * BSIZE < stop → s.blockAt (place i bn) ≠ 0)
    (range : MAXFILE * BSIZE < stop → E .bmapOutOfRange) (fuel off left : Nat) (inside : off + left ≤ stop)
    (enough : left ≤ fuel) :
    ends (readiFrom i fuel off left) E
      (fun bytes t => t = s ∧ bytes = (List.range left).map fun k => byteAt s i (off + k)) s := by
  induction fuel generalizing off left with
  | zero =>
    obtain rfl : left = 0 := Nat.le_zero.mp enough
    exact (ends_pure ..).mpr ⟨rfl, rfl⟩
  | succ fuel ih =>
    rw [readiFrom]
    by_cases empty : left = 0
    · rw [if_pos empty, ends_pure, empty]
      exact ⟨rfl, rfl⟩
    rw [if_neg empty, ends_bind]
    have floor := Nat.div_mul_le_self off BSIZE
    have beyond (high : MAXFILE ≤ off / BSIZE) : MAXFILE * BSIZE < stop := by
      have := Nat.mul_le_mul_right BSIZE high
      omega
    by_cases high : MAXFILE ≤ off / BSIZE
    · rw [bmap, if_neg (by simp only [MAXFILE] at high; omega), if_neg (by simp only [MAXFILE] at high; omega)]
      exact (ends_throw ..).mpr (range (beyond high))
    have full : s.blockAt (place i (off / BSIZE)) ≠ 0 := hole _ (Nat.lt_of_not_le high) (by omega)
    refine (ends_bmap kept allocated (off / BSIZE) (fun low => absurd low high) fun less => ?_).mono fun b t after => ?_
    · rw [needed_zero allocated full] at less
      exact absurd less (Nat.not_lt_zero _)
    obtain ⟨-, mapped, -⟩ := after
    have here := mapped.at_place
    obtain rfl := mapped.idle full
    simp only [ends_bind, ends_get]
    have pos : 0 < BSIZE - off % BSIZE := Nat.sub_pos_of_lt (Nat.mod_lt _ (by decide))
    refine (ih (off + min left (BSIZE - off % BSIZE)) (left - min left (BSIZE - off % BSIZE)) (by omega) (by omega)).mono ?_
    rintro rest u ⟨rfl, rfl⟩
    refine (ends_pure ..).mpr ⟨rfl, ?_⟩
    rw [← min_add_range (min left (BSIZE - off % BSIZE)) left _ (Nat.min_le_left ..)]
    congr 1
    · refine List.map_congr_left fun k member => ?_
      have below := List.mem_range.mp member
      have same : (off + k) / BSIZE = off / BSIZE := by
        simp only [BSIZE] at below ⊢
        omega
      have inBlock : (off + k) % BSIZE = off % BSIZE + k := by
        simp only [BSIZE] at below ⊢
        omega
      rw [byteAt_of_full (by rwa [same]), same, inBlock, here]
    · exact List.map_congr_left fun k _ => by rw [Nat.add_assoc]

theorem ends_readi (kept : Kept s) (allocated : (s.ip i).type ≠ 0) (hole : NoHole s i)
    (range : MAXFILE * BSIZE < (s.ip i).size → E .bmapOutOfRange) (off n : Nat) :
    ends (readi i off n) E (fun bytes t => t = s ∧ bytes =
      if off > (s.ip i).size ∨ off + n ≥ 2 ^ 32 then [] else ((content s i).drop off).take n) s := by
  simp only [readi, ends_bind, ends_get]
  split
  next => exact (ends_pure ..).mpr ⟨rfl, rfl⟩
  next fits =>
    refine (ends_readiFrom kept allocated hole range _ _ _ (by omega) (Nat.le_refl _)).mono fun bytes t after => ?_
    obtain ⟨rfl, rfl⟩ := after
    refine ⟨rfl, List.ext_getElem ?_ fun k _ _ => ?_⟩
    · simp [content]
    · simp [content]

/-! ## Writing one piece -/

theorem place_ne_table (i bn : Nat) : place i bn ≠ .addr i NDIRECT := by
  rw [place]
  split
  next small =>
    intro same
    simp only [Place.addr.injEq, true_and] at same
    omega
  next => simp

theorem place_inj (same : place i m = place i n) : m = n := by
  rw [place, place] at same
  split at same <;> split at same <;> simp only [Place.addr.injEq, Place.slot.injEq, true_and, reduceCtorEq] at same
  · exact same
  · omega

theorem Grown.setData (grown : Grown i (place i bn) s b t) (c : Bytes) :
    Kept (t.setData b c) ∧ Extends i s (t.setData b c) ∧ (t.setData b c).blockAt = t.blockAt := by
  have noTable (j : Nat) : t.blockAt (.addr j NDIRECT) ≠ b := by
    intro same
    have clash := grown.kept.owned.once _ _ (same ▸ grown.positive) (same.trans grown.at_place.symm)
    obtain rfl : j = i := by
      have inode := congrArg Place.inode clash
      rwa [place_inode] at inode
    exact place_ne_table j bn clash.symm
  have blocks := State.blockAt_setData (c := c) noTable
  refine ⟨⟨?_, grown.kept.reserved⟩,
    ⟨⟨grown.more.sb, grown.more.dinode, grown.more.core, grown.more.fields⟩, ?_, ?_, ?_⟩, blocks⟩
  · rw [blocks]
    exact grown.kept.owned
  · intro x full
    rw [blocks]
    exact grown.more.blocks x full
  · intro x other
    rw [blocks]
    exact grown.more.elsewhere x other
  · intro x other full
    have same := grown.more.blocks x full
    have apart : s.blockAt x ≠ b := by
      intro equal
      have clash := grown.kept.owned.once x _ (same ▸ full) (same.trans (equal.trans grown.at_place.symm))
      rw [clash, place_inode] at other
      exact other rfl
    rw [State.data_setData_of_ne _ _ apart]
    exact grown.more.data x other full

theorem Grown.data_eq (grown : Grown i (place i (o / BSIZE)) s b t) : t.data b (o % BSIZE) = byteAt s i o := by
  by_cases empty : s.blockAt (place i (o / BSIZE)) = 0
  · rw [grown.fresh empty, byteAt, if_pos empty]
  · have here := grown.at_place
    obtain rfl := grown.idle empty
    rw [byteAt_of_full empty, here]

theorem Grown.byteAt_setData (grown : Grown i (place i bn) s b t) (c : Bytes) (o : Nat) :
    byteAt (t.setData b c) i o = if o / BSIZE = bn then c (o % BSIZE) else byteAt s i o := by
  obtain ⟨-, -, blocks⟩ := grown.setData c
  split
  next here =>
    subst here
    rw [byteAt, blocks, grown.at_place, if_neg grown.positive, State.data_setData_self]
  next elsewhere =>
    have apart : place i (o / BSIZE) ≠ place i bn := fun same => elsewhere (place_inj same)
    have same := grown.only _ apart (place_ne_table i _)
    refine byteAt_congr ((congrFun blocks _).trans same) fun full => ?_
    have other : s.blockAt (place i (o / BSIZE)) ≠ b := by grind [grown.kept.owned.once, grown.at_place.symm]
    rw [State.data_setData_of_ne _ _ other]
    exact grown.own _ (place_ne_table i _) full

/-! ## The loop of `writei` -/

def lands (src : Source) : (fuel tot off left : Nat) → Nat × Nat
  | 0, tot, off, _ => (tot, off)
  | fuel + 1, tot, off, left =>
    if left = 0 then (tot, off)
    else
      let m := min left (BSIZE - off % BSIZE)
      if (src tot m).2 then lands src fuel (tot + m) (off + m) (left - m) else (tot, off)

def patch (src : Source) (o : Nat) : (fuel tot off left : Nat) → Option UInt8
  | 0, _, _, _ => none
  | fuel + 1, tot, off, left =>
    if left = 0 then none
    else
      let m := min left (BSIZE - off % BSIZE)
      let copied := (src tot m).1.take m
      if off ≤ o ∧ o < off + copied.length then some (copied.getD (o - off) 0)
      else if (src tot m).2 then patch src o fuel (tot + m) (off + m) (left - m) else none

def needs (s : State) (i m n : Nat) : Nat :=
  ((Finset.Ico m n).filter fun bn => s.blockAt (place i bn) = 0).card +
    if m < n ∧ NDIRECT < n ∧ s.blockAt (.addr i NDIRECT) = 0 then 1 else 0

theorem needs_cons (below : m < n) : needs s i m n =
    (if s.blockAt (place i m) = 0 then 1 else 0) + ((Finset.Ico (m + 1) n).filter fun bn => s.blockAt (place i bn) = 0).card +
      if NDIRECT < n ∧ s.blockAt (.addr i NDIRECT) = 0 then 1 else 0 := by
  have first : m ∉ Finset.Ico (m + 1) n := by
    simp
  have head : Finset.Ico m n = insert m (Finset.Ico (m + 1) n) := by grind
  rw [needs, head, Finset.filter_insert]
  simp only [below, true_and]
  split
  next =>
    rw [Finset.card_insert_of_notMem fun member => first (Finset.mem_of_mem_filter m member), Nat.add_comm 1]
  next => rw [Nat.zero_add]

theorem needed_le (below : m < n) : needed s i m ≤ needs s i m n := by
  rw [needs_cons below, needed]
  by_cases beyond : NDIRECT ≤ m ∧ s.blockAt (.addr i NDIRECT) = 0
  · grind
  · rw [if_neg beyond]
    omega

theorem Grown.needs_le (grown : Grown i (place i m) s b t) (allocated : (s.ip i).type ≠ 0) (below : m < n) :
    needs t i (m + 1) n + needed s i m ≤ needs s i m n := by
  have allocated' : (t.ip i).type ≠ 0 := by rwa [grown.more.fields]
  have rest : ((Finset.Ico (m + 1) n).filter fun bn => t.blockAt (place i bn) = 0) =
      (Finset.Ico (m + 1) n).filter fun bn => s.blockAt (place i bn) = 0 := by
    grind [grown.only, place_inj, place_ne_table]
  have table : (if m + 1 < n ∧ NDIRECT < n ∧ t.blockAt (.addr i NDIRECT) = 0 then 1 else 0) +
      (if NDIRECT ≤ m ∧ s.blockAt (.addr i NDIRECT) = 0 then 1 else 0) ≤
      if NDIRECT < n ∧ s.blockAt (.addr i NDIRECT) = 0 then 1 else 0 := by
    by_cases empty : s.blockAt (.addr i NDIRECT) = 0
    · by_cases beyond : NDIRECT ≤ m
      · have full : t.blockAt (.addr i NDIRECT) ≠ 0 := by
          intro none
          have here := grown.at_place
          rw [place, if_neg (by omega), slot_of_table allocated' none] at here
          exact grown.positive here.symm
        rw [if_neg fun all => full all.2.2, if_pos ⟨beyond, empty⟩, if_pos ⟨by omega, empty⟩]
      · grind
    · have full : t.blockAt (.addr i NDIRECT) ≠ 0 := by rwa [grown.more.blocks _ empty]
      simp [empty, full]
  rw [needs_cons below, needs, needed, rest]
  omega

def cost (s : State) (i off n : Nat) : Nat := if n = 0 then 0 else needs s i (off / BSIZE) ((off + n + BSIZE - 1) / BSIZE)

theorem cost_le (s : State) (i off n : Nat) : cost s i off n ≤ needs s i (off / BSIZE) ((off + n + BSIZE - 1) / BSIZE) := by
  rw [cost]
  split
  next => exact Nat.zero_le _
  next => exact Nat.le_refl _

theorem needed_le_cost (some : n ≠ 0) : needed s i (off / BSIZE) ≤ cost s i off n := by
  rw [cost, if_neg some]
  refine needed_le ?_
  simp only [BSIZE]
  omega

theorem Grown.cost_le (grown : Grown i (place i (off / BSIZE)) s b t) (allocated : (s.ip i).type ≠ 0)
    (isM : min n (BSIZE - off % BSIZE) = m) (some : n ≠ 0) :
    cost t i (off + m) (n - m) + needed s i (off / BSIZE) ≤ cost s i off n := by
  have below : off / BSIZE < (off + n + BSIZE - 1) / BSIZE := by
    simp only [BSIZE]
    omega
  rw [cost, cost, if_neg some]
  split
  next =>
    rw [Nat.zero_add]
    exact needed_le below
  next =>
    have next : (off + m) / BSIZE = off / BSIZE + 1 := by
      simp only [BSIZE] at isM ⊢
      omega
    have same : off + m + (n - m) = off + n := by omega
    rw [next, same]
    exact grown.needs_le allocated below

theorem block_of_offset (low : off ≤ bn * BSIZE) (high : bn * BSIZE < off + m)
    (short : m ≤ BSIZE - off % BSIZE) : bn = off / BSIZE := by
  simp only [BSIZE] at low high short ⊢
  omega

theorem lands_le (src : Source) (fuel tot off left : Nat) : (lands src fuel tot off left).2 ≤ off + left := by
  induction fuel generalizing tot off left with
  | zero => exact Nat.le_add_right ..
  | succ fuel ih =>
    rw [lands]
    split
    next => exact Nat.le_add_right ..
    next =>
      dsimp only
      split
      next =>
        have rest := ih (tot + min left (BSIZE - off % BSIZE)) (off + min left (BSIZE - off % BSIZE))
          (left - min left (BSIZE - off % BSIZE))
        omega
      next => exact Nat.le_add_right ..

theorem patch_of_lt (src : Source) {fuel tot left : Nat} (before : o < off) : patch src o fuel tot off left = none := by
  induction fuel generalizing tot off left with
  | zero => rfl
  | succ fuel ih =>
    have outside (n : Nat) : ¬ (off ≤ o ∧ o < off + n) := by omega
    simp only [patch, if_neg (outside _)]
    split
    next => rfl
    next =>
      split
      next => exact ih (by omega)
      next => rfl

/-- What the loop that is to write `n` bytes does to inode `i`: it ends at `stop`, has put `put o` at
each offset `o` that it wrote, and has mapped every block that starts between `off` and where it ends,
and none after the `n` bytes. -/
structure Written (i off n : Nat) (stop : Nat × Nat) (put : Nat → Option UInt8) (s : State) (done : Nat × Nat) (t : State) :
    Prop where
  kept : Kept t
  more : Extends i s t
  stops : done = stop
  bytes : ∀ o, byteAt t i o = (put o).getD (byteAt s i o)
  mapped : ∀ bn, off ≤ bn * BSIZE → bn * BSIZE < stop.2 → t.blockAt (place i bn) ≠ 0
  beyond : ∀ bn, off + n ≤ bn * BSIZE → t.blockAt (place i bn) = s.blockAt (place i bn)
  spent : s.free ≤ t.free + cost s i off n

theorem Written.none (kept : Kept s) (tot off n : Nat) : Written i off n (tot, off) (fun _ => none) s (tot, off) s :=
  ⟨kept, .refl i s, rfl, fun _ => rfl, fun _ low high => absurd high (Nat.not_lt.mpr low), fun _ _ => rfl, Nat.le_add_right ..⟩

theorem ends_writeiFrom (kept : Kept s) (allocated : (s.ip i).type ≠ 0) (src : Source) (fuel tot off left : Nat)
    (range : MAXFILE * BSIZE < off + left → E .bmapOutOfRange) (room : s.free < cost s i off left → E .outOfBlocks) :
    ends (writeiFrom i src fuel tot off left) E
      (Written i off left (lands src fuel tot off left) (patch src · fuel tot off left) s) s := by
  induction fuel generalizing s tot off left with
  | zero => exact (ends_pure ..).mpr (.none kept tot off _)
  | succ fuel ih =>
    rw [writeiFrom]
    simp only [lands, patch]
    by_cases empty : left = 0
    · simp only [empty, if_true]
      exact (ends_pure ..).mpr (.none kept tot off _)
    simp only [if_neg empty]
    rw [ends_bind]
    generalize isM : min left (BSIZE - off % BSIZE) = m
    refine (ends_bmap kept allocated (off / BSIZE) (fun high => range ?_) fun less =>
      room (Nat.lt_of_lt_of_le less (needed_le_cost empty))).mono fun b t after => ?_
    · grind
    obtain ⟨-, grown, spent⟩ := after
    have bound := grown.cost_le allocated isM empty
    simp only [ends_bind, ends_modify]
    generalize isC : (src tot m).1.take m = copied
    have short : copied.length ≤ m := by
      rw [← isC, List.length_take]
      exact Nat.min_le_left ..
    obtain ⟨kept', more, blocks⟩ := grown.setData (setBytes (t.data b) (off % BSIZE) copied)
    have free_setData : (t.setData b (setBytes (t.data b) (off % BSIZE) copied)).free = t.free := rfl
    have cost_setData : cost (t.setData b (setBytes (t.data b) (off % BSIZE) copied)) i (off + m) (left - m) =
        cost t i (off + m) (left - m) := by rw [cost, cost, needs, blocks, ← needs]
    have bytes (o : Nat) : byteAt (t.setData b (setBytes (t.data b) (off % BSIZE) copied)) i o =
        if off ≤ o ∧ o < off + copied.length then copied.getD (o - off) 0 else byteAt s i o := by
      rw [grown.byteAt_setData]
      by_cases here : o / BSIZE = off / BSIZE
      · rw [← here] at grown
        rw [if_pos here, setBytes, grown.data_eq]
        have window : (off % BSIZE ≤ o % BSIZE ∧ o % BSIZE < off % BSIZE + copied.length) ↔
            (off ≤ o ∧ o < off + copied.length) := by
          simp only [BSIZE] at here ⊢
          omega
        have index : o % BSIZE - off % BSIZE = o - off := by
          simp only [BSIZE] at here ⊢
          omega
        simp only [window, index]
      · grind
    have beyond (bn : Nat) (high : off + left ≤ bn * BSIZE) :
        (t.setData b (setBytes (t.data b) (off % BSIZE) copied)).blockAt (place i bn) = s.blockAt (place i bn) := by
      have apart : bn ≠ off / BSIZE := by grind
      rw [blocks]
      exact grown.only _ (fun same => apart (place_inj same)) (place_ne_table i _)
    have now (bn : Nat) (low : off ≤ bn * BSIZE) (high : bn * BSIZE < off + m) :
        (t.setData b (setBytes (t.data b) (off % BSIZE) copied)).blockAt (place i bn) ≠ 0 := by
      have here := block_of_offset low high (isM ▸ Nat.min_le_right ..)
      rw [blocks, here, grown.at_place]
      exact grown.positive
    split
    next =>
      refine (ih kept' (by rwa [more.fields]) (tot + m) (off + m) (left - m) (fun high => range (by omega))
        fun less => room ?_).mono fun done u after => ?_
      · omega
      · obtain ⟨kept'', more', stops, bytes', mapped, beyond', spent'⟩ := after
        refine ⟨kept'', more.trans more', stops, fun o => ?_, fun bn low high => ?_, fun bn high => ?_, by omega⟩
        · rw [bytes' o, bytes o]
          split
          next window =>
            rw [patch_of_lt src (by omega)]
            rfl
          next => rfl
        · by_cases later : off + m ≤ bn * BSIZE
          · exact mapped bn later high
          · grind [more'.blocks]
        · rw [beyond' bn (by omega)]
          exact beyond bn high
    next =>
      refine (ends_pure ..).mpr
        ⟨kept', more, rfl, fun o => ?_, fun bn low high => absurd high (Nat.not_lt.mpr low), beyond, ?_⟩
      · rw [bytes o]
        split <;> rfl
      · omega

/-! ## `writei` -/

def State.resized (t : State) (i off : Nat) : State :=
  (t.setIp i { t.ip i with size := max (t.ip i).size off }).update i

theorem blockAt_resized (t : State) (i off : Nat) : (t.resized i off).blockAt = t.blockAt := by
  rw [State.resized, State.blockAt_update]
  exact State.blockAt_setIp _ rfl rfl

theorem ends_writei (kept : Kept s) (allocated : (s.ip i).type ≠ 0) (src : Source) (off n : Nat)
    (room : s.free < cost s i off n → E .outOfBlocks) :
    ends (writei i src off n) E (fun done t =>
      if off > (s.ip i).size ∨ off + n ≥ 2 ^ 32 ∨ off + n > MAXFILE * BSIZE then done = none ∧ t = s
      else done = some (lands src n 0 off n).1 ∧
        ∃ u, Written i off n (lands src n 0 off n) (patch src · n 0 off n) s (lands src n 0 off n) u ∧
          t = u.resized i (lands src n 0 off n).2) s := by
  simp only [writei, ends_bind, ends_get]
  split
  next wraps =>
    refine (ends_pure ..).mpr ?_
    rw [if_pos (by omega)]
    exact ⟨rfl, rfl⟩
  next fits =>
    split
    next long =>
      refine (ends_pure ..).mpr ?_
      rw [if_pos (by omega)]
      exact ⟨rfl, rfl⟩
    next short =>
      refine (ends_writeiFrom kept allocated src n 0 off n (fun long => absurd long short) room).bind
        fun done t after => ?_
      obtain rfl := after.stops
      simp only [iupdate, ends_bind, ends_modify, ends_pure]
      rw [if_neg (by omega)]
      exact ⟨trivial, t, after, rfl⟩

theorem ends_writei_good (good : Good W s) (allocated : (s.ip i).type ≠ 0) (src : Source) (off n : Nat) :
    ends (writei i src off n) Sound (fun _ t => Good W t ∧ Others i s t ∧ (t.ip i).type = (s.ip i).type) s := by
  refine (ends_writei good.kept allocated src off n fun _ => nofun).mono fun done t after => ?_
  split at after
  next =>
    obtain ⟨-, rfl⟩ := after
    exact ⟨good, .refl i t, rfl⟩
  next fits =>
    obtain ⟨-, u, wrote, rfl⟩ := after
    have bound := lands_le src n 0 off n
    have busy := (good.busy allocated).extends wrote.kept wrote.more
    have size : (u.ip i).size = (s.ip i).size := by rw [wrote.more.fields]
    have type : (u.ip i).type = (s.ip i).type := by rw [wrote.more.fields]
    have whole (dir : W.whole (u.ip i).type) (bn : Nat) (small : bn < MAXFILE)
        (below : bn * BSIZE < max (u.ip i).size (lands src n 0 off n).2) : u.blockAt (place i bn) ≠ 0 := by
      by_cases old : bn * BSIZE < (s.ip i).size
      · have full := good.whole i (type ▸ dir) bn small old
        rw [wrote.more.blocks _ full]
        exact full
      · grind [wrote.mapped]
    have small : W.fits (max (u.ip i).size (lands src n 0 off n).2) := by grind [W.small, good.fits]
    obtain ⟨good', others, isIp⟩ := busy.finish (d := { u.ip i with size := max (u.ip i).size (lands src n 0 off n).2 })
      rfl rfl whole small
    refine ⟨good', wrote.more.others.trans others, ?_⟩
    rw [State.resized, isIp]
    exact type

end

end Xv6.Blocks
