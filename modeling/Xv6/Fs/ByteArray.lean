import Xv6.Fs.Holes

namespace Xv6.Blocks
open Lib Fs Function

/-! ## Sources -/

def Supplies (src : Source) (f : Nat → UInt8) (r n : Nat) : Prop :=
  ∀ tot m, tot ≤ r → tot + m ≤ n →
    src tot m = ((List.range (min m (r - tot))).map fun k => f (tot + k), decide (tot + m ≤ r))

def stopAt (off r n : Nat) : Nat := if n ≤ r then off + n else max off ((off + r) / BSIZE * BSIZE)

section
variable {src : Source} {f : Nat → UInt8} {r n off tot k left fuel : Nat} {s t : State} {i : Nat}

theorem Supplies.length (supplies : Supplies src f r n) {m : Nat} (start : tot ≤ r) (total : tot + m ≤ n) :
    ((src tot m).1.take m).length = min m (r - tot) := by
  simp [supplies tot m start total]

theorem Supplies.getD (supplies : Supplies src f r n) {m : Nat} (start : tot ≤ r) (total : tot + m ≤ n)
    (below : k < min m (r - tot)) : ((src tot m).1.take m).getD k 0 = f (tot + k) := by
  have short : k < ((src tot m).1.take m).length := by rwa [supplies.length start total]
  rw [List.getD_eq_getElem _ _ short]
  simp [supplies tot m start total]

theorem piece_pos (off : Nat) (some : left ≠ 0) : 0 < min left (BSIZE - off % BSIZE) := by
  have inBlock := Nat.mod_lt off (show 0 < BSIZE by decide)
  omega

theorem Supplies.lands (supplies : Supplies src f r n) (off : Nat) (start : tot ≤ r)
    (total : tot + left = n) (enough : left ≤ fuel) :
    lands src fuel tot off left = (tot + (stopAt off (r - tot) left - off), stopAt off (r - tot) left) := by
  induction fuel generalizing tot off left with
  | zero =>
    obtain rfl : left = 0 := Nat.le_zero.mp enough
    simp [Blocks.lands, stopAt]
  | succ fuel ih =>
    rw [Blocks.lands]
    split
    next none => simp [stopAt, none]
    next some =>
      dsimp only
      generalize isM : min left (BSIZE - off % BSIZE) = m
      rw [supplies tot m start (by omega)]
      simp only [decide_eq_true_eq]
      have pos := piece_pos off some
      split
      next more =>
        have next : stopAt (off + m) (r - (tot + m)) (left - m) = stopAt off (r - tot) left := by
          simp only [stopAt, BSIZE] at isM ⊢
          split <;> split <;> omega
        have grows : off + m ≤ stopAt off (r - tot) left := by
          rw [← next, stopAt]
          split <;> omega
        rw [ih (off + m) more (by omega) (by omega), next]
        simp only [Prod.mk.injEq, and_true]
        omega
      next less =>
        have here : stopAt off (r - tot) left = off := by
          simp only [stopAt, BSIZE] at isM ⊢
          split <;> omega
        simp [here]

theorem Supplies.patch (supplies : Supplies src f r n) (o : Nat) (start : tot ≤ r)
    (total : tot + left = n) (enough : left ≤ fuel) :
    patch src o fuel tot off left = if off ≤ o ∧ o < off + min left (r - tot) then some (f (tot + (o - off))) else none := by
  induction fuel generalizing tot off left with
  | zero =>
    obtain rfl : left = 0 := Nat.le_zero.mp enough
    rw [Blocks.patch, if_neg (by omega)]
  | succ fuel ih =>
    rw [Blocks.patch]
    split
    next none => rw [if_neg (by omega)]
    next some =>
      dsimp only
      generalize isM : min left (BSIZE - off % BSIZE) = m
      have pos := piece_pos off some
      rw [supplies.length start (by omega)]
      split
      next here =>
        rw [supplies.getD start (by omega) (by omega), if_pos (by omega)]
      next beyond =>
        rw [supplies tot m start (by omega)]
        simp only [decide_eq_true_eq]
        split
        next more =>
          rw [ih more (by omega) (by omega)]
          by_cases later : off + m ≤ o ∧ o < off + m + min (left - m) (r - (tot + m))
          · rw [if_pos later, if_pos (by omega)]
            have same : tot + m + (o - (off + m)) = tot + (o - off) := by omega
            rw [same]
          · rw [if_neg later, if_neg (by omega)]
        next less => rw [if_neg (by omega)]

/-! ## The bytes that a write leaves -/

theorem splice (g : Nat → UInt8) {size : Nat} (inside : off ≤ size) :
    ((List.range size).map g).take off ++ (List.range k).map f ++ ((List.range size).map g).drop (off + k) =
      (List.range (max size (off + k))).map fun o => if off ≤ o ∧ o < off + k then f (o - off) else g o := by
  refine List.ext_getElem ?_ fun o low high => ?_
  · grind
  · simp only [List.getElem_append, List.length_append, List.length_take, List.length_map, List.length_range,
      Nat.min_eq_left inside, List.getElem_map, List.getElem_range, List.getElem_take, List.getElem_drop]
    by_cases before : o < off
    · rw [dif_pos (by omega), dif_pos before, if_neg (by omega)]
    · grind

theorem content_eq_iff (inside : off ≤ (s.ip i).size) (size : (t.ip i).size = max (s.ip i).size (off + k)) :
    content t i = (content s i).take off ++ (List.range k).map f ++ (content s i).drop (off + k) ↔
      ∀ o < max (s.ip i).size (off + k), byteAt t i o = if off ≤ o ∧ o < off + k then f (o - off) else byteAt s i o := by
  rw [content, content, splice _ inside, size, List.map_inj_left]
  simp only [List.mem_range]

theorem byteAt_resized (t : State) (i off j o : Nat) : byteAt (t.resized i off) j o = byteAt t j o :=
  byteAt_congr (congrFun (blockAt_resized t i off) _) fun _ => rfl

theorem ip_resized (t : State) (i off : Nat) :
    (t.resized i off).ip = update t.ip i { t.ip i with size := max (t.ip i).size off } := by
  rw [State.resized, State.ip_update, State.ip_setIp]

theorem content_resized {u : State} (more : Extends i s u) (off : Nat) {j : Nat} (other : j ≠ i) :
    content (u.resized i off) j = content s j := by
  have same : ((u.resized i off).ip j) = s.ip j := by
    rw [ip_resized, update_of_ne other, more.others.ip other]
  rw [content, content, same]
  exact List.map_congr_left fun o _ => (byteAt_resized u i off j o).trans (more.byteAt other o)

end

/-! ## Files as byte arrays -/

structure Intact (s : State) (i : Nat) : Prop where
  owned : s.Owned
  reserved : ∀ b < s.sb.dataStart, s.bit b = true
  allocated : (s.ip i).type ≠ 0
  whole : ∀ bn < ((s.ip i).size + BSIZE - 1) / BSIZE, s.blockAt (place i bn) ≠ 0

section
variable {s : State} {i n : Nat} {done : Nat × Nat}

section

variable (intact : Intact s i)

include intact

theorem Intact.kept : Kept s := ⟨intact.owned, intact.reserved⟩

theorem Intact.noHole : NoHole s i := fun _ _ below => intact.whole _ (index_lt_iff.mpr below)

theorem Intact.small : (s.ip i).size ≤ MAXFILE * BSIZE := by
  by_contra long
  exact intact.whole MAXFILE (index_lt_iff.mpr (by omega)) (blockAt_beyond (Nat.le_refl _))

theorem Intact.readi (off n : Nat) :
    (readi i off n).run s =
      .ok (if off > (s.ip i).size ∨ off + n ≥ 2 ^ 32 then [] else ((content s i).drop off).take n, s) := by
  have small := intact.small
  obtain ⟨bytes, t, ran, rfl, rfl⟩ := (wp_of_ends (ends_readi intact.kept intact.allocated intact.noHole
    (fun long => absurd long (Nat.not_lt.mpr small)) off n)).run_eq
  exact ran

theorem Intact.resized {u : State} {stop : Nat × Nat} {put : Nat → Option UInt8} (inside : off ≤ (s.ip i).size)
    (wrote : Written i off n stop put s done u) :
    Intact (u.resized i stop.2) i where
  owned := by
    rw [State.Owned, blockAt_resized]
    exact wrote.kept.owned
  reserved := wrote.kept.reserved
  allocated := by
    rw [ip_resized, update_self, wrote.more.fields]
    exact intact.allocated
  whole bn below := by
    rw [index_lt_iff, ip_resized, update_self, wrote.more.fields] at below
    rw [blockAt_resized]
    by_cases old : bn * BSIZE < (s.ip i).size
    · have full := intact.whole bn (index_lt_iff.mpr old)
      rwa [wrote.more.blocks _ full]
    · have new : bn * BSIZE < max (s.ip i).size stop.2 := below
      exact wrote.mapped bn (by omega) (by omega)

end

end

variable {bytes : List UInt8} {src : Source}

theorem supplies_of_readable (readable : ∀ tot m, tot + m ≤ bytes.length → src tot m = ((bytes.drop tot).take m, true)) :
    Supplies src (fun k => bytes.getD k 0) bytes.length bytes.length := by
  intro tot m start total
  rw [readable tot m total]
  refine Prod.ext (List.ext_getElem ?_ fun k low high => ?_) (decide_eq_true total).symm
  · simp
  · grind

theorem map_getD_range (bytes : List UInt8) : (List.range bytes.length).map (fun k => bytes.getD k 0) = bytes := by
  refine List.ext_getElem (by simp) fun k _ below => ?_
  simp only [List.getElem_map, List.getElem_range]
  exact List.getD_eq_getElem _ _ below

section
variable {s u : State} {i off : Nat} {src : Source} {bytes : List UInt8}

section

variable (supplies : Supplies src (fun k => bytes.getD k 0) bytes.length bytes.length)

include supplies

theorem Supplies.lands_all (off : Nat) :
    Blocks.lands src bytes.length 0 off bytes.length = (bytes.length, off + bytes.length) := by
  have stop : stopAt off bytes.length bytes.length = off + bytes.length := if_pos (Nat.le_refl _)
  rw [supplies.lands off (Nat.zero_le _) (Nat.zero_add _) (Nat.le_refl _), Nat.sub_zero, stop, Nat.zero_add,
    Nat.add_sub_cancel_left]

theorem Written.content_resized (inside : off ≤ (s.ip i).size)
    (wrote : Written i off n (bytes.length, off + bytes.length) (Blocks.patch src · bytes.length 0 off bytes.length) s done u) :
    content (u.resized i (off + bytes.length)) i =
      (content s i).take off ++ bytes ++ (content s i).drop (off + bytes.length) := by
  have size : ((u.resized i (off + bytes.length)).ip i).size = max (s.ip i).size (off + bytes.length) := by
    rw [ip_resized, update_self, wrote.more.fields]
  have pointwise := (content_eq_iff (f := fun k => bytes.getD k 0) inside size).mpr fun o _ => ?_
  · rwa [map_getD_range] at pointwise
  · rw [byteAt_resized, wrote.bytes, supplies.patch o (Nat.zero_le _) (Nat.zero_add _) (Nat.le_refl _), Nat.sub_zero,
      Nat.min_self, Nat.zero_add]
    split <;> rfl

end

end

structure Rewritten (i off : Nat) (bytes : List UInt8) (s t : State) : Prop where
  intact : Intact t i
  content : content t i = (content s i).take off ++ bytes ++ (content s i).drop (off + bytes.length)
  size : (t.ip i).size = max (s.ip i).size (off + bytes.length)
  type : (t.ip i).type = (s.ip i).type
  others : ∀ j ≠ i, Blocks.content t j = Blocks.content s j

theorem Intact.ends_writei {s : State} {i : Nat} {E : Panic → Prop} (intact : Intact s i)
    (readable : ∀ tot m, tot + m ≤ bytes.length → src tot m = ((bytes.drop tot).take m, true)) (inside : off ≤ (s.ip i).size)
    (short : off + bytes.length ≤ MAXFILE * BSIZE) (room : s.free < cost s i off bytes.length → E .outOfBlocks) :
    ends (writei i src off bytes.length) E (fun done t => done = some bytes.length ∧ Rewritten i off bytes s t) s := by
  have supplies := supplies_of_readable readable
  refine (Blocks.ends_writei intact.kept intact.allocated src off bytes.length room).mono fun done t after => ?_
  have fits : ¬ (off > (s.ip i).size ∨ off + bytes.length ≥ 2 ^ 32 ∨ off + bytes.length > MAXFILE * BSIZE) := by
    grind
  rw [if_neg fits, supplies.lands_all] at after
  obtain ⟨rfl, u, wrote, rfl⟩ := after
  refine ⟨rfl, intact.resized inside wrote, wrote.content_resized supplies inside, ?_, ?_, fun j other =>
    content_resized wrote.more _ other⟩
  · rw [ip_resized, update_self, wrote.more.fields]
  · rw [ip_resized, update_self, wrote.more.fields]

theorem files_are_byte_arrays (s : State) (i : Nat) (intact : Intact s i) :
    (∀ (off : Nat) (bytes : List UInt8) (src : Source), off ≤ (s.ip i).size → off + bytes.length ≤ MAXFILE * BSIZE →
      (∀ tot m, tot + m ≤ bytes.length → src tot m = ((bytes.drop tot).take m, true)) →
      needs s i (off / BSIZE) ((off + bytes.length + BSIZE - 1) / BSIZE) ≤ s.free →
      ∃ t, (writei i src off bytes.length).run s = .ok (some bytes.length, t) ∧ Intact t i ∧
        content t i = (content s i).take off ++ bytes ++ (content s i).drop (off + bytes.length) ∧
        (t.ip i).size = max (s.ip i).size (off + bytes.length) ∧
        ∀ j ≠ i, content t j = content s j) ∧
    ∀ off n, (readi i off n).run s =
      .ok (if off > (s.ip i).size ∨ off + n ≥ 2 ^ 32 then [] else ((content s i).drop off).take n, s) := by
  refine ⟨fun off bytes src inside short readable room => ?_, intact.readi⟩
  obtain ⟨done, t, ran, rfl, after⟩ := (wp_of_ends (intact.ends_writei readable inside short
    fun less => absurd (Nat.le_trans (cost_le ..) room) (Nat.not_le.mpr less))).run_eq
  exact ⟨t, ran, after.intact, after.content, after.size, after.others⟩

/-- Inode 1 has its bytes in block 5. -/
def oneBlock (type : Int) (bytes : List UInt8) : State :=
  { bare type bytes.length (· < 6) with
    dinode := update (fun _ => ⟨0, 0, 0, 0, 0, fun _ => 0⟩) 1
      ⟨type, 0, 0, 1, bytes.length, fun k => if k = 0 then 5 else 0⟩
    data := fun b => if b = 5 then (bytes.getD · 0) else fun _ => 0 }

section
variable {type : Int} (bytes : List UInt8) (typed : type ≠ 0)

include typed

theorem oneBlock_blockAt (x : Place) : (oneBlock type bytes).blockAt x = if x = .addr 1 0 then 5 else 0 := by
  have isIp : (oneBlock type bytes).ip 1 = ⟨type, 0, 0, 1, bytes.length, fun k => if k = 0 then 5 else 0⟩ := rfl
  have free (i : Nat) (other : i ≠ 1) : ((oneBlock type bytes).ip i).type = 0 := by
    simp [oneBlock, State.ip, bare, other]
  cases x with
  | addr i k =>
    by_cases one : i = 1
    · subst one
      by_cases first : k = 0 <;> simp [State.blockAt, isIp, typed, first]
    · simp [State.blockAt, one, free i one]
  | slot i j =>
    by_cases one : i = 1
    · subst one
      simp [State.blockAt, isIp]
    · simp [State.blockAt, free i one]

theorem oneBlock_intact (short : bytes.length ≤ BSIZE) : Intact (oneBlock type bytes) 1 where
  owned := {
    range := by
      intro x full
      rw [oneBlock_blockAt bytes typed] at full ⊢
      split at full
      next here =>
        rw [if_pos here]
        exact ⟨Nat.le_refl 5, show 5 < 10 by decide⟩
      next => exact absurd rfl full
    once := by
      intro x y full same
      rw [oneBlock_blockAt bytes typed] at full
      rw [oneBlock_blockAt bytes typed, oneBlock_blockAt bytes typed] at same
      split at full
      next here =>
        rw [if_pos here] at same
        split at same
        next there => rw [here, there]
        next => exact absurd same (by decide)
      next => exact absurd rfl full
    marked := by
      intro b low high
      have low : 5 ≤ b := low
      have used : (oneBlock type bytes).bit b = decide (b < 6) := rfl
      rw [used, decide_eq_true_eq]
      constructor
      · intro below
        refine ⟨.addr 1 0, ?_⟩
        rw [oneBlock_blockAt bytes typed, if_pos rfl]
        omega
      · rintro ⟨x, holds⟩
        rw [oneBlock_blockAt bytes typed] at holds
        split at holds <;> omega }
  reserved b below := by
    have below : b < 5 := below
    exact decide_eq_true (by omega)
  allocated := typed
  whole bn below := by
    have size : ((oneBlock type bytes).ip 1).size = bytes.length := rfl
    simp only [size, BSIZE] at below short
    obtain rfl : bn = 0 := by omega
    rw [oneBlock_blockAt bytes typed]
    decide

end

theorem files_are_byte_arrays_write :
    ∃ t, (writei 1 (kernelBytes [7, 8]) 2 2).run (oneBlock T_FILE [1, 2, 3]) = .ok (some 2, t) ∧ content t 1 = [1, 2, 7, 8] ∧
      (readi 1 1 9).run (oneBlock T_FILE [1, 2, 3]) = .ok ([2, 3], oneBlock T_FILE [1, 2, 3]) := by
  obtain ⟨write, read⟩ := files_are_byte_arrays _ 1 (oneBlock_intact [1, 2, 3] (by decide : T_FILE ≠ 0) (by decide))
  obtain ⟨t, ran, -, bytes, -⟩ := write 2 [7, 8] (kernelBytes [7, 8]) (by decide) (by decide) (fun _ _ _ => rfl)
    (by decide +kernel)
  exact ⟨t, ran, bytes, read 1 9⟩

/-! ## A source in user memory -/

section
variable (pages : Nat → Option Bytes)

def walkaddr (va : Nat) : Option Bytes := if va ≥ MAXVA then none else pages (va / PGSIZE)

def copyin : (fuel srcva len : Nat) → List UInt8 × Bool
  | 0, _, _ => ([], true)
  | fuel + 1, srcva, len =>
    if len = 0 then ([], true)
    else
      let va0 := srcva / PGSIZE * PGSIZE
      match walkaddr pages va0 with
      | none => ([], false)
      | some page =>
        let n := min len (PGSIZE - (srcva - va0))
        let rest := copyin fuel (va0 + PGSIZE) (len - n)
        ((List.range n).map (fun k => page (srcva - va0 + k)) ++ rest.1, rest.2)

def userBytes (src : Nat) : Source := fun tot m => copyin pages m (src + tot) m

def userByte (va : Nat) : UInt8 :=
  match walkaddr pages (va / PGSIZE * PGSIZE) with
  | some page => page (va % PGSIZE)
  | none => 0

def isMapped (va : Nat) : Bool := (walkaddr pages (va / PGSIZE * PGSIZE)).isSome

def readable : (src n : Nat) → Nat
  | _, 0 => 0
  | src, n + 1 => if isMapped pages src then readable (src + 1) n + 1 else 0

variable {pages}

theorem isMapped_of_readable {src : Nat} (below : k < readable pages src n) : isMapped pages (src + k) = true := by
  induction n generalizing src k with
  | zero => exact absurd below (Nat.not_lt_zero k)
  | succ n ih =>
    rw [readable] at below
    split at below
    next mapped =>
      cases k with
      | zero => exact mapped
      | succ k =>
        have next := ih (Nat.lt_of_succ_lt_succ below)
        rwa [Nat.add_assoc, Nat.add_comm 1] at next
    next => exact absurd below (Nat.not_lt_zero k)

theorem not_isMapped_readable (src : Nat) (short : readable pages src n < n) :
    isMapped pages (src + readable pages src n) = false := by
  induction n generalizing src with
  | zero => exact absurd short (Nat.not_lt_zero _)
  | succ n ih =>
    rw [readable] at short ⊢
    split at short
    next mapped =>
      have next := ih (src + 1) (Nat.lt_of_succ_lt_succ short)
      rw [if_pos mapped]
      rwa [Nat.add_assoc, Nat.add_comm 1] at next
    next unmapped =>
      rw [if_neg unmapped]
      exact Bool.not_eq_true _ ▸ unmapped

theorem copyin_zero (fuel srcva : Nat) : copyin pages fuel srcva 0 = ([], true) := by
  cases fuel <;> rfl

theorem copyin_eq {srcva len q : Nat} (below : ∀ k < q, isMapped pages (srcva + k) = true)
    (gap : q < len → isMapped pages (srcva + q) = false) (enough : len ≤ fuel) :
    copyin pages fuel srcva len =
      ((List.range (min len q)).map fun k => userByte pages (srcva + k), decide (len ≤ q)) := by
  induction fuel generalizing srcva len q with
  | zero =>
    obtain rfl : len = 0 := Nat.le_zero.mp enough
    simp [copyin]
  | succ fuel ih =>
    rw [copyin]
    split
    next none => simp [none]
    next some =>
      dsimp only
      cases found : walkaddr pages (srcva / PGSIZE * PGSIZE) with
      | none =>
        have unmapped : isMapped pages srcva = false := by simp [isMapped, found]
        obtain rfl : q = 0 := by
          by_contra pos
          have mapped := below 0 (Nat.pos_of_ne_zero pos)
          rw [Nat.add_zero, unmapped] at mapped
          exact absurd mapped (by decide)
        have more : ¬ len ≤ 0 := by omega
        simp [more]
      | some page =>
        dsimp only
        generalize isN : min len (PGSIZE - (srcva - srcva / PGSIZE * PGSIZE)) = n
        have pos : 0 < n := by
          simp only [PGSIZE] at isN
          omega
        have samePage (k : Nat) (within : k < n) : (srcva + k) / PGSIZE * PGSIZE = srcva / PGSIZE * PGSIZE := by
          simp only [PGSIZE] at isN ⊢
          omega
        have reach : n ≤ q := by
          by_contra less
          have unmapped := gap (by omega)
          rw [isMapped, samePage q (by omega), found] at unmapped
          exact Bool.noConfusion unmapped
        have first : (List.range n).map (fun k => page (srcva - srcva / PGSIZE * PGSIZE + k)) =
            (List.range n).map fun k => userByte pages (srcva + k) := by
          refine List.map_congr_left fun k member => ?_
          have within := List.mem_range.mp member
          have offset : (srcva + k) % PGSIZE = srcva - srcva / PGSIZE * PGSIZE + k := by
            simp only [PGSIZE] at isN ⊢
            omega
          rw [userByte, samePage k within, found]
          rw [offset]
        -- the next page starts where this piece ends, unless the piece was the last
        have next (k : Nat) : len - n ≠ 0 → srcva / PGSIZE * PGSIZE + PGSIZE + k = srcva + (n + k) := by
          simp only [PGSIZE] at isN ⊢
          omega
        by_cases last : len - n = 0
        · have done : len = n := by omega
          rw [last, first, copyin_zero]
          simp [done, reach]
        · rw [ih (q := q - n) ?below ?gap (by omega), first]
          case below =>
            intro k small
            rw [next k last]
            exact below _ (by omega)
          case gap =>
            intro short
            have unmapped := gap (by omega)
            rwa [next (q - n) last, Nat.add_sub_cancel' reach]
          have total : min len q = n + min (len - n) (q - n) := by omega
          have same : (len - n ≤ q - n) = (len ≤ q) := propext (by omega)
          rw [total, List.range_add, List.map_append, List.map_map]
          simp only [same, Prod.mk.injEq, and_true]
          exact congrArg _ (List.map_congr_left fun k _ => congrArg _ (next k last))

theorem userBytes_supplies (pages : Nat → Option Bytes) (src n : Nat) :
    Supplies (userBytes pages src) (fun k => userByte pages (src + k)) (readable pages src n) n := by
  intro tot m start total
  rw [userBytes, copyin_eq (q := readable pages src n - tot) ?below ?gap (Nat.le_refl m)]
  case below =>
    intro k small
    rw [Nat.add_assoc]
    exact isMapped_of_readable (n := n) (by omega)
  case gap =>
    intro short
    have unmapped := not_isMapped_readable src (show readable pages src n < n by omega)
    rwa [Nat.add_assoc, Nat.add_sub_cancel' start]
  have same : (m ≤ readable pages src n - tot) = (tot + m ≤ readable pages src n) := propext (by omega)
  simp only [same, Nat.add_assoc]

end

end Xv6.Blocks
