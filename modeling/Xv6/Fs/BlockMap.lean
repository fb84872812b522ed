import Xv6.Lib.Allocation
import Xv6.Fs.Blocks

namespace Xv6.Blocks
open Lib Fs Function

/-! ## Words -/

theorem word_zero (j : Nat) : word (fun _ => 0) j = 0 := rfl

theorem word_setWord_self (c : Bytes) (j : Nat) {v : Nat} (fits : v < 2 ^ 32) : word (setWord c j v) j = v := by
  simp only [word, setWord, if_true, UInt8.toNat_ofNat']
  rw [if_neg (by omega), if_neg (by omega), if_neg (by omega), if_neg (by omega), if_neg (by omega), if_neg (by omega)]
  simp only [UInt8.toNat_ofNat']
  omega

theorem word_setWord_of_ne (c : Bytes) {j k : Nat} (v : Nat) (other : k ≠ j) : word (setWord c j v) k = word c k := by
  have keeps (d : Nat) (small : d < 4) : setWord c j v (4 * k + d) = c (4 * k + d) := by
    simp only [setWord]
    rw [if_neg (by omega), if_neg (by omega), if_neg (by omega), if_neg (by omega)]
  have first := keeps 0 (by decide)
  simp only [Nat.add_zero] at first
  simp only [word, first, keeps 1 (by decide), keeps 2 (by decide), keeps 3 (by decide)]

/-! ## The view of the inodes -/

namespace State
variable (s : State) (i j k b : Nat) (d : Dinode) (c : Bytes) (used : Bool)

@[simp] theorem ip_setIp : (s.setIp i d).ip = Function.update s.ip i d := by
  funext j
  by_cases same : j = i
  · subst same
    simp [ip, setIp]
  · simp [ip, setIp, same]

@[simp] theorem ip_setData : (s.setData b c).ip = s.ip := rfl

@[simp] theorem ip_setBit : (s.setBit b used).ip = s.ip := rfl

@[simp] theorem ip_update : (s.update i).ip = s.ip := by
  funext j
  by_cases same : j = i
  · subst same
    cases cached : s.core j <;> simp [ip, update, cached]
  · simp [ip, update, same]

@[simp] theorem data_setIp : (s.setIp i d).data = s.data := rfl

theorem data_setData_self : (s.setData b c).data b = c := update_self ..

variable {b} in
theorem data_setData_of_ne {b' : Nat} (other : b' ≠ b) : (s.setData b c).data b' = s.data b' :=
  update_of_ne other ..

variable {s} in
theorem blockAt_congr {t : State} (ips : t.ip = s.ip) (data : t.data = s.data) : t.blockAt = s.blockAt := by
  funext x
  cases x <;> simp only [blockAt, ips, data]

@[simp] theorem blockAt_setBit : (s.setBit b used).blockAt = s.blockAt := blockAt_congr rfl rfl

@[simp] theorem blockAt_update : (s.update i).blockAt = s.blockAt := blockAt_congr (ip_update s i) rfl

variable {s i j k b c}

theorem blockAt_addr (allocated : (s.ip i).type ≠ 0) (small : k ≤ NDIRECT) : s.blockAt (.addr i k) = (s.ip i).addrs k :=
  if_pos ⟨allocated, small⟩

theorem blockAt_slot (allocated : (s.ip i).type ≠ 0) (small : j < NINDIRECT) (table : (s.ip i).addrs NDIRECT ≠ 0) :
    s.blockAt (.slot i j) = word (s.data ((s.ip i).addrs NDIRECT)) j :=
  if_pos ⟨allocated, small, table⟩

theorem blockAt_slot_congr {t : State} (same : t.ip i = s.ip i)
    (words : s.blockAt (.addr i NDIRECT) ≠ 0 → s.blockAt (.addr i NDIRECT) = (s.ip i).addrs NDIRECT →
      word (t.data ((s.ip i).addrs NDIRECT)) j = word (s.data ((s.ip i).addrs NDIRECT)) j) :
    t.blockAt (.slot i j) = s.blockAt (.slot i j) := by
  simp only [blockAt, same]
  split
  next there =>
    have held := blockAt_addr there.1 (Nat.le_refl NDIRECT)
    exact words (held ▸ there.2.2) held
  next => rfl

theorem blockAt_setData (noTable : ∀ i, s.blockAt (.addr i NDIRECT) ≠ b) : (s.setData b c).blockAt = s.blockAt := by
  funext x
  cases x with
  | addr i k => rfl
  | slot i j =>
    refine blockAt_slot_congr rfl fun _ held => ?_
    have other : (s.ip i).addrs NDIRECT ≠ b := held ▸ noTable i
    simp only [setData, update_of_ne other]

theorem blockAt_setIp (type : d.type = (s.ip i).type) (addrs : d.addrs = (s.ip i).addrs) :
    (s.setIp i d).blockAt = s.blockAt := by
  have same (j : Nat) : ((s.setIp i d).ip j).type = (s.ip j).type ∧ ((s.setIp i d).ip j).addrs = (s.ip j).addrs := by
    by_cases isI : j = i
    · subst isI
      simpa using ⟨type, addrs⟩
    · simp [isI]
  funext x
  cases x <;> simp only [blockAt, same, data_setIp]

theorem blockAt_setAddr (allocated : (s.ip i).type ≠ 0) (small : k < NDIRECT) :
    (s.setAddr i k b).blockAt = Function.update s.blockAt (.addr i k) b := by
  have table : Function.update (s.ip i).addrs k b NDIRECT = (s.ip i).addrs NDIRECT :=
    update_of_ne (by omega) ..
  funext x
  cases x with
  | addr j m =>
    by_cases isI : j = i
    · subst isI
      by_cases isK : m = k
      · subst isK
        simp [blockAt, setAddr, allocated, Nat.le_of_lt small]
      · simp [blockAt, setAddr, isK]
    · simp [blockAt, setAddr, isI]
  | slot j m =>
    by_cases isI : j = i
    · subst isI
      simp [blockAt, setAddr, table]
    · simp [blockAt, setAddr, isI]

theorem blockAt_setTable (allocated : (s.ip i).type ≠ 0) (none : (s.ip i).addrs NDIRECT = 0)
    (zero : ∀ j, word (s.data b) j = 0) :
    (s.setAddr i NDIRECT b).blockAt = Function.update s.blockAt (.addr i NDIRECT) b := by
  funext x
  cases x with
  | addr j m =>
    by_cases isI : j = i
    · subst isI
      by_cases isK : m = NDIRECT
      · subst isK
        simp [blockAt, setAddr, allocated]
      · simp [blockAt, setAddr, isK]
    · simp [blockAt, setAddr, isI]
  | slot j m =>
    by_cases isI : j = i
    · subst isI
      simp [blockAt, setAddr, zero, none]
    · simp [blockAt, setAddr, isI]

theorem blockAt_setWord {v : Nat} (allocated : (s.ip i).type ≠ 0) (small : j < NINDIRECT)
    (table : (s.ip i).addrs NDIRECT ≠ 0) (fits : v < 2 ^ 32)
    (alone : ∀ m ≠ i, s.blockAt (.addr m NDIRECT) ≠ (s.ip i).addrs NDIRECT) :
    (s.setData ((s.ip i).addrs NDIRECT) (setWord (s.data ((s.ip i).addrs NDIRECT)) j v)).blockAt
      = Function.update s.blockAt (.slot i j) v := by
  funext x
  cases x with
  | addr m k =>
    rfl
  | slot m k =>
    by_cases here : m = i ∧ k = j
    · obtain ⟨rfl, rfl⟩ := here
      rw [update_self, blockAt_slot (by simpa using allocated) small (by simpa using table)]
      rw [ip_setData]
      simp only [setData, update_self]
      exact word_setWord_self _ _ fits
    · have other : Place.slot m k ≠ .slot i j := by simpa using here
      rw [update_of_ne other]
      refine blockAt_slot_congr rfl fun _ held => ?_
      by_cases isI : m = i
      · subst isI
        simp only [setData, update_self]
        exact word_setWord_of_ne _ _ fun isJ => here ⟨rfl, isJ⟩
      · have elsewhere : (s.ip m).addrs NDIRECT ≠ (s.ip i).addrs NDIRECT := held ▸ alone m isI
        simp only [setData, update_of_ne elsewhere]

end State

/-! ## Taking a block -/

/-- Every block number of an allocated inode is a data block, none stands in two places, and the
bitmap marks a data block exactly when some place has it. -/
def State.Owned (s : State) : Prop := Assigned s.blockAt s.bit s.sb.dataStart s.sb.size

structure Keeps (held : Place → Nat) (s : State) : Prop where
  owned : Assigned held s.bit s.sb.dataStart s.sb.size
  reserved : ∀ b < s.sb.dataStart, s.bit b = true

abbrev Kept (s : State) : Prop := Keeps s.blockAt s

def Sound (p : Panic) : Prop := p ≠ .freeingFreeBlock

theorem Superblock.dataStart_pos (sb : Superblock) : 0 < sb.dataStart :=
  Nat.sub_pos_of_lt sb.nblocks_lt

def State.taken (s : State) (b : Nat) : State := (s.setBit b true).setData b fun _ => 0

def State.free (s : State) : Nat := ((Finset.range s.sb.size).filter fun b => s.bit b = false).card

theorem free_take {s t : State} {b : Nat} (free : s.bit b = false) (inside : b < s.sb.size)
    (bits : t.bit = update s.bit b true) (sb : t.sb = s.sb) : t.free + 1 = s.free := by
  have member : b ∈ (Finset.range s.sb.size).filter fun b => s.bit b = false :=
    Finset.mem_filter.mpr ⟨Finset.mem_range.mpr inside, free⟩
  have rest : ((Finset.range t.sb.size).filter fun b => t.bit b = false) =
      ((Finset.range s.sb.size).filter fun b => s.bit b = false).erase b := by
    ext c
    rw [sb, bits, Finset.mem_erase, Finset.mem_filter, Finset.mem_filter]
    by_cases same : c = b
    · simp [same]
    · simp [same]
  rw [State.free, rest]
  exact Finset.card_erase_add_one member

theorem ends_balloc {s : State} (kept : Kept s) (full : s.free = 0 → E .outOfBlocks) :
    ends balloc E (fun b t => t = s.taken b ∧ s.bit b = false ∧ s.sb.dataStart ≤ b ∧ b < s.sb.size) s := by
  simp only [balloc, ends_bind, ends_get]
  cases found : (List.range s.sb.size).find? (fun b => !s.bit b) with
  | none =>
    refine (ends_throw ..).mpr (full (Finset.card_eq_zero.mpr ?_))
    refine Finset.filter_eq_empty_iff.mpr fun {b} member free => ?_
    have marked := List.find?_eq_none.mp found b (List.mem_range.mpr (Finset.mem_range.mp member))
    simp [free] at marked
  | some b =>
    have free : s.bit b = false := by simpa using List.find?_some found
    have inside := List.mem_range.mp (List.mem_of_find?_eq_some found)
    have low : s.sb.dataStart ≤ b := by
      by_contra below
      have marked := kept.reserved b (Nat.lt_of_not_le below)
      simp [free] at marked
    simp only [ends_bind, ends_modify, ends_pure]
    exact ⟨rfl, free, low, inside⟩

def Place.inode : Place → Nat
  | .addr i _ | .slot i _ => i

structure Remaps (i : Nat) (s t : State) : Prop where
  sb : t.sb = s.sb
  dinode : t.dinode = s.dinode
  core : ∀ j ≠ i, t.core j = s.core j
  fields : t.ip i = { s.ip i with addrs := (t.ip i).addrs }

theorem Remaps.refl (i : Nat) (s : State) : Remaps i s s := ⟨rfl, rfl, fun _ _ => rfl, rfl⟩

theorem Remaps.trans {i : Nat} {s t u : State} (one : Remaps i s t) (two : Remaps i t u) : Remaps i s u where
  sb := two.sb.trans one.sb
  dinode := two.dinode.trans one.dinode
  core j other := (two.core j other).trans (one.core j other)
  fields := by rw [two.fields, one.fields]

structure Extends (i : Nat) (s t : State) : Prop extends Remaps i s t where
  blocks : ∀ x, s.blockAt x ≠ 0 → t.blockAt x = s.blockAt x
  elsewhere : ∀ x, x.inode ≠ i → t.blockAt x = s.blockAt x
  data : ∀ x, x.inode ≠ i → s.blockAt x ≠ 0 → t.data (s.blockAt x) = s.data (s.blockAt x)

theorem Extends.refl (i : Nat) (s : State) : Extends i s s := ⟨.refl i s, fun _ _ => rfl, fun _ _ => rfl, fun _ _ _ => rfl⟩

theorem Extends.trans {i : Nat} {s t u : State} (one : Extends i s t) (two : Extends i t u) : Extends i s u where
  toRemaps := one.toRemaps.trans two.toRemaps
  blocks x full := by grind [one.blocks, two.blocks]
  elsewhere x other := (two.elsewhere x other).trans (one.elsewhere x other)
  data x other full := by
    have first := one.blocks x full
    rw [← one.data x other full, ← first]
    exact two.data x other (first ▸ full)

structure Grown (i : Nat) (x : Place) (s : State) (b : Nat) (t : State) : Prop where
  kept : Kept t
  more : Extends i s t
  at_place : t.blockAt x = b
  positive : b ≠ 0
  idle : s.blockAt x ≠ 0 → t = s
  only : ∀ y, y ≠ x → y ≠ .addr i NDIRECT → t.blockAt y = s.blockAt y
  own : ∀ y, y ≠ .addr i NDIRECT → s.blockAt y ≠ 0 → t.data (s.blockAt y) = s.data (s.blockAt y)
  fresh : s.blockAt x = 0 → t.data b = fun _ => 0

section
variable {s t : State} {i k j b : Nat} {x : Place}

section

variable (kept : Kept s)

include kept

theorem Grown.same (full : s.blockAt x ≠ 0) : Grown i x s (s.blockAt x) s :=
  ⟨kept, .refl i s, rfl, full, fun _ => rfl, fun _ _ _ => rfl, fun _ _ _ => rfl, fun empty => absurd empty full⟩

theorem Keeps.apart (allocated : (s.ip i).type ≠ 0) (free : s.bit b = false) (low : s.sb.dataStart ≤ b)
    (data : ∀ c, c ≠ b → c ≠ (s.ip i).addrs NDIRECT → t.data c = s.data c) (y : Place) (other : y ≠ .addr i NDIRECT)
    (full : s.blockAt y ≠ 0) : t.data (s.blockAt y) = s.data (s.blockAt y) := by
  have start := s.sb.dataStart_pos
  refine data _ (kept.owned.not_held free (by omega) y) fun same => other ?_
  rw [← State.blockAt_addr allocated (Nat.le_refl _)] at same
  exact kept.owned.once y _ full same

theorem Grown.of_take (allocated : (s.ip i).type ≠ 0) (here : x.inode = i) (free : s.bit b = false)
    (low : s.sb.dataStart ≤ b) (high : b < s.sb.size) (empty : s.blockAt x = 0)
    (blocks : t.blockAt = update s.blockAt x b) (bits : t.bit = update s.bit b true) (sb : t.sb = s.sb)
    (dinode : t.dinode = s.dinode) (core : ∀ j ≠ i, t.core j = s.core j)
    (fields : t.ip i = { s.ip i with addrs := (t.ip i).addrs })
    (data : ∀ c, c ≠ b → c ≠ (s.ip i).addrs NDIRECT → t.data c = s.data c) (zero : t.data b = fun _ => 0) :
    Grown i x s b t where
  kept := {
    owned := by grind [kept.owned.take, s.sb.dataStart_pos]
    reserved := by
      intro c below
      rw [sb] at below
      rw [bits]
      by_cases same : c = b
      · rw [same, update_self]
      · rw [update_of_ne same]
        exact kept.reserved c below }
  more := {
    sb := sb
    dinode := dinode
    core := core
    fields := fields
    blocks := by
      intro y full
      have other : y ≠ x := fun same => full (same ▸ empty)
      rw [blocks, update_of_ne other]
    elsewhere := by
      intro y other
      have apart : y ≠ x := fun same => other (same ▸ here)
      rw [blocks, update_of_ne apart]
    data := fun y other full => kept.apart allocated free low data y (fun same => other (same ▸ rfl)) full }
  at_place := by rw [blocks, update_self]
  positive := by
    have start := s.sb.dataStart_pos
    omega
  idle full := absurd empty full
  only y other _ := by rw [blocks, update_of_ne other]
  own := kept.apart allocated free low data
  fresh _ := zero

theorem blockAt_taken (free : s.bit b = false) (low : s.sb.dataStart ≤ b) : (s.taken b).blockAt = s.blockAt := by
  have start := s.sb.dataStart_pos
  have unheld := kept.owned.not_held free (by omega)
  exact State.blockAt_setData fun i => by simpa using unheld (.addr i NDIRECT)

theorem ends_bmapAddr (allocated : (s.ip i).type ≠ 0) (small : k ≤ NDIRECT)
    (full : s.blockAt (.addr i k) = 0 → s.free = 0 → E .outOfBlocks) :
    ends (bmapAddr i k) E (fun b t => Grown i (.addr i k) s b t ∧
      t.free + (if s.blockAt (.addr i k) = 0 then 1 else 0) = s.free) s := by
  have held := State.blockAt_addr allocated small
  simp only [bmapAddr, ends_bind, ends_get]
  by_cases empty : (s.ip i).addrs k = 0
  · rw [if_pos empty]
    refine (ends_balloc kept (full (held.trans empty))).bind fun b t outcome => ?_
    obtain ⟨rfl, free, low, high⟩ := outcome
    simp only [ends_bind, ends_modify, ends_pure]
    have before := blockAt_taken kept free low
    have after : ((s.taken b).setAddr i k b).blockAt = update s.blockAt (.addr i k) b := by
      rw [← before]
      by_cases direct : k < NDIRECT
      · exact State.blockAt_setAddr allocated direct
      · obtain rfl : k = NDIRECT := by omega
        refine State.blockAt_setTable allocated empty fun j => ?_
        simp only [State.taken, State.setData, update_self]
        exact word_zero j
    refine ⟨.of_take kept allocated rfl free low high (held.trans empty) after rfl rfl rfl ?_ ?_ ?_ (update_self ..), ?_⟩
    · intro j other
      exact update_of_ne other ..
    · simp [State.setAddr, State.taken]
    · intro c other _
      exact update_of_ne other ..
    · rw [if_pos (held.trans empty)]
      exact free_take free high rfl rfl
  · rw [if_neg empty, ends_pure, if_neg (held ▸ empty)]
    refine ⟨?_, rfl⟩
    rw [← held]
    exact .same kept (held ▸ empty)

end

def place (i bn : Nat) : Place := if bn < NDIRECT then .addr i bn else .slot i (bn - NDIRECT)

def needed (s : State) (i bn : Nat) : Nat :=
  (if NDIRECT ≤ bn ∧ s.blockAt (.addr i NDIRECT) = 0 then 1 else 0) + if s.blockAt (place i bn) = 0 then 1 else 0

theorem slot_of_table (allocated : (s.ip i).type ≠ 0) (empty : s.blockAt (.addr i NDIRECT) = 0) (j : Nat) :
    s.blockAt (.slot i j) = 0 := by
  rw [State.blockAt_addr allocated (Nat.le_refl _)] at empty
  simp [State.blockAt, empty]

theorem needed_zero (allocated : (s.ip i).type ≠ 0) {bn : Nat} (full : s.blockAt (place i bn) ≠ 0) : needed s i bn = 0 := by
  rw [needed, if_neg full]
  refine if_neg fun ⟨beyond, empty⟩ => full ?_
  rw [place, if_neg (Nat.not_lt.mpr beyond)]
  exact slot_of_table allocated empty _

theorem ends_bmap (kept : Kept s) (allocated : (s.ip i).type ≠ 0) (bn : Nat)
    (range : MAXFILE ≤ bn → E .bmapOutOfRange) (full : s.free < needed s i bn → E .outOfBlocks) :
    ends (bmap i bn) E (fun b t => bn < MAXFILE ∧ Grown i (place i bn) s b t ∧ t.free + needed s i bn = s.free) s := by
  have maxfile : MAXFILE = NDIRECT + NINDIRECT := rfl
  rw [needed, place] at full
  rw [bmap, place, needed, place]
  by_cases direct : bn < NDIRECT
  · rw [if_pos direct] at full
    rw [if_neg fun both => absurd direct (Nat.not_lt.mpr both.1), Nat.zero_add] at full
    rw [if_pos direct, if_pos direct, if_neg fun both => absurd direct (Nat.not_lt.mpr both.1), Nat.zero_add]
    refine (ends_bmapAddr kept allocated (Nat.le_of_lt direct) fun empty none => full ?_).mono fun _ _ mapped => ⟨by omega, mapped⟩
    rw [if_pos empty, none]
    exact Nat.zero_lt_one
  rw [if_neg direct] at full
  have beyond := Nat.le_of_not_lt direct
  simp only [beyond, true_and] at full
  rw [if_neg direct, if_neg direct]
  simp only [beyond, true_and]
  by_cases inside : bn - NDIRECT < NINDIRECT
  · rw [if_pos inside]
    refine (ends_bmapAddr kept allocated (Nat.le_refl _) fun empty none => full ?_).bind fun table t after => ?_
    · grind
    obtain ⟨mapped, spent⟩ := after
    have allocated' : (t.ip i).type ≠ 0 := by rwa [mapped.more.fields]
    have isTable : (t.ip i).addrs NDIRECT = table := by
      rw [← State.blockAt_addr allocated' (Nat.le_refl _), mapped.at_place]
    have present : (t.ip i).addrs NDIRECT ≠ 0 := isTable ▸ mapped.positive
    have held := State.blockAt_slot allocated' inside present
    rw [isTable] at held
    -- the slot is as it was, or both are empty because the indirect block is new
    have slot : t.blockAt (.slot i (bn - NDIRECT)) = s.blockAt (.slot i (bn - NDIRECT)) := by
      by_cases empty : s.blockAt (.addr i NDIRECT) = 0
      · rw [held, mapped.fresh empty, word_zero, slot_of_table allocated empty]
      · rw [mapped.idle empty]
    have unmoved (full : s.blockAt (.slot i (bn - NDIRECT)) ≠ 0) : t = s := by
      refine mapped.idle fun empty => full ?_
      exact slot_of_table allocated empty _
    simp only [ends_bind, ends_get]
    by_cases empty : word (t.data table) (bn - NDIRECT) = 0
    · have empty' : s.blockAt (.slot i (bn - NDIRECT)) = 0 := by rw [← slot, held, empty]
      rw [if_pos empty]
      refine (ends_balloc mapped.kept fun none => full ?_).bind fun b u outcome => ?_
      · rw [if_pos empty']
        omega
      obtain ⟨rfl, free, low, high⟩ := outcome
      simp only [ends_bind, ends_modify, ends_pure]
      have before := blockAt_taken mapped.kept free low
      have alone (m : Nat) (other : m ≠ i) : (t.taken b).blockAt (.addr m NDIRECT) ≠ table := by
        intro same
        rw [before] at same
        have clash := mapped.kept.owned.once _ _ (same ▸ mapped.positive) (same.trans mapped.at_place.symm)
        simp only [Place.addr.injEq] at clash
        exact other clash.1
      have after := State.blockAt_setWord (s := t.taken b) (v := b) allocated' inside present
        (Nat.lt_trans high t.sb.size_lt) (by rwa [State.taken, State.ip_setData, State.ip_setBit, isTable])
      rw [State.taken, State.ip_setData, State.ip_setBit, isTable, ← State.taken, before] at after
      have apart : b ≠ table := fun same =>
        mapped.kept.owned.not_held free (by omega) (.addr i NDIRECT) (mapped.at_place.trans same.symm)
      have step : Grown i (.slot i (bn - NDIRECT)) t b
          ((t.taken b).setData table (setWord ((t.taken b).data table) (bn - NDIRECT) b)) := by
        refine .of_take mapped.kept allocated' rfl free low high (held.trans empty) after rfl rfl rfl (fun _ _ => rfl) rfl ?_ ?_
        · intro c other notTable
          rw [isTable] at notTable
          rw [State.data_setData_of_ne _ _ notTable]
          exact State.data_setData_of_ne _ _ other
        · rw [State.data_setData_of_ne _ _ apart]
          exact State.data_setData_self ..
      refine ⟨by omega, ⟨step.kept, mapped.more.trans step.more, step.at_place, step.positive,
        fun full => absurd empty' full, fun y other table => (step.only y other table).trans (mapped.only y table table),
        fun y other full => ?_, fun _ => step.fresh (held.trans empty)⟩, ?_⟩
      · have same := mapped.more.blocks y full
        rw [← mapped.own y other full, ← same]
        exact step.own y other (same ▸ full)
      · have less := free_take (t := (t.taken b).setData table (setWord ((t.taken b).data table) (bn - NDIRECT) b))
          free high rfl rfl
        rw [if_pos empty']
        omega
    · rw [if_neg empty, ends_pure]
      have full' : s.blockAt (.slot i (bn - NDIRECT)) ≠ 0 := by rwa [← slot, held]
      obtain rfl := unmoved full'
      rw [if_neg full']
      refine ⟨by omega, ?_, spent⟩
      rw [← held]
      exact .same kept full'
  · rw [if_neg inside]
    exact (ends_throw ..).mpr (range (by omega))

end

end Xv6.Blocks
