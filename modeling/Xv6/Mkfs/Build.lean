import Xv6.Mkfs.Append

namespace Xv6.Mkfs
open Lib Blocks Function
open Fs (T_DIR T_FILE dot dotdot)

attribute [local simp] State.blockAt

/-! ## Counting blocks -/

def blocksFor (n : Nat) : Nat := (n + BSIZE - 1) / BSIZE + if NDIRECT * BSIZE < n then 1 else 0

theorem blocksFor_mono {m n : Nat} (le : m ≤ n) : blocksFor m ≤ blocksFor n := by
  simp only [blocksFor, BSIZE, NDIRECT]
  split <;> split <;> omega

theorem cost_le_blocksFor {s : State} {i : Nat} (intact : Intact s i) (n : Nat) :
    cost s i (s.ip i).size n + blocksFor (s.ip i).size ≤ blocksFor ((s.ip i).size + n) := by
  rw [cost]
  split
  next none =>
    rw [Nat.zero_add]
    exact blocksFor_mono (Nat.le_add_right ..)
  next some =>
    have empty : ((Finset.Ico ((s.ip i).size / BSIZE) (((s.ip i).size + n + BSIZE - 1) / BSIZE)).filter
        fun bn => s.blockAt (place i bn) = 0).card ≤
        ((s.ip i).size + n + BSIZE - 1) / BSIZE - ((s.ip i).size + BSIZE - 1) / BSIZE := by
      refine Nat.le_trans (Finset.card_le_card fun bn member => ?_) (Nat.card_Ico ..).le
      rw [Finset.mem_filter, Finset.mem_Ico] at member
      exact Finset.mem_Ico.mpr ⟨Nat.le_of_not_lt fun below => intact.whole bn below member.2, member.1.2⟩
    have table (none : s.blockAt (.addr i NDIRECT) = 0) : (s.ip i).size ≤ NDIRECT * BSIZE := by
      by_contra long
      refine intact.whole NDIRECT (index_lt_iff.mpr (Nat.lt_of_not_le long)) ?_
      exact slot_of_table intact.allocated none _
    rw [needs]
    simp only [blocksFor]
    split
    next all =>
      have short := table all.2.2
      have long : NDIRECT * BSIZE < (s.ip i).size + n := index_lt_iff.mp all.2.1
      rw [if_neg (Nat.not_lt.mpr short), if_pos long]
      simp only [BSIZE] at empty ⊢
      omega
    next =>
      simp only [BSIZE, NDIRECT] at empty ⊢
      split <;> split <;> omega

theorem view_free (m : Image) : m.view.free = FSSIZE - m.freeblock := by
  have unused : ((Finset.range m.view.sb.size).filter fun b => m.view.bit b = false) = Finset.Ico m.freeblock FSSIZE := by
    ext b
    have bit : m.view.bit b = decide (b < m.freeblock) := rfl
    have size : m.view.sb.size = FSSIZE := rfl
    rw [Finset.mem_filter, Finset.mem_range, Finset.mem_Ico, bit, size, decide_eq_false_iff_not]
    omega
  rw [State.free, unused, Nat.card_Ico]

/-! ## Allocating an inode -/

section
variable {m : Image} {i n : Nat}

theorem blockAt_fresh {s t : State} {d : Dinode} (ip : t.ip = update s.ip i d) (data : t.data = s.data)
    (free : (s.ip i).type = 0) (bare : ∀ k, d.addrs k = 0) : t.blockAt = s.blockAt := by
  funext x
  cases x with
  | addr j k =>
    by_cases same : j = i
    · subst same
      simp [ip, free, bare]
    · simp [ip, same]
  | slot j k =>
    by_cases same : j = i
    · subst same
      simp [ip, free, bare]
    · simp [ip, data, same]

/-- Inodes 1 to `n - 1` are files of these types and texts, of at most `limit` bytes, and there are no others. -/
structure Progress (limit : Nat → Nat) (kind : Nat → Int) (text : Nat → List UInt8) (n : Nat) (m : Image) : Prop where
  sound : m.Sound
  next : m.freeinode = n
  kept : Kept m.view
  type : ∀ i, 0 < i → i < n → (m.view.ip i).type = kind i ∧ kind i ≠ 0
  blocks : ∀ i, 0 < i → i < n → ∀ bn, bn < ((m.view.ip i).size + BSIZE - 1) / BSIZE ↔ m.view.blockAt (place i bn) ≠ 0
  bytes : ∀ i, 0 < i → i < n → content m.view i = text i
  free : ∀ i, i = 0 ∨ n ≤ i → (m.view.ip i).type = 0
  within : ∀ i, 0 < i → i < n → (text i).length ≤ limit i
  budget : nblocks ≤ m.view.free + ∑ i ∈ Finset.Ico 1 n, blocksFor (text i).length

variable {limit : Nat → Nat} {kind : Nat → Int} {text : Nat → List UInt8} {t : Int}

section

variable (progress : Progress limit kind text n m)

include progress

theorem Progress.intact (pos : 0 < i) (below : i < n) : Intact m.view i where
  owned := progress.kept.owned
  reserved := progress.kept.reserved
  allocated := by grind [progress.type]
  whole bn low := (progress.blocks i pos below bn).mp low

theorem Progress.size (pos : 0 < i) (below : i < n) : (m.view.ip i).size = (text i).length := by
  rw [← progress.bytes i pos below, content, List.length_map, List.length_range]

theorem Progress.congr {kind' : Nat → Int} {text' : Nat → List UInt8}
    (kinds : ∀ i, 0 < i → i < n → kind' i = kind i) (texts : ∀ i, 0 < i → i < n → text' i = text i) :
    Progress limit kind' text' n m where
  sound := progress.sound
  next := progress.next
  kept := progress.kept
  type i pos below := by
    rw [kinds i pos below]
    exact progress.type i pos below
  blocks := progress.blocks
  bytes i pos below := by
    rw [texts i pos below]
    exact progress.bytes i pos below
  free := progress.free
  within i pos below := by
    rw [texts i pos below]
    exact progress.within i pos below
  budget := by grind [Finset.sum_congr, progress.budget]

end

def newDinode (type : Int) : Dinode := ⟨type, 0, 0, 1, 0, fun _ => 0⟩

attribute [local simp] newDinode

theorem newDinode_fits (range : 0 < t ∧ t < 32768) : Fits (newDinode t) where
  type := by
    change -32768 ≤ t ∧ t < 32768
    omega
  major := ⟨by simp, by simp⟩
  minor := ⟨by simp, by simp⟩
  nlink := ⟨by simp, by simp⟩
  size := by simp
  addrs _ _ := Nat.two_pow_pos 32
  rest _ _ := rfl

def Image.addInode (m : Image) (type : Int) : Image :=
  { m with freeinode := m.freeinode + 1, sect := setInode m.sect m.freeinode (newDinode type) }

theorem wp_ialloc (inside : m.freeinode < NINODES) (type : Int) {Q : Nat → Image → Prop} :
    wp (ialloc type) Q m ↔ Q m.freeinode (m.addInode type) := by
  rw [ialloc, wp_bind, wp_get, wp_bind, wp_modify, wp_bind, wp_winode inside, wp_pure]
  rfl

theorem view_addInode (inside : m.freeinode < NINODES) (range : 0 < t ∧ t < 32768) :
    (m.addInode t).view = { m.view with dinode := update m.view.dinode m.freeinode (newDinode t) } :=
  view_setInode inside (newDinode_fits range)

theorem Progress.addInode (progress : Progress limit kind text n m) (pos : 0 < n) (inside : n < NINODES)
    (range : 0 < t ∧ t < 32768) : Progress limit (update kind n t) (update text n []) (n + 1) (m.addInode t) := by
  obtain rfl := progress.next
  have view := view_addInode inside range
  have ip : (m.addInode t).view.ip = update m.view.ip m.freeinode (newDinode t) := by
    rw [view]
    rfl
  have data : (m.addInode t).view.data = m.view.data := by rw [view]
  have blocks : (m.addInode t).view.blockAt = m.view.blockAt :=
    blockAt_fresh ip data (progress.free _ (.inr (Nat.le_refl _))) fun _ => rfl
  have free : (m.addInode t).view.free = m.view.free := by rw [view_free, view_free, Image.addInode]
  have old {i : Nat} (other : i ≠ m.freeinode) : (m.addInode t).view.ip i = m.view.ip i := by
    rw [ip, update_of_ne other]
  have new : (m.addInode t).view.ip m.freeinode = newDinode t := by rw [ip, update_self]
  have none (bn : Nat) : m.view.blockAt (place m.freeinode bn) = 0 := by
    have unused := progress.free _ (.inr (Nat.le_refl m.freeinode))
    rw [place]
    split <;> simp [unused]
  have less {i : Nat} (below : i < m.freeinode + 1) (other : i ≠ m.freeinode) : i < m.freeinode := by omega
  refine ⟨{ progress.sound.setInode inside (newDinode t) with }, rfl, ⟨?_, ?_⟩, fun i first below => ?_,
    fun i first below bn => ?_,
    fun i first below => ?_, fun i unused => ?_, fun i first below => ?_, ?_⟩
  · rw [blocks]
    exact progress.kept.owned
  · exact progress.kept.reserved
  · by_cases same : i = m.freeinode
    · rw [same, new, update_self]
      exact ⟨rfl, by omega⟩
    · grind [progress.type]
  · rw [blocks]
    by_cases same : i = m.freeinode
    · rw [same, new, none, index_lt_iff]
      simp
    · rw [old same]
      exact progress.blocks i first (less below same) bn
  · by_cases same : i = m.freeinode
    · rw [same, update_self, content, new]
      rfl
    · rw [update_of_ne same, ← progress.bytes i first (less below same), content, content, old same]
      exact List.map_congr_left fun o _ => byteAt_congr (by rw [blocks]) fun _ => by rw [data]
  · rw [old (by omega)]
    exact progress.free i (by omega)
  · by_cases same : i = m.freeinode
    · rw [same, update_self]
      exact Nat.zero_le _
    · rw [update_of_ne same]
      exact progress.within i first (less below same)
  · rw [free, Finset.sum_Ico_succ_top pos, update_self]
    have same : ∑ i ∈ Finset.Ico 1 m.freeinode, blocksFor (update text m.freeinode [] i).length =
        ∑ i ∈ Finset.Ico 1 m.freeinode, blocksFor (text i).length := by grind [Finset.sum_congr]
    rw [same]
    exact Nat.le_trans progress.budget (Nat.add_le_add_left (Nat.le_add_right ..) _)

theorem Progress.iappend {N : Nat} (progress : Progress limit kind text n m) (pos : 0 < i) (below : i < n) (few : n ≤ N)
    (small : N ≤ NINODES) (each : ∀ j, limit j ≤ MAXFILE * BSIZE)
    (total : ∑ j ∈ Finset.Ico 1 N, blocksFor (limit j) ≤ nblocks) (p : List UInt8) (short : (text i ++ p).length ≤ limit i) :
    wp (iappend i p) (fun _ m' => Progress limit kind (update text i (text i ++ p)) n m') m := by
  have intact := progress.intact pos below
  have size := progress.size pos below
  rw [List.length_append] at short
  have member : i ∈ Finset.Ico 1 n := Finset.mem_Ico.mpr ⟨pos, below⟩
  have within (j : Nat) (first : 0 < j) (last : j < n) : (update text i (text i ++ p) j).length ≤ limit j := by
    by_cases same : j = i
    · rw [same, update_self, List.length_append]
      exact short
    · rw [update_of_ne same]
      exact progress.within j first last
  have sum : ∑ j ∈ Finset.Ico 1 n, blocksFor (update text i (text i ++ p) j).length ≤ nblocks := by
    refine Nat.le_trans ?_ total
    refine Nat.le_trans (Finset.sum_le_sum fun j inside => ?_)
      (Finset.sum_le_sum_of_subset (Finset.Ico_subset_Ico_right few))
    obtain ⟨first, last⟩ := Finset.mem_Ico.mp inside
    exact blocksFor_mono (within j first last)
  have before := Finset.add_sum_erase (Finset.Ico 1 n) (fun j => blocksFor (text j).length) member
  have after := Finset.add_sum_erase (Finset.Ico 1 n) (fun j => blocksFor (update text i (text i ++ p) j).length) member
  have rest : ∑ j ∈ (Finset.Ico 1 n).erase i, blocksFor (update text i (text i ++ p) j).length =
      ∑ j ∈ (Finset.Ico 1 n).erase i, blocksFor (text j).length := by grind [Finset.sum_congr]
  rw [rest, update_self, List.length_append] at after
  have bound := cost_le_blocksFor intact p.length
  rw [size] at bound
  have budget := progress.budget
  have fits : (m.view.ip i).size + p.length ≤ MAXFILE * BSIZE := by
    rw [size]
    exact Nat.le_trans short (each i)
  have room : cost m.view i (m.view.ip i).size p.length ≤ m.view.free := by
    rw [size]
    omega
  refine (wp_iappend progress.sound (Nat.lt_of_lt_of_le below (Nat.le_trans few small)) intact p fits room).mono ?_
  rintro _ m' ⟨sound, next, done⟩
  refine ⟨sound, next.trans progress.next, done.intact.kept, fun j first last => ?_, fun j first last bn => ?_,
    fun j first last => ?_, fun j unused => ?_, within, ?_⟩
  · grind [done.fields, progress.type, done.others]
  · by_cases same : j = i
    · subst same
      refine ⟨done.intact.whole bn, fun full => ?_⟩
      by_contra high
      rw [index_lt_iff, done.fields] at high
      have outside : (m.view.ip j).size + p.length ≤ bn * BSIZE := Nat.le_of_not_lt high
      rw [done.beyond bn outside] at full
      have inside := index_lt_iff.mp ((progress.blocks j first last bn).mpr full)
      omega
    · rw [done.others j same, done.blocks _ (by rwa [place_inode])]
      exact progress.blocks j first last bn
  · grind [done.content, progress.bytes, done.bytes]
  · grind [done.others, progress.free]
  · have spent := done.spent
    rw [size] at spent
    omega

end

end Xv6.Mkfs
