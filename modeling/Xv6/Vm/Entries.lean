import Xv6.Vm.PageTable

namespace Xv6.Vm

/-! ## Page-table entries as numbers -/

def Ram (L : Layout) (p : Nat) : Prop := p % PGSIZE = 0 ∧ L.kend ≤ p ∧ p < PHYSTOP

instance (L : Layout) (p : Nat) : Decidable (Ram L p) := inferInstanceAs (Decidable (_ ∧ _))

def link (q : Nat) : Word := pa2pte q ||| PTE_V

def leaf (pa : Nat) (perm : Word) : Word := pa2pte pa ||| perm ||| PTE_V

def PTE_RWX : Word := PTE_R ||| PTE_W ||| PTE_X

structure IsLeaf (w : Word) : Prop where
  valid : w &&& PTE_V ≠ 0
  access : w &&& PTE_RWX ≠ 0

section
variable {L : Layout} {pa q : Nat} {w flags perm mask : Word}

theorem pa2pte_toNat (pa : Nat) : (pa2pte pa).toNat = 1024 * (pa % 2 ^ 64 / 4096) := by
  grind [pa2pte, Nat.shiftRight_eq_div_pow, Nat.shiftLeft_eq]

theorem pte_toNat (pa : Nat) (small : flags.toNat < 1024) :
    (pa2pte pa ||| flags).toNat = 1024 * (pa % 2 ^ 64 / 4096) + flags.toNat := by
  rw [BitVec.toNat_or, pa2pte_toNat]
  exact (Nat.two_pow_add_eq_or_of_lt (i := 10) small _).symm

theorem pte2pa_toNat (pte : Word) : pte2pa pte = pte.toNat / 1024 * 4096 % 2 ^ 64 := by
  simp [pte2pa, Nat.shiftRight_eq_div_pow, Nat.shiftLeft_eq]

theorem pte2pa_page (pa : Nat) (small : flags.toNat < 1024) : pte2pa (pa2pte pa ||| flags) = pgRoundDown (pa % 2 ^ 64) := by
  rw [pte2pa_toNat, pte_toNat pa small]
  simp only [pgRoundDown, PGSIZE]
  omega

theorem pte2pa_pte (below : pa < 2 ^ 56) (aligned : pa % PGSIZE = 0) (small : flags.toNat < 1024) :
    pte2pa (pa2pte pa ||| flags) = pa := by
  rw [pte2pa_page pa small]
  simp only [pgRoundDown, PGSIZE] at *
  omega

theorem pa2pte_and (pa : Nat) (small : mask.toNat < 1024) : pa2pte pa &&& mask = 0 := by
  apply BitVec.eq_of_getLsbD_eq
  intro i _
  by_cases low : i < 10
  · simp [pa2pte, low]
  · have high : mask.getLsbD i = false := by
      apply Nat.testBit_lt_two_pow
      calc mask.toNat < 2 ^ 10 := small
        _ ≤ 2 ^ i := Nat.pow_le_pow_right (by decide) (by omega)
    simp [high]

theorem pte_and (pa : Nat) (flags : Word) (small : mask.toNat < 1024) : (pa2pte pa ||| flags) &&& mask = flags &&& mask := by
  rw [BitVec.and_or_distrib_right, pa2pte_and pa small]
  exact BitVec.zero_or

theorem Ram.below (ram : Ram L pa) : pa < 2 ^ 56 := by
  have := ram.2.2
  simp only [PHYSTOP, KERNBASE] at this
  omega

theorem Ram.pos (ram : Ram L pa) : pa ≠ 0 := by
  have := ram.2.1
  have := L.inKernel
  simp only [KERNBASE] at this
  omega

/-! ## Links -/

theorem link_valid (q : Nat) : link q &&& PTE_V = PTE_V := by
  rw [link, pte_and q PTE_V (by decide)]
  decide

theorem link_access (q : Nat) : link q &&& PTE_RWX = 0 := by
  rw [link, pte_and q PTE_V (by decide)]
  decide

theorem pte2pa_link (ram : Ram L q) : pte2pa (link q) = q :=
  pte2pa_pte ram.below ram.1 (by decide)

theorem link_ne_zero (q : Nat) : link q ≠ 0 := by
  intro zero
  have valid := link_valid q
  rw [zero] at valid
  exact absurd valid (by decide)

theorem link_injective {p : Nat} (ramP : Ram L p) (ramQ : Ram L q) (same : link p = link q) : p = q := by
  rw [← pte2pa_link ramP, ← pte2pa_link ramQ, same]

/-! ## Leaves -/

theorem or_valid_toNat (small : perm.toNat < 1024) : (perm ||| PTE_V).toNat < 1024 := by
  exact Nat.or_lt_two_pow (n := 10) small (by decide)

theorem pte2pa_leaf (below : pa < 2 ^ 56) (aligned : pa % PGSIZE = 0) (small : perm.toNat < 1024) :
    pte2pa (leaf pa perm) = pa := by
  rw [leaf, BitVec.or_assoc]
  exact pte2pa_pte below aligned (or_valid_toNat small)

theorem leaf_and (pa : Nat) (small : mask.toNat < 1024) (set : perm &&& mask ≠ 0) : leaf pa perm &&& mask ≠ 0 := by
  rw [leaf, BitVec.or_assoc, pte_and pa _ small, BitVec.and_or_distrib_right]
  intro zero
  exact set (BitVec.or_eq_zero_iff.mp zero).1

theorem leaf_and_zero (pa : Nat) (small : mask.toNat < 1024) (clear : (perm ||| PTE_V) &&& mask = 0) :
    leaf pa perm &&& mask = 0 := by
  rw [leaf, BitVec.or_assoc, pte_and pa _ small, clear]

theorem isLeaf_leaf (pa : Nat) (access : perm &&& PTE_RWX ≠ 0) : IsLeaf (leaf pa perm) := by
  constructor
  · rw [leaf, BitVec.or_assoc, pte_and pa _ (by decide), BitVec.and_or_distrib_right]
    intro zero
    exact absurd (BitVec.or_eq_zero_iff.mp zero).2 (by decide)
  · exact leaf_and pa (by decide) access

theorem IsLeaf.ne_zero (isLeaf : IsLeaf w) : w ≠ 0 := by
  rintro rfl
  exact isLeaf.valid (by decide)

theorem IsLeaf.flags_ne (isLeaf : IsLeaf w) : pteFlags w ≠ PTE_V := by
  intro same
  apply isLeaf.access
  have masked : w &&& PTE_RWX = pteFlags w &&& PTE_RWX := by
    rw [pteFlags, BitVec.and_assoc]
    rfl
  rw [masked, same]
  decide

theorem pteFlags_toNat (w : Word) : (pteFlags w).toNat < 1024 := by
  exact Nat.and_lt_two_pow _ (n := 10) (by decide)

theorem IsLeaf.flags_access (isLeaf : IsLeaf w) : pteFlags w &&& PTE_RWX ≠ 0 := by
  rw [pteFlags, BitVec.and_assoc]
  exact isLeaf.access

theorem flags_or_valid (valid : w &&& PTE_V ≠ 0) : pteFlags w ||| PTE_V = pteFlags w := by
  have low : w.getLsbD 0 = true := by
    by_contra clear
    apply valid
    apply BitVec.eq_of_getLsbD_eq
    intro i _
    by_cases zero : i = 0
    · grind
    · simp [PTE_V, zero]
  apply BitVec.eq_of_getLsbD_eq
  intro i _
  by_cases zero : i = 0
  · grind [pteFlags]
  · simp [PTE_V, zero]

theorem pteFlags_leaf (isLeaf : IsLeaf w) (pa : Nat) : pteFlags (leaf pa (pteFlags w)) = pteFlags w := by
  have masked : pteFlags w &&& 0x3ff = pteFlags w := by
    rw [pteFlags, BitVec.and_assoc, BitVec.and_self]
  rw [leaf, BitVec.or_assoc, flags_or_valid isLeaf.valid, pteFlags, pte_and pa _ (by decide), masked]

/-! ## The guard page -/

theorem clear_and (w : Word) (disjoint : ~~~PTE_U &&& mask = mask) : w &&& ~~~PTE_U &&& mask = w &&& mask := by
  rw [BitVec.and_assoc, disjoint]

theorem IsLeaf.clear (isLeaf : IsLeaf w) : IsLeaf (w &&& ~~~PTE_U) := by
  constructor
  · rw [clear_and w (by decide)]
    exact isLeaf.valid
  · rw [clear_and w (by decide)]
    exact isLeaf.access

theorem pte2pa_clear (w : Word) : pte2pa (w &&& ~~~PTE_U) = pte2pa w := by
  have shifted : (w &&& ~~~PTE_U) >>> 10 = w >>> 10 := by
    apply BitVec.eq_of_getLsbD_eq
    intro i below
    have high : PTE_U.getLsbD (10 + i) = false := by
      apply Nat.testBit_lt_two_pow
      calc PTE_U.toNat < 2 ^ 10 := by decide
        _ ≤ 2 ^ (10 + i) := Nat.pow_le_pow_right (by decide) (by omega)
    rw [BitVec.getLsbD_ushiftRight, BitVec.getLsbD_ushiftRight, BitVec.getLsbD_and, BitVec.getLsbD_not,
      high]
    by_cases inside : 10 + i < 64
    · simp [inside]
    · simp [inside, BitVec.getLsbD_of_ge w (10 + i) (by omega)]
  rw [pte2pa, shifted, pte2pa]

/-! ## Page numbers -/

abbrev VPNS : Nat := 2 ^ 27

def idx (level v : Nat) : Fin 512 := Fin.ofNat 512 (v >>> (9 * level))

theorem px_eq_idx (level va : Nat) : px level va = idx level (va / PGSIZE) := by
  rw [px, idx, Nat.shiftRight_add, Nat.shiftRight_eq_div_pow va 12]

def vpnOf (i j k : Fin 512) : Nat := i.val * 262144 + j.val * 512 + k.val

theorem vpnOf_lt (i j k : Fin 512) : vpnOf i j k < VPNS := by
  simp only [vpnOf, VPNS]
  omega

theorem idx_vpnOf (i j k : Fin 512) : idx 2 (vpnOf i j k) = i ∧ idx 1 (vpnOf i j k) = j ∧ idx 0 (vpnOf i j k) = k := by
  grind [idx, vpnOf, Nat.shiftRight_eq_div_pow]

theorem vpnOf_idx {v : Nat} (below : v < VPNS) : vpnOf (idx 2 v) (idx 1 v) (idx 0 v) = v := by
  simp only [VPNS] at below
  simp only [idx, vpnOf, Fin.ofNat, Nat.shiftRight_eq_div_pow, Nat.reduceMul, Nat.reducePow]
  omega

theorem idx_injective {u v : Nat} (belowU : u < VPNS) (belowV : v < VPNS) (two : idx 2 u = idx 2 v) (one : idx 1 u = idx 1 v)
    (zero : idx 0 u = idx 0 v) : u = v := by
  rw [← vpnOf_idx belowU, ← vpnOf_idx belowV, two, one, zero]

end

end Xv6.Vm
