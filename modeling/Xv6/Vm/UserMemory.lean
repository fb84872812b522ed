import Xv6.Vm.Exec
import Xv6.Vm.Image
import Xv6.Vm.Translations

namespace Xv6.Vm
open Lib Function

/-! ## User pages -/

section
variable {L : Layout} {role : Roles} {m t : Machine} {r v tf sz offset : Nat} {X : Nat → Word}

theorem Mapped.fixed_user (mapped : Mapped L tf sz X) (above : USER ≤ v) (below : v < VPNS) : X v &&& PTE_U = 0 := by
  by_cases first : v = USER
  · rw [first, mapped.trapframe]
    exact leaf_and_zero _ (by decide) (by decide)
  · by_cases second : v = USER + 1
    · rw [second, mapped.trampoline]
      exact leaf_and_zero _ (by decide) (by decide)
    · rw [mapped.rest v (by omega) below]
      decide

theorem Space.writeUser {contents : Page} {q : Nat} (space : Space L role m r X) (user : role q = .user r v)
    (page : t.page = update m.page q contents) (freelist : t.freelist = m.freelist) : Moves L role m role t r X := by
  have table : Keeps (fun ρ => ρ.tableOf = some r) role m.page role t.page := by
    rw [page]
    apply keeps_store
    simp [user, Role.tableOf]
  refine ⟨space.remap (freelist ▸ space.heap) ?_ ?_ fun _ _ => Iff.rfl, ?_, Settled.refl⟩
  · exact space.table.keeps table fun _ => id
  · intro u _
    exact space.table.lookup_keeps space.heap.ram (freelist ▸ space.heap).ram table (fun _ => id) u
  · rw [page]
    apply keeps_store
    simp [user, Role.OutsideSpace, Role.spaceOf]

/-- Each user page of the table is a page of memory of its own, and the pages from the trapframe on are
not for user code. -/
structure UserSpace (L : Layout) (role : Roles) (m : Machine) (r : Nat) (X : Nat → Word) : Prop where
  space : Space L role m r X
  kernel : ∀ v, USER ≤ v → v < VPNS → X v &&& PTE_U = 0

theorem UserSpace.used (user : UserSpace L role m r X) (below : v < VPNS) (access : X v &&& PTE_U ≠ 0) :
    IsLeaf (X v) ∧ role (pte2pa (X v)) = .user r v := by
  have low : v < USER := by
    by_contra high
    exact access (user.kernel v (by omega) below)
  have used : X v ≠ 0 := by
    intro zero
    rw [zero] at access
    exact access (by decide)
  exact user.space.user v low used

theorem Mapped.userSpace (mapped : Mapped L tf sz X) (space : Space L role m r X) : UserSpace L role m r X :=
  ⟨space, fun _ => mapped.fixed_user⟩

theorem walkaddr_reach (user : UserSpace L role m r X) (va : Nat) :
    wp (walkaddr r va) (fun found t => t = m ∧ found =
      if va < MAXVA ∧ X (va / PGSIZE) &&& PTE_U ≠ 0 then some (pte2pa (X (va / PGSIZE))) else none) m := by
  by_cases high : MAXVA ≤ va
  · have refused : ¬ (va < MAXVA ∧ X (va / PGSIZE) &&& PTE_U ≠ 0) := fun both => absurd both.1 (by omega)
    simp only [walkaddr, high, ↓reduceIte, wp_pure]
    exact ⟨trivial, (if_neg refused).symm⟩
  · have inside : va / PGSIZE < VPNS := div_lt_vpns (by omega)
    simp only [walkaddr, high, ↓reduceIte, wp_bind]
    apply (walk_find user.space (by omega)).mono
    rintro _ _ ⟨rfl, ⟨rfl, zero⟩ | ⟨b, rfl, bottom⟩⟩
    · have refused : ¬ (va < MAXVA ∧ X (va / PGSIZE) &&& PTE_U ≠ 0) := by
        rw [zero]
        exact fun both => both.2 (by decide)
      simp only [wp_pure]
      exact ⟨trivial, (if_neg refused).symm⟩
    · simp only [wp_bind, wp_load, user.space.entry inside bottom]
      by_cases access : X (va / PGSIZE) &&& PTE_U = 0
      · simp only [access, or_true, ↓reduceIte, wp_pure, ne_eq, not_true_eq_false, and_false, and_self]
      · have valid := (user.used inside access).1.valid
        have low : va < MAXVA := by omega
        simp only [access, valid, low, or_self, ↓reduceIte, wp_pure, ne_eq, not_false_eq_true, and_self]

theorem walkaddr_user {va : Nat} (space : Space L role m r X) (mapped : Mapped L tf sz X) :
    wp (walkaddr r va) (fun found t => t = m ∧ match found with
      | none => va < MAXVA → X (va / PGSIZE) = 0 ∨ X (va / PGSIZE) &&& PTE_U = 0
      | some pa => ∃ v, role pa = .user r v) m := by
  have user := mapped.userSpace space
  apply (walkaddr_reach user _).mono
  rintro found t ⟨same, rfl⟩
  refine ⟨same, ?_⟩
  split_ifs with reach
  · exact ⟨_, (user.used (div_lt_vpns reach.1) reach.2).2⟩
  · grind

theorem memmove_user {pa : Nat} {bytes : List Byte} (space : Space L role m r X) (user : role pa = .user r v)
    (inside : offset < PGSIZE) : wp (memmove (pa + offset) bytes) (fun _ t => Moves L role m role t r X) m := by
  have aligned := (space.heap.ram pa (by simp [user])).1
  have base : pgRoundDown (pa + offset) = pa := by
    simp only [pgRoundDown, PGSIZE] at *
    omega
  simp only [memmove, wp_bind, wp_get, wp_setPage, base]
  exact space.writeUser user rfl rfl

end

/-! ## Bytes of user memory -/

def memByte (m : Machine) (a : Nat) : Byte := getByte (m.page (pgRoundDown a)) (a % PGSIZE)

def userAddr (page : Nat → Page) (r va : Nat) : Option Nat :=
  if va < MAXVA then
    (mapping page r (va / PGSIZE)).bind fun entry =>
      if entry.2 &&& PTE_U = 0 then none else some (entry.1 + va % PGSIZE)
  else none

def userByte (m : Machine) (r va : Nat) : Option Byte := (userAddr m.page r va).map (memByte m)

section
variable {L : Layout} {role : Roles} {m t u : Machine} {r v va dst pa : Nat} {X : Nat → Word} {src front back : List Byte}
  {ok : Bool}

theorem pteFlags_user (w : Word) : pteFlags w &&& PTE_U = w &&& PTE_U := by
  rw [pteFlags, BitVec.and_assoc]
  congr 1

section

variable (user : UserSpace L role m r X)

include user

theorem UserSpace.userAddr (va : Nat) :
    userAddr m.page r va =
      if va < MAXVA ∧ X (va / PGSIZE) &&& PTE_U ≠ 0 then some (pte2pa (X (va / PGSIZE)) + va % PGSIZE) else none := by
  unfold Vm.userAddr
  by_cases low : va < MAXVA
  · have below := div_lt_vpns low
    have found : mapping m.page r (va / PGSIZE) = if X (va / PGSIZE) &&& PTE_V = 0 then none
        else some (pte2pa (X (va / PGSIZE)), pteFlags (X (va / PGSIZE))) := by
      rw [mapping, user.space.lookup _ below]
    rw [if_pos low, found]
    by_cases access : X (va / PGSIZE) &&& PTE_U = 0
    · have refused : ¬ (va < MAXVA ∧ X (va / PGSIZE) &&& PTE_U ≠ 0) := fun both => both.2 access
      rw [if_neg refused]
      by_cases invalid : X (va / PGSIZE) &&& PTE_V = 0
      · rw [if_pos invalid, Option.bind_none]
      · rw [if_neg invalid, Option.bind_some, pteFlags_user]
        exact if_pos access
    · have reach : va < MAXVA ∧ X (va / PGSIZE) &&& PTE_U ≠ 0 := ⟨low, access⟩
      rw [if_pos reach, if_neg (user.used below access).1.valid, Option.bind_some, pteFlags_user]
      exact if_neg access
  · grind

theorem UserSpace.injective {va va' a : Nat} (one : Vm.userAddr m.page r va = some a)
    (other : Vm.userAddr m.page r va' = some a) : va = va' := by
  rw [user.userAddr] at one other
  split_ifs at one other with reach reach'
  have owner := (user.used (div_lt_vpns reach.1) reach.2).2
  have owner' := (user.used (div_lt_vpns reach'.1) reach'.2).2
  have aligned := (user.space.heap.ram (pte2pa (X (va / PGSIZE))) (by simp [owner])).1
  have aligned' := (user.space.heap.ram (pte2pa (X (va' / PGSIZE))) (by simp [owner'])).1
  have sum := (Option.some.inj one).trans (Option.some.inj other).symm
  obtain ⟨page, offset⟩ : pte2pa (X (va / PGSIZE)) = pte2pa (X (va' / PGSIZE)) ∧ va % PGSIZE = va' % PGSIZE := by
    simp only [PGSIZE] at *
    omega
  rw [page, owner'] at owner
  have number : va' / PGSIZE = va / PGSIZE := by simpa using owner
  calc va = PGSIZE * (va / PGSIZE) + va % PGSIZE := (Nat.div_add_mod va PGSIZE).symm
    _ = PGSIZE * (va' / PGSIZE) + va' % PGSIZE := by rw [number, offset]
    _ = va' := Nat.div_add_mod va' PGSIZE

theorem UserSpace.low (reach : Vm.userAddr m.page r va ≠ none) : va < MAXVA := by
  by_contra high
  rw [user.userAddr, if_neg fun both => high both.1] at reach
  exact reach rfl

end

/-! ## `copyout` -/

/-- What `copyout` of `src` to `dst` leaves: it has written the bytes before the first page that it
could not reach, and nothing else. -/
structure Wrote (m t : Machine) (r dst : Nat) (src : List Byte) (ok : Bool) : Prop where
  table : ∀ va, userAddr t.page r va = userAddr m.page r va
  all : ok = true ↔ ∀ j, j < src.length → userAddr m.page r (dst + j) ≠ none
  written : ∀ j b, src[j]? = some b → (∀ i, i ≤ j → userAddr m.page r (dst + i) ≠ none) → userByte t r (dst + j) = some b
  confined : ∀ a, memByte t a ≠ memByte m a → ∃ j, j < src.length ∧
    (∀ i, i ≤ j → userAddr m.page r (dst + i) ≠ none) ∧ userAddr m.page r (dst + j) = some a

theorem Wrote.nil : Wrote m m r dst [] true := by
  refine ⟨fun _ => rfl, by simp, by simp, fun a changed => absurd rfl changed⟩

theorem Wrote.move {dst' : Nat} (wrote : Wrote m t r dst src ok) (same : src ≠ [] → dst = dst') :
    Wrote m t r dst' src ok := by
  cases src with
  | nil => exact ⟨wrote.table, by simpa using wrote.all, by simp, by simpa using wrote.confined⟩
  | cons b bytes =>
    obtain rfl := same (by simp)
    exact wrote

theorem Wrote.stuck (nonempty : src ≠ []) (bad : Vm.userAddr m.page r dst = none) : Wrote m m r dst src false := by
  refine ⟨fun _ => rfl, ?_, ?_, fun a changed => absurd rfl changed⟩
  · simp only [Bool.false_eq_true, false_iff, not_forall]
    exact ⟨0, List.length_pos_of_ne_nil nonempty, fun reach => reach bad⟩
  · intro j b _ reach
    exact absurd bad (reach 0 (Nat.zero_le j))

theorem Wrote.unreached {b : Byte} (wrote : Wrote m t r dst [b] false) :
    Vm.userAddr m.page r dst = none ∧ Wrote m t r dst [] true := by
  have bad : Vm.userAddr m.page r dst = none := by
    by_contra reach
    exact absurd (wrote.all.mpr (by simpa using reach)) (by decide)
  refine ⟨bad, wrote.table, by simp, by simp, fun a changed => ?_⟩
  obtain ⟨j, -, reach, -⟩ := wrote.confined a changed
  exact absurd bad (reach 0 (Nat.zero_le j))

theorem Wrote.append (user : UserSpace L role m r X) (first : Wrote m u r dst front true)
    (second : Wrote u t r (dst + front.length) back ok) : Wrote m t r dst (front ++ back) ok := by
  have reach := first.all.mp rfl
  have later (j : Nat) : Vm.userAddr u.page r (dst + front.length + j) = Vm.userAddr m.page r (dst + (front.length + j)) := by
    rw [first.table, Nat.add_assoc]
  constructor
  · intro va
    rw [second.table, first.table]
  · rw [second.all, List.length_append]
    constructor
    · intro rest j inside
      by_cases low : j < front.length
      · exact reach j low
      · have this := rest (j - front.length) (by omega)
        rwa [later, show front.length + (j - front.length) = j by omega] at this
    · intro whole j inside
      rw [later]
      exact whole (front.length + j) (by omega)
  · intro j b byte reachable
    by_cases low : j < front.length
    · rw [List.getElem?_append_left low] at byte
      have before := first.written j b byte reachable
      obtain ⟨a, here, value⟩ := Option.map_eq_some_iff.mp before
      rw [userByte, second.table, here, Option.map_some, ← value]
      congr 1
      by_contra changed
      obtain ⟨j', -, -, there⟩ := second.confined a changed
      rw [later] at there
      rw [first.table] at here
      have := user.injective here there
      omega
    · rw [List.getElem?_append_right (by omega)] at byte
      have this := second.written (j - front.length) b byte fun i small => by
        rw [later]
        exact reachable _ (by omega)
      rwa [Nat.add_assoc, show front.length + (j - front.length) = j by omega] at this
  · intro a changed
    by_cases moved : memByte t a = memByte u a
    · grind [first.confined]
    · obtain ⟨j, inside, reachable, here⟩ := second.confined a moved
      rw [later] at here
      refine ⟨front.length + j, by rw [List.length_append]; omega, fun i small => ?_, here⟩
      by_cases low : i < front.length
      · exact reach i low
      · have this := reachable (i - front.length) (by omega)
        rwa [later, show front.length + (i - front.length) = i by omega] at this

theorem memByte_frame (aligned : pa % PGSIZE = 0) (small : offset < PGSIZE) :
    memByte m (pa + offset) = getByte (m.page pa) offset := by
  have base : pgRoundDown (pa + offset) = pa := by
    simp only [pgRoundDown, PGSIZE] at *
    omega
  have rest : (pa + offset) % PGSIZE = offset := by
    simp only [PGSIZE] at *
    omega
  rw [memByte, base, rest]

section

variable (user : UserSpace L role m r X)

include user

theorem UserSpace.same {role' : Roles} (user' : UserSpace L role' t r X)
    (page : ∀ p v, role p = .user r v → t.page p = m.page p) (va : Nat) :
    Vm.userAddr t.page r va = Vm.userAddr m.page r va ∧ userByte t r va = userByte m r va := by
  have address : Vm.userAddr t.page r va = Vm.userAddr m.page r va := by rw [user'.userAddr, user.userAddr]
  refine ⟨address, ?_⟩
  rw [userByte, userByte, address, user.userAddr]
  split_ifs with reach
  · have owner := (user.used (div_lt_vpns reach.1) reach.2).2
    have aligned := (user.space.heap.ram _ (by rw [owner]; simp)).1
    have small : va % PGSIZE < PGSIZE := Nat.mod_lt _ (by decide)
    rw [Option.map_some, Option.map_some, memByte_frame aligned small, memByte_frame aligned small, page _ _ owner]
  · rfl

theorem UserSpace.samePage (access : X (dst / PGSIZE) &&& PTE_U ≠ 0) (low : dst < MAXVA)
    {j : Nat} (inside : dst % PGSIZE + j < PGSIZE) :
    Vm.userAddr m.page r (dst + j) = some (pte2pa (X (dst / PGSIZE)) + (dst % PGSIZE + j)) := by
  have page : (dst + j) / PGSIZE = dst / PGSIZE := by
    simp only [PGSIZE] at *
    omega
  have offset : (dst + j) % PGSIZE = dst % PGSIZE + j := by
    simp only [PGSIZE] at *
    omega
  have below : dst + j < MAXVA := by
    simp only [PGSIZE, MAXVA] at *
    omega
  rw [user.userAddr, page, offset]
  exact if_pos ⟨below, access⟩

theorem UserSpace.writePage (access : X (dst / PGSIZE) &&& PTE_U ≠ 0) (low : dst < MAXVA)
    (inside : dst % PGSIZE + front.length ≤ PGSIZE) (written : t.page = update m.page (pte2pa (X (dst / PGSIZE)))
      (putBytes (m.page (pte2pa (X (dst / PGSIZE)))) (dst % PGSIZE) front)) (freelist : t.freelist = m.freelist) :
    UserSpace L role t r X ∧ Moves L role m role t r X ∧ Wrote m t r dst front true := by
  have owner := (user.used (div_lt_vpns low) access).2
  have aligned := (user.space.heap.ram _ (by rw [owner]; simp)).1
  have moves := user.space.writeUser owner written freelist
  have user' : UserSpace L role t r X := ⟨moves.space, user.kernel⟩
  have changed (offset : Nat) (small : offset < PGSIZE) : memByte t (pte2pa (X (dst / PGSIZE)) + offset) =
      if dst % PGSIZE ≤ offset then front.getD (offset - dst % PGSIZE) (memByte m (pte2pa (X (dst / PGSIZE)) + offset))
      else memByte m (pte2pa (X (dst / PGSIZE)) + offset) := by
    rw [memByte_frame aligned small, memByte_frame aligned small, written, update_self, getByte_putBytes _ _ inside small]
  refine ⟨user', moves, ?_, ?_, ?_, ?_⟩
  · intro va
    rw [user'.userAddr, user.userAddr]
  · refine iff_of_true rfl fun j short => ?_
    rw [user.samePage access low (by omega)]
    simp
  · intro j b byte _
    obtain ⟨short, -⟩ := List.getElem?_eq_some_iff.mp byte
    rw [userByte, user'.samePage access low (by omega), Option.map_some, changed _ (by omega), if_pos (by omega),
      Nat.add_sub_cancel_left, List.getD_eq_getElem?_getD, byte, Option.getD_some]
  · intro a different
    have here : pgRoundDown a = pte2pa (X (dst / PGSIZE)) := by
      by_contra elsewhere
      apply different
      rw [memByte, memByte, written, update_of_ne elsewhere]
    have split : a = pte2pa (X (dst / PGSIZE)) + a % PGSIZE := by
      rw [← here]
      simp only [pgRoundDown, PGSIZE]
      omega
    have small : a % PGSIZE < PGSIZE := Nat.mod_lt _ (by decide)
    rw [split, changed _ small] at different
    split_ifs at different with above
    · have short : a % PGSIZE - dst % PGSIZE < front.length := by grind
      have sum : dst % PGSIZE + (a % PGSIZE - dst % PGSIZE) = a % PGSIZE := by omega
      refine ⟨a % PGSIZE - dst % PGSIZE, short, fun i less => ?_, ?_⟩
      · rw [user.samePage access low (by omega)]
        simp
      · rw [user.samePage access low (by omega), sum, ← split]
    · exact absurd rfl different

theorem walkaddr_page (va : Nat) :
    wp (walkaddr r (pgRoundDown va)) (fun found t => t = m ∧ found =
      if va < MAXVA ∧ X (va / PGSIZE) &&& PTE_U ≠ 0 then some (pte2pa (X (va / PGSIZE))) else none) m := by
  have page : pgRoundDown va / PGSIZE = va / PGSIZE := by
    simp only [pgRoundDown, PGSIZE]
    omega
  have below : pgRoundDown va < MAXVA ↔ va < MAXVA := by
    simp only [pgRoundDown, PGSIZE, MAXVA]
    omega
  simpa only [page, below] using walkaddr_reach user (pgRoundDown va)

end

theorem sub_pgRoundDown (va : Nat) : va - pgRoundDown va = va % PGSIZE := by
  simp only [pgRoundDown, PGSIZE]
  omega

theorem next_page {n : Nat} (low : va < MAXVA) (rest : n = PGSIZE - va % PGSIZE) :
    (pgRoundDown va + PGSIZE) % 2 ^ 64 = va + n := by
  simp only [pgRoundDown, PGSIZE, MAXVA] at *
  omega

theorem copyoutLoop_wrote {rounds : Nat} (user : UserSpace L role m r X) (enough : src.length ≤ rounds) :
    wp (copyoutLoop r rounds dst src) (fun ok t => Wrote m t r dst src ok ∧ Moves L role m role t r X) m := by
  induction rounds generalizing m dst src with
  | zero =>
    obtain rfl : src = [] := List.length_eq_zero_iff.mp (by omega)
    simp only [copyoutLoop, wp_pure]
    exact ⟨Wrote.nil, Moves.refl user.space⟩
  | succ rounds ih =>
    cases shape : src with
    | nil =>
      simp only [copyoutLoop, wp_pure]
      exact ⟨Wrote.nil, Moves.refl user.space⟩
    | cons b bytes =>
      simp only [copyoutLoop, wp_bind]
      rw [← shape, sub_pgRoundDown]
      have small : dst % PGSIZE < PGSIZE := Nat.mod_lt _ (by decide)
      apply (walkaddr_page user dst).mono
      rintro found u ⟨same, rfl⟩
      obtain rfl : m = u := same.symm
      split_ifs with reach
      · obtain ⟨low, access⟩ := reach
        have aligned : pte2pa (X (dst / PGSIZE)) % PGSIZE = 0 :=
          (user.space.heap.ram _ (by rw [(user.used (div_lt_vpns low) access).2]; simp)).1
        have base : pgRoundDown (pte2pa (X (dst / PGSIZE)) + dst % PGSIZE) = pte2pa (X (dst / PGSIZE)) := by
          simp only [pgRoundDown, PGSIZE] at *
          omega
        have rest : (pte2pa (X (dst / PGSIZE)) + dst % PGSIZE) % PGSIZE = dst % PGSIZE := by
          simp only [PGSIZE] at *
          omega
        have fits : dst % PGSIZE + (src.take (PGSIZE - dst % PGSIZE)).length ≤ PGSIZE := by
          rw [List.length_take]
          omega
        simp only [memmove, wp_bind, wp_get, wp_setPage, base, rest]
        obtain ⟨user', moves, first⟩ := user.writePage (t := { m with page := _ }) access low fits rfl rfl
        have progress : (src.drop (PGSIZE - dst % PGSIZE)).length ≤ rounds := by
          rw [List.length_drop]
          omega
        apply (ih user' progress).mono
        rintro ok t ⟨second, moves'⟩
        refine ⟨?_, moves.trans moves'⟩
        have whole := first.append user (second.move fun more => ?_)
        · rwa [List.take_append_drop] at whole
        · have long : PGSIZE - dst % PGSIZE < src.length := by
            simpa using more
          rw [next_page low rfl, List.length_take, min_eq_left (by omega)]
      · simp only [wp_pure]
        refine ⟨Wrote.stuck (by rw [shape]; simp) ?_, Moves.refl user.space⟩
        rw [user.userAddr, if_neg reach]

theorem copyout_wrote (user : UserSpace L role m r X) (dst : Nat) (src : List Byte) :
    wp (copyout r dst src) (fun ok t => Wrote m t r dst src ok ∧ Moves L role m role t r X) m :=
  copyoutLoop_wrote user (Nat.le_refl _)

theorem copyout_moves {tf sz : Nat} (space : Space L role m r X) (mapped : Mapped L tf sz X) :
    wp (copyout r dst src) (fun _ t => Moves L role m role t r X) m :=
  (copyout_wrote (mapped.userSpace space) _ _).mono fun _ _ => And.right

theorem Wrote.outside (user : UserSpace L role m r X) (wrote : Wrote m t r dst src ok)
    (elsewhere : ¬ (dst ≤ va ∧ va < dst + src.length)) : userByte t r va = userByte m r va := by
  rw [userByte, userByte, wrote.table]
  cases here : Vm.userAddr m.page r va with
  | none => rfl
  | some a =>
    rw [Option.map_some, Option.map_some]
    congr 1
    by_contra changed
    obtain ⟨j, inside, -, there⟩ := wrote.confined a changed
    have := user.injective here there
    omega

end

/-! ## Runs of bytes -/

def userBytes (m : Machine) (r : Nat) : Nat → Nat → List Byte
  | _, 0 => []
  | va, n + 1 =>
    match userByte m r va with
    | none => []
    | some b => b :: userBytes m r (va + 1) n

section
variable {m t : Machine} {r va n k j : Nat} {b : Byte} {front : List Byte}

theorem userByte_eq_none : userByte m r va = none ↔ userAddr m.page r va = none := Option.map_eq_none_iff

theorem userBytes_none (bad : userByte m r va = none) : userBytes m r va n = [] := by
  cases n with
  | zero => rfl
  | succ n => simp only [userBytes, bad]

theorem userBytes_append (reach : ∀ j b, front[j]? = some b → userByte m r (va + j) = some b) :
    userBytes m r va (front.length + k) = front ++ userBytes m r (va + front.length) k := by
  induction front generalizing va with
  | nil => simp
  | cons b front ih =>
    have here : userByte m r va = some b := reach 0 b rfl
    have later (j : Nat) (c : Byte) (byte : front[j]? = some c) : userByte m r (va + 1 + j) = some c := by
      rw [Nat.add_right_comm]
      exact reach (j + 1) c byte
    have count : (b :: front).length + k = front.length + k + 1 := by
      rw [List.length_cons, Nat.add_right_comm]
    rw [count, userBytes, here, List.cons_append, List.length_cons, ← Nat.add_assoc, Nat.add_right_comm va]
    exact congrArg (b :: ·) (ih later)

theorem userBytes_length_le : (userBytes m r va n).length ≤ n := by
  induction n generalizing va with
  | zero => simp [userBytes]
  | succ n ih =>
    rw [userBytes]
    split
    · simp
    · simpa using ih

theorem userBytes_getElem (byte : (userBytes m r va n)[j]? = some b) : userByte m r (va + j) = some b := by
  induction n generalizing va j with
  | zero => simp [userBytes] at byte
  | succ n ih =>
    rw [userBytes] at byte
    split at byte
    · simp at byte
    · cases j with
      | zero => grind
      | succ j =>
        have later := ih byte
        rwa [Nat.add_right_comm] at later

theorem userBytes_stop (short : (userBytes m r va n).length < n) :
    userByte m r (va + (userBytes m r va n).length) = none := by
  induction n generalizing va with
  | zero => simp at short
  | succ n ih =>
    cases here : userByte m r va with
    | none => rw [userBytes_none here, List.length_nil, Nat.add_zero, here]
    | some c =>
      have step : userBytes m r va (n + 1) = c :: userBytes m r (va + 1) n := by
        simp only [userBytes, here]
      rw [step, List.length_cons] at short ⊢
      rw [Nat.add_comm _ 1, ← Nat.add_assoc]
      exact ih (by omega)

theorem userBytes_reach (reach : ∀ i, i ≤ k → userByte m r (va + i) ≠ none) (inside : k < n) :
    k < (userBytes m r va n).length := by
  by_contra short
  have stop : (userBytes m r va n).length < n := by omega
  exact reach _ (by omega) (userBytes_stop stop)

theorem userBytes_full : (userBytes m r va n).length = n ↔ ∀ j, j < n → userByte m r (va + j) ≠ none := by
  constructor
  · intro full j inside
    have byte := List.getElem?_eq_getElem (l := userBytes m r va n) (full.symm ▸ inside)
    rw [userBytes_getElem byte]
    simp
  · intro reach
    by_contra short
    have bound : (userBytes m r va n).length ≤ n := userBytes_length_le
    have stop : (userBytes m r va n).length < n := by omega
    exact reach _ stop (userBytes_stop stop)

theorem userBytes_congr (same : ∀ j, j < n → userByte t r (va + j) = userByte m r (va + j)) :
    userBytes t r va n = userBytes m r va n := by
  induction n generalizing va with
  | zero => rfl
  | succ n ih =>
    have later (j : Nat) (inside : j < n) : userByte t r (va + 1 + j) = userByte m r (va + 1 + j) := by
      rw [Nat.add_right_comm]
      exact same (j + 1) (by omega)
    have here : userByte t r va = userByte m r va := same 0 (by omega)
    rw [userBytes, userBytes, here, ih later]

theorem userBytes_wrote {dst : Nat} {src : List Byte} (wrote : Wrote m t r dst src true) :
    userBytes t r dst src.length = src := by
  have reach := wrote.all.mp rfl
  have copied : ∀ j b, src[j]? = some b → userByte t r (dst + j) = some b := by grind [wrote.written]
  have whole := userBytes_append (k := 0) copied
  rwa [Nat.add_zero, userBytes, List.append_nil] at whole

end

end Xv6.Vm
