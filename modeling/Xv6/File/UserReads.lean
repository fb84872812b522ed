import Xv6.File.Pipe
import Xv6.Vm.Resize

namespace Xv6.File
open Lib Vm

/-! ## `piperead` and user memory

A stretch of `piperead` under `pi->lock`, with the page table of the reader; `copyout` writes one
byte at a time. -/

structure PipeReader where
  pipe : Pipe
  machine : Machine

def pipeCopyLoop (pagetable addr : Nat) : (left i : Nat) → Comp PipeReader Panic Nat
  | 0, i => pure i
  | left + 1, i => do
    let s ← get
    if s.pipe.nread = s.pipe.nwrite then pure i
    else do
      modify fun s => { s with pipe := s.pipe.take }
      if ← zoom (·.machine) (fun m s => { s with machine := m })
          (copyout pagetable ((addr + i) % 2 ^ 64) [s.pipe.next.toBitVec]) then
        pipeCopyLoop pagetable addr left (i + 1)
      else pure i

def pipereadUser (killed : Bool) (pagetable addr : Nat) (n : Int) : Comp PipeReader Panic Outcome := do
  let s ← get
  if s.pipe.nread = s.pipe.nwrite ∧ s.pipe.writeopen then
    if killed then pure (.ret (-1)) else pure (.sleep 0)
  else do
    let i ← pipeCopyLoop pagetable addr n.toNat 0
    pure (.ret i)

namespace Pipe

def available (pi : Pipe) : Nat := (pi.nwrite - pi.nread).toNat

/-- The byte that is `k` bytes behind `pi->nread`. -/
def ahead (pi : Pipe) (k : Nat) : Byte := (pi.data (Fin.ofNat PIPESIZE (pi.nread + BitVec.ofNat 32 k).toNat)).toBitVec

variable (pi : Pipe)

theorem available_lt : pi.available < 2 ^ 32 := BitVec.isLt _

theorem taken {k : Nat} (small : k < 2 ^ 32) : (pi.nread + BitVec.ofNat 32 k - pi.nread).toNat = k := by
  rw [BitVec.add_comm, BitVec.add_sub_cancel, BitVec.toNat_ofNat, Nat.mod_eq_of_lt small]

theorem take_available {pi : Pipe} (some : pi.nread ≠ pi.nwrite) : pi.take.available + 1 = pi.available := by
  rw [available, available, take]
  bv_omega

theorem take_nread (k : Nat) : pi.take.nread + BitVec.ofNat 32 k = pi.nread + BitVec.ofNat 32 (k + 1) := by
  rw [Nat.add_comm k, BitVec.ofNat_add, ← BitVec.add_assoc]
  rfl

theorem take_ahead (k : Nat) : pi.take.ahead k = pi.ahead (k + 1) := by
  rw [ahead, ahead, take_nread]
  rfl

theorem map_ahead (k : Nat) :
    [pi.next.toBitVec] ++ (List.range k).map pi.take.ahead = (List.range (k + 1)).map pi.ahead := by
  have first : pi.next.toBitVec = pi.ahead 0 := by simp [next, ahead]
  rw [List.range_succ_eq_map, List.map_cons, List.map_map, first]
  exact congrArg (pi.ahead 0 :: ·) (List.map_congr_left fun k _ => pi.take_ahead k)

end Pipe

section
variable {L : Layout} {role : Roles} {m : Machine} {r addr : Nat} {X : Nat → Word} {pi : Pipe}

theorem address_add {j : Nat} (low : addr % 2 ^ 64 < MAXVA) (small : j < 2 ^ 32) : (addr + j) % 2 ^ 64 = addr % 2 ^ 64 + j := by
  simp only [MAXVA] at low
  omega

/-- The loop stops behind `k` bytes; if it could have gone on, the next byte is lost. -/
theorem pipeCopyLoop_spec (user : UserSpace L role m r X) (left i : Nat) :
    wp (pipeCopyLoop r addr left i) (fun j s => ∃ k, j = i + k ∧
      Wrote m s.machine r ((addr + i) % 2 ^ 64) ((List.range k).map pi.ahead) true ∧
      (k = min left pi.available ∧ s.pipe.nread = pi.nread + BitVec.ofNat 32 k ∨
        k < min left pi.available ∧ s.pipe.nread = pi.nread + BitVec.ofNat 32 (k + 1) ∧
          userAddr m.page r ((addr + (i + k)) % 2 ^ 64) = none)) ⟨pi, m⟩ := by
  induction left generalizing i m pi with
  | zero => exact (wp_pure ..).mpr ⟨0, rfl, Wrote.nil, .inl ⟨by simp, by simp⟩⟩
  | succ left ih =>
    simp only [pipeCopyLoop, wp_bind, wp_get]
    split_ifs with empty
    · exact (wp_pure ..).mpr ⟨0, rfl, Wrote.nil, .inl ⟨by simp [Pipe.available, empty], by simp⟩⟩
    · have more := Pipe.take_available empty
      simp only [wp_bind, wp_modify, wp_zoom]
      apply (copyout_wrote user _ _).mono
      rintro ok t ⟨wrote, moves⟩
      cases ok with
      | false =>
        obtain ⟨bad, nothing⟩ := wrote.unreached
        exact (wp_pure ..).mpr ⟨0, rfl, nothing, .inr ⟨by omega, rfl, bad⟩⟩
      | true =>
        have low := user.low (wrote.all.mp rfl 0 Nat.zero_lt_one)
        apply (ih ⟨moves.space, user.kernel⟩ (i + 1)).mono
        rintro j s ⟨k, rfl, rest, stop⟩
        refine ⟨k + 1, by omega, ?_, ?_⟩
        · rw [← pi.map_ahead]
          exact wrote.append user (rest.move fun _ => address_add (j := 1) low (by decide))
        · rw [pi.take_nread, pi.take_nread, wrote.table, Nat.add_assoc i, Nat.add_comm 1] at stop
          exact stop.imp (fun done => ⟨by omega, done.2⟩) fun lost => ⟨by omega, lost.2⟩

/-- What a call that returns `j` owes the pipe and the buffer. -/
def Accounts (r addr : Nat) (pi : Pipe) (j : Nat) (s : PipeReader) : Prop :=
  (s.pipe.nread - pi.nread).toNat = j ∧ ∀ k < j, userByte s.machine r ((addr + k) % 2 ^ 64) = some (pi.ahead k)

theorem piperead_accounts_iff (table : ∃ role X, UserSpace L role m r X) (killed : Bool) (addr : Nat) (n : Int) (pi : Pipe) :
    ∃ out s, (pipereadUser killed r addr n).run ⟨pi, m⟩ = .ok (out, s) ∧
      ((∀ j : Nat, out = .ret j → Accounts r addr pi j s) ↔
        ∀ k < min n.toNat pi.available, userAddr m.page r ((addr + k) % 2 ^ 64) ≠ none) := by
  obtain ⟨role, X, user⟩ := table
  apply wp.run_eq
  have few := pi.available_lt
  simp only [pipereadUser, wp_bind, wp_get]
  split_ifs with waits dead
  · exact (wp_pure ..).mpr ⟨fun _ k inside => by simp [Pipe.available, waits.1] at inside, fun _ j is => by cases is⟩
  · exact (wp_pure ..).mpr ⟨fun _ k inside => by simp [Pipe.available, waits.1] at inside, fun _ j is => by cases is⟩
  · apply (pipeCopyLoop_spec user n.toNat 0).bind
    rintro j s ⟨k, rfl, wrote, stop⟩
    rw [wp_pure]
    have reach (j : Nat) (inside : j < k) : (addr + j) % 2 ^ 64 = addr % 2 ^ 64 + j ∧
        userAddr m.page r (addr % 2 ^ 64 + j) ≠ none := by
      have all := wrote.all.mp rfl
      simp only [List.length_map, List.length_range, Nat.add_zero] at all
      exact ⟨address_add (user.low (all 0 (by omega))) (by omega), all j inside⟩
    rcases stop with ⟨rfl, nread⟩ | ⟨more, nread, bad⟩
    · refine iff_of_true (fun j is => ?_) fun j inside => (reach j inside).1 ▸ (reach j inside).2
      obtain rfl := (Nat.zero_add _).symm.trans (Int.ofNat.inj (Outcome.ret.inj is))
      refine ⟨by rw [nread, pi.taken (by omega)], fun j inside => ?_⟩
      rw [(reach j inside).1]
      exact wrote.written j _ (by simp [inside]) fun i before => (reach i (by omega)).2
    · refine iff_of_false (fun accounts => ?_) fun all => all k more (by simpa using bad)
      have count := (accounts (0 + k) rfl).1
      rw [nread, pi.taken (by omega)] at count
      omega

end

def oneByte : Pipe := ⟨fun _ => 7, 0, 1, true, true⟩

theorem first_table : ∃ s role X, step smallLayout bootState ⟨.userinit, []⟩ = some s ∧
    UserSpace smallLayout role s.kernel.machine (s.kernel.proc 0).pagetable X := by
  obtain ⟨s, first⟩ := Option.isSome_iff_exists.mp
    (show (step smallLayout bootState ⟨.userinit, []⟩).isSome by decide +kernel)
  obtain ⟨⟨role, inv⟩, used, -⟩ := bootState_first first
  obtain ⟨X, space, mapped⟩ := (inv.owns.live 0 id used).space
  exact ⟨s, role, X, first, mapped.userSpace space⟩

theorem piperead_accounts_first : ∃ s out t, step smallLayout bootState ⟨.userinit, []⟩ = some s ∧
    (pipereadUser false (s.kernel.proc 0).pagetable 100 3).run ⟨oneByte, s.kernel.machine⟩ = .ok (out, t) ∧
    ((∀ j : Nat, out = .ret j → Accounts (s.kernel.proc 0).pagetable 100 oneByte j t) ↔
      ∀ k < min (3 : Int).toNat oneByte.available,
        userAddr s.kernel.machine.page (s.kernel.proc 0).pagetable ((100 + k) % 2 ^ 64) ≠ none) := by
  obtain ⟨s, role, X, first, user⟩ := first_table
  obtain ⟨out, t, ran, accounts⟩ := piperead_accounts_iff ⟨role, X, user⟩ false 100 3 oneByte
  exact ⟨s, out, t, first, ran, accounts⟩

/-- The bad address of the test `copyout` in usertests. -/
theorem piperead_loses_byte : ∃ s t, step smallLayout bootState ⟨.userinit, []⟩ = some s ∧
    (pipereadUser false (s.kernel.proc 0).pagetable 0xffffffffffffffff 1).run ⟨oneByte, s.kernel.machine⟩ = .ok (.ret 0, t) ∧
    oneByte.available = 1 ∧ t.pipe.available = 0 := by
  obtain ⟨s, -, -, first, -⟩ := first_table
  exact ⟨s, ⟨oneByte.take, s.kernel.machine⟩, first, rfl, rfl, (by decide : oneByte.take.available = 0)⟩

/-! ## `fileread`

The content of a file comes block by block: `block bn` is what `bread` returns for the block that
`bmap` gives for `bn`. -/

def readiLoop (pagetable : Nat) (block : Nat → Nat → Byte) (addr : Nat) : (fuel tot off left : Nat) → M (Option Nat)
  | 0, tot, _, _ => pure (some tot)
  | fuel + 1, tot, off, left =>
    if left = 0 then pure (some tot)
    else do
      let m := min left (BSIZE - off % BSIZE)
      if ← copyout pagetable ((addr + tot) % 2 ^ 64) ((List.range m).map fun k => block (off / BSIZE) (off % BSIZE + k)) then
        readiLoop pagetable block addr fuel (tot + m) (off + m) (left - m)
      else pure none

def readi (pagetable : Nat) (block : Nat → Nat → Byte) (size : BitVec 32) (addr : Nat) (off n : BitVec 32) : M Int :=
  if off > size ∨ off + n < off then pure 0
  else do
    let n := if off + n > size then size - off else n
    match ← readiLoop pagetable block addr n.toNat 0 off.toNat n.toNat with
    | some tot => pure (BitVec.ofNat 32 tot).toInt
    | none => pure (-1)

inductive Backing where
  | pipe (pi : Pipe)
  | inode (off size : BitVec 32) (block : Nat → Nat → Byte)

structure FileReader where
  readable : Bool
  backing : Backing
  machine : Machine

def fileread (killed : Bool) (pagetable addr : Nat) (n : BitVec 32) : Comp FileReader Panic Outcome := do
  let f ← get
  if f.readable = false then pure (.ret (-1))
  else match f.backing with
    | .pipe pi =>
      zoom (fun f => ⟨pi, f.machine⟩) (fun s f => { f with backing := .pipe s.pipe, machine := s.machine })
        (pipereadUser killed pagetable addr n.toInt)
    | .inode off size block => do
      let r ← zoom (·.machine) (fun m f => { f with machine := m }) (readi pagetable block size addr off n)
      modify fun f => if r > 0 then { f with backing := .inode (off + BitVec.ofInt 32 r) size block } else f
      pure (.ret r)

/-- What `readi` makes of a count. -/
def clipped (size off n : BitVec 32) : BitVec 32 :=
  if off > size ∨ off + n < off then 0 else if off + n > size then size - off else n

theorem clipped_le (size off n : BitVec 32) :
    (clipped size off n).toNat ≤ n.toInt.toNat ↔ 0 ≤ n.toInt ∨ 0 ≤ off.toNat + n.toInt ∨ size ≤ off := by
  rw [clipped, BitVec.toInt_eq_toNat_cond]
  split_ifs <;> bv_omega

section
variable {L : Layout} {role : Roles} {m t : Machine} {r addr : Nat} {X : Nat → Word} {block : Nat → Nat → Byte}

/-- The loop stops in the chunk that it cannot copy. -/
theorem readiLoop_wrote (user : UserSpace L role m r X) (fuel tot off left : Nat) (enough : left ≤ fuel) :
    wp (readiLoop r block addr fuel tot off left) (fun res t => ∃ src ok, src.length ≤ left ∧
      (0 < left → src[0]? = some (block (off / BSIZE) (off % BSIZE))) ∧
      Wrote m t r ((addr + tot) % 2 ^ 64) src ok ∧ res = if ok then some (tot + left) else none) m := by
  induction fuel generalizing m tot off left with
  | zero =>
    obtain rfl : left = 0 := by omega
    exact (wp_pure ..).mpr ⟨[], true, Nat.le_refl 0, by simp, Wrote.nil, rfl⟩
  | succ fuel ih =>
    rw [readiLoop]
    split_ifs with done
    · subst done
      exact (wp_pure ..).mpr ⟨[], true, Nat.le_refl 0, by simp, Wrote.nil, rfl⟩
    · have room : 0 < BSIZE - off % BSIZE := Nat.sub_pos_of_lt (Nat.mod_lt _ (by decide))
      simp only [wp_bind]
      generalize isM : min left (BSIZE - off % BSIZE) = n
      generalize chunk : (List.range n).map (fun k => block (off / BSIZE) (off % BSIZE + k)) = src
      have front : src[0]? = some (block (off / BSIZE) (off % BSIZE)) := by
        rw [← chunk, List.getElem?_map, List.getElem?_range (by omega), Option.map_some, Nat.add_zero]
      have length : src.length = n := by rw [← chunk, List.length_map, List.length_range]
      apply (copyout_wrote user _ _).mono
      rintro ok u ⟨first, moves⟩
      cases ok with
      | false => exact (wp_pure ..).mpr ⟨src, false, by omega, fun _ => front, first, rfl⟩
      | true =>
        have low := user.low (first.all.mp rfl (n - 1) (by omega))
        have next : (addr + (tot + n)) % 2 ^ 64 = (addr + tot) % 2 ^ 64 + src.length := by
          simp only [MAXVA] at low
          omega
        apply (ih ⟨moves.space, user.kernel⟩ (tot + n) (off + n) (left - n) (by omega)).mono
        rintro res t ⟨rest, ok, short, -, second, rfl⟩
        refine ⟨src ++ rest, ok, by rw [List.length_append]; omega, fun _ => ?_, first.append user (next ▸ second), ?_⟩
        · rw [List.getElem?_append_left (by omega), front]
        · rw [Nat.add_assoc, Nat.add_sub_cancel' (by omega)]

theorem readi_wrote (user : UserSpace L role m r X) (size off n : BitVec 32) :
    wp (readi r block size addr off n) (fun res t => ∃ src ok, src.length ≤ (clipped size off n).toNat ∧
      (0 < (clipped size off n).toNat → src[0]? = some (block (off.toNat / BSIZE) (off.toNat % BSIZE))) ∧
      Wrote m t r (addr % 2 ^ 64) src ok ∧ res = if ok then (clipped size off n).toInt else -1) m := by
  rw [readi, clipped]
  by_cases stop : off > size ∨ off + n < off
  · rw [if_pos stop, if_pos stop]
    exact (wp_pure ..).mpr ⟨[], true, Nat.le_refl 0, by simp, Wrote.nil, rfl⟩
  · rw [if_neg stop, if_neg stop]
    apply (readiLoop_wrote user _ _ _ _ (Nat.le_refl _)).bind
    rintro _ t ⟨src, ok, short, front, wrote, rfl⟩
    cases ok with
    | false => exact (wp_pure ..).mpr ⟨src, false, short, front, wrote, rfl⟩
    | true => exact (wp_pure ..).mpr ⟨src, true, short, front, wrote, by simp⟩

/-- What a call with count `n` may return and change. -/
def Within (m : Machine) (r addr : Nat) (n : Int) (out : Outcome) (t : Machine) : Prop :=
  (∀ res, out = .ret res → res ≤ max n 0) ∧
  ∀ a, memByte t a ≠ memByte m a → ∃ k < n.toNat, userAddr m.page r ((addr + k) % 2 ^ 64) = some a

theorem Within.unchanged {n : Int} {out : Outcome} (small : ∀ res, out = .ret res → res ≤ 0) : Within m r addr n out m :=
  ⟨fun res is => (small res is).trans (le_max_right n 0), fun _ changed => absurd rfl changed⟩

section

variable (user : UserSpace L role m r X)

include user

theorem wrote_within {src : List Byte} {ok : Bool} {n : Int} {a : Nat}
    (wrote : Wrote m t r (addr % 2 ^ 64) src ok) (short : src.length ≤ n.toNat) (changed : memByte t a ≠ memByte m a) :
    ∃ k < n.toNat, userAddr m.page r ((addr + k) % 2 ^ 64) = some a := by
  obtain ⟨j, inside, reach, here⟩ := wrote.confined a changed
  have low := user.low (reach j (Nat.le_refl j))
  have address : (addr + j) % 2 ^ 64 = addr % 2 ^ 64 + j := by
    simp only [MAXVA] at low
    omega
  exact ⟨j, by omega, address ▸ here⟩

theorem pipereadUser_within (killed : Bool) (n : Int) (pi : Pipe) :
    wp (pipereadUser killed r addr n) (fun out s => Within m r addr n out s.machine) ⟨pi, m⟩ := by
  simp only [pipereadUser, wp_bind, wp_get]
  split_ifs with waits dead
  · exact (wp_pure ..).mpr (.unchanged fun _ is => by cases is; decide)
  · exact (wp_pure ..).mpr (.unchanged fun _ is => by cases is)
  · apply (pipeCopyLoop_spec user n.toNat 0).bind
    rintro _ s ⟨k, rfl, wrote, stop⟩
    have few : k ≤ n.toNat := by omega
    refine (wp_pure ..).mpr ⟨fun _ is => ?_, fun _ => wrote_within user wrote (by simpa using few)⟩
    cases is
    omega

theorem readi_within_iff (size off n : BitVec 32) :
    (∀ block, wp (readi r block size addr off n) (fun res t => Within m r addr n.toInt (.ret res) t) m) ↔
      0 ≤ n.toInt ∨ 0 ≤ off.toNat + n.toInt ∨ size ≤ off ∨ userAddr m.page r (addr % 2 ^ 64) = none := by
  rw [← or_assoc (b := size ≤ off), ← or_assoc, ← clipped_le]
  constructor
  · intro all
    by_contra bad
    obtain ⟨long, reach⟩ := not_or.mp bad
    obtain ⟨a, here⟩ := Option.ne_none_iff_exists'.mp reach
    obtain ⟨res, t, -, within, src, ok, -, front, wrote, -⟩ :=
      ((all fun _ _ => memByte m a + 1).and (readi_wrote user size off n)).run_eq
    have byte := wrote.written 0 _ (front (by omega)) fun i first => by rwa [Nat.le_zero.mp first]
    rw [Nat.add_zero, userByte, wrote.table, here, Option.map_some] at byte
    obtain ⟨k, inside, -⟩ := within.2 a (by rw [Option.some.inj byte]; simp)
    exact long ((clipped_le ..).mpr (.inl (by omega)))
  · intro fits block
    apply (readi_wrote user size off n).mono
    rintro _ t ⟨src, ok, short, front, wrote, rfl⟩
    have count : ok = true → (clipped size off n).toNat ≤ n.toInt.toNat := by
      intro copied
      by_contra long
      have some := (List.getElem?_eq_some_iff.mp (front (by omega))).1
      exact wrote.all.mp copied 0 some (fits.resolve_left long)
    refine ⟨fun _ is => ?_, fun a changed => ?_⟩
    · cases is
      split_ifs with copied
      · have := count copied
        rw [BitVec.toInt_eq_toNat_cond]
        omega
      · omega
    · rcases fits with fits | bad
      · exact wrote_within user wrote (by omega) changed
      · obtain ⟨j, -, reach, -⟩ := wrote.confined a changed
        exact absurd bad (reach 0 (Nat.zero_le j))

end

theorem fileread_within_iff (table : ∃ role X, UserSpace L role m r X) (killed readable : Bool) (addr : Nat) (n : BitVec 32) :
    (∀ pi, wp (fileread killed r addr n) (fun out f => Within m r addr n.toInt out f.machine) ⟨readable, .pipe pi, m⟩) ∧
    ∀ off size, (∀ block, wp (fileread killed r addr n) (fun out f => Within m r addr n.toInt out f.machine)
        ⟨readable, .inode off size block, m⟩) ↔
      readable = false ∨ 0 ≤ n.toInt ∨ 0 ≤ off.toNat + n.toInt ∨ size ≤ off ∨ userAddr m.page r (addr % 2 ^ 64) = none := by
  obtain ⟨role, X, user⟩ := table
  simp only [fileread, wp_bind, wp_get]
  cases readable with
  | false =>
    have refused : Within m r addr n.toInt (.ret (-1)) m := .unchanged fun _ is => by cases is; decide
    simp only [↓reduceIte, wp_pure, refused, implies_true, true_or, and_self]
  | true =>
    simp only [Bool.true_eq_false, ↓reduceIte, false_or, wp_bind, wp_zoom, wp_modify, wp_pure, apply_ite FileReader.machine,
      ite_self]
    exact ⟨pipereadUser_within user killed n.toInt, fun off size => readi_within_iff user size off n⟩

end

theorem fileread_within_first : ∃ s, step smallLayout bootState ⟨.userinit, []⟩ = some s ∧
    ∀ pi, wp (fileread false (s.kernel.proc 0).pagetable 100 (-1))
      (fun out f => Within s.kernel.machine (s.kernel.proc 0).pagetable 100 (-1) out f.machine)
      ⟨true, .pipe pi, s.kernel.machine⟩ := by
  obtain ⟨s, role, X, first, user⟩ := first_table
  exact ⟨s, first, (fileread_within_iff ⟨role, X, user⟩ false true 100 (-1)).1⟩

def Outcome.returned : Outcome → Option Int
  | .ret r => some r
  | .sleep _ => none

/-- A count of -1 at the start of a file of one byte. -/
theorem fileread_passes_count : (step smallLayout bootState ⟨.userinit, []⟩).map (fun s =>
    ((fileread false (s.kernel.proc 0).pagetable 0 (-1)).run ⟨true, .inode 0 1 fun _ _ => 7, s.kernel.machine⟩).toOption.map
      fun (out, f) => (out.returned, [s.kernel.machine, f.machine].map (userByte · (s.kernel.proc 0).pagetable 0))) =
    some (some (some 1, [some 0x17, some 7])) := by
  decide +kernel

end Xv6.File
