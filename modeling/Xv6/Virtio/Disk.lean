import Xv6.Lib.Fault
import Xv6.Lib.Fifo
import Xv6.Lib.Run
import Xv6.Param

namespace Xv6.Virtio
open Lib Function

/-! ## The structures shared with the device -/

abbrev NUM : Nat := 8
abbrev VRING_DESC_F_NEXT : BitVec 16 := 1
abbrev VRING_DESC_F_WRITE : BitVec 16 := 2

/-- What a descriptor points to: `ops[i]`, the data of a buffer, or `info[i].status`. -/
inductive Addr (B : Type) where
  | null
  | ops (i : Nat)
  | data (b : B)
  | status (i : Nat)

structure Desc (B : Type) where
  addr : Addr B
  len : Nat
  flags : BitVec 16
  next : Nat

structure Info (B : Type) where
  b : Option B
  status : UInt8

/-- The three descriptors `idx[0..2]` of a request. -/
structure Chain where
  head : Nat
  body : Nat
  last : Nat
  deriving DecidableEq

def Chain.descs (c : Chain) : List Nat := [c.head, c.body, c.last]

attribute [local simp] Chain.descs

/-- Where a thread stands. `alloc` is the loop around `alloc3_desc`, asleep or not yet in it; `wait`
is the sleep in the last loop of `virtio_disk_rw`. -/
inductive Pc (B : Type) where
  | out
  | alloc (b : B) (write : Bool)
  | store (b : B) (c : Chain)
  | notify (b : B) (c : Chain)
  | check (b : B) (c : Chain)
  | wait (b : B) (c : Chain)
  | intr
  | loop
  deriving DecidableEq

/-- `avail` is the avail ring with its `idx` as the tail; its head is how far the device has read.
`used` is the used ring with its `idx` as the tail; its head is the driver's `used_idx`.
`pending` are the chain heads that the device has read and not completed, `flag b` is `b->disk`,
and `holder b` is the thread that has the lock of buffer `b`. -/
structure State (T B : Type) where
  desc : Nat → Desc B
  avail : Fifo Nat 16 NUM
  used : Fifo Nat 16 NUM
  free : Nat → Bool
  info : Nat → Info B
  flag : B → Bool
  pending : List Nat
  lock : Option T
  holder : B → Option T
  pc : T → Pc B

inductive Stop where
  | freeDesc1
  | freeDesc2
  | intrStatus
  | nullBuf
  | endless
  | disabled
  deriving DecidableEq

abbrev Op (T B : Type) := Comp (State T B) Stop

section
variable {T B : Type}

/-! ## Descriptors -/

def allocDesc : Op T B (Option Nat) := do
  let s ← get
  match (List.range NUM).find? s.free with
  | some i => do
    modify fun s => { s with free := update s.free i false }
    pure (some i)
  | none => pure none

def freeDesc (i : Nat) : Op T B Unit := do
  let s ← get
  if NUM ≤ i then throw .freeDesc1
  else if s.free i then throw .freeDesc2
  else modify fun s => { s with
    desc := update s.desc i ⟨.null, 0, 0, 0⟩
    free := update s.free i true }

/-- A loop that goes round `NUM` times has freed every descriptor, and `free_desc` stops it. -/
def freeChainFrom : (fuel i : Nat) → Op T B Unit
  | 0, _ => throw .endless
  | fuel + 1, i => do
    let s ← get
    let d := s.desc i
    freeDesc i
    if d.flags &&& VRING_DESC_F_NEXT ≠ 0 then freeChainFrom fuel d.next else pure ()

def freeChain (i : Nat) : Op T B Unit := freeChainFrom (NUM + 1) i

def alloc3Desc : Op T B (Option Chain) := do
  let one ← allocDesc
  match one with
  | none => pure none
  | some i => do
    let two ← allocDesc
    match two with
    | none => do
      freeDesc i
      pure none
    | some j => do
      let three ← allocDesc
      match three with
      | none => do
        freeDesc i
        freeDesc j
        pure none
      | some k => pure (some ⟨i, j, k⟩)

variable [DecidableEq T] [DecidableEq B]

/-! ## `virtio_disk_rw` -/

def State.goto (s : State T B) (t : T) (c : Pc B) : State T B := { s with pc := update s.pc t c }

def State.acquire (s : State T B) (t : T) (c : Pc B) : State T B := { s.goto t c with lock := some t }

def State.release (s : State T B) (t : T) (c : Pc B) : State T B := { s.goto t c with lock := none }

def format (b : B) (write : Bool) (c : Chain) (s : State T B) : State T B :=
  let first : Desc B := ⟨.ops c.head, 16, VRING_DESC_F_NEXT, c.body⟩
  let second : Desc B :=
    ⟨.data b, BSIZE, (if write then 0 else VRING_DESC_F_WRITE) ||| VRING_DESC_F_NEXT, c.last⟩
  let third : Desc B := ⟨.status c.head, 1, VRING_DESC_F_WRITE, 0⟩
  { s with
    desc := update (update (update s.desc c.head first) c.body second) c.last third
    flag := update s.flag b true
    info := update s.info c.head ⟨some b, 0xff⟩ }

def tryAlloc (t : T) (b : B) (write : Bool) : Op T B Unit := do
  let found ← alloc3Desc
  match found with
  | some c => modify fun s => (format b write c s).acquire t (.store b c)
  | none => modify fun s => s.release t (.alloc b write)

def finish (t : T) (b : B) (c : Chain) : Op T B Unit := do
  modify fun s => { s with info := update s.info c.head { s.info c.head with b := none } }
  freeChain c.head
  modify fun s => { s.release t .out with holder := update s.holder b none }

/-! ## `virtio_disk_intr` -/

def handle : Op T B Unit := do
  let s ← get
  let id := s.used.data (Fifo.cell NUM s.used.head)
  if (s.info id).status ≠ 0 then throw .intrStatus
  else match (s.info id).b with
    | some b => modify fun s => { s with flag := update s.flag b false, used := s.used.take }
    | none => throw .nullBuf

/-! ## Threads and the device -/

def needsLock (act : Op T B Unit) : Op T B Unit := do
  let s ← get
  if s.lock = none then act else throw .disabled

/-- The next stretch of thread `t`. In the middle of a lock hold the device may run. -/
def next (t : T) : Op T B Unit := do
  let s ← get
  match s.pc t with
  | .out => throw .disabled
  | .alloc b write => needsLock (tryAlloc t b write)
  | .store b c => modify fun s =>
    { s.goto t (.notify b c) with avail.data := update s.avail.data (Fifo.cell NUM s.avail.tail) c.head }
  | .notify b c => modify fun s => { s.goto t (.check b c) with avail.tail := s.avail.tail + 1 }
  | .check b c => if s.flag b then modify fun s => s.release t (.wait b c) else finish t b c
  | .wait b c => needsLock (modify fun s => s.acquire t (.check b c))
  | .intr => needsLock (modify fun s => s.acquire t .loop)
  | .loop => if s.used.head = s.used.tail then modify fun s => s.release t .out else handle

def deviceTake : Op T B Unit := do
  let s ← get
  if s.avail.head = s.avail.tail then throw .disabled
  else modify fun s => { s with
    avail := s.avail.take
    pending := s.avail.data (Fifo.cell NUM s.avail.head) :: s.pending }

def writeStatus (s : State T B) (h : Nat) (status : UInt8) : State T B :=
  match (s.desc (s.desc (s.desc h).next).next).addr with
  | .status i => { s with info := update s.info i { s.info i with status := status } }
  | _ => s

def deviceComplete (h : Nat) (status : UInt8) : Op T B Unit := do
  let s ← get
  if h ∈ s.pending then modify fun s => { writeStatus s h status with
    used := s.used.put h
    pending := s.pending.erase h }
  else throw .disabled

inductive Event (T B : Type) where
  | rw (t : T) (b : B) (write : Bool)
  | interrupt (t : T)
  | next (t : T)
  | take
  | complete (h : Nat) (status : UInt8)

def perform : Event T B → Op T B Unit
  | .rw t b write => do
    let s ← get
    match s.pc t, s.holder b with
    | .out, none => modify fun s => { s.goto t (.alloc b write) with holder := update s.holder b (some t) }
    | _, _ => throw .disabled
  | .interrupt t => do
    let s ← get
    match s.pc t with
    | .out => modify fun s => s.goto t .intr
    | _ => throw .disabled
  | .next t => next t
  | .take => deviceTake
  | .complete h status => deviceComplete h status

def step (s : State T B) (e : Event T B) : Option (State T B) :=
  match (perform e).run s with
  | .ok (_, t) => some t
  | .error _ => none

def init : State T B where
  desc _ := ⟨.null, 0, 0, 0⟩
  avail := ⟨fun _ => 0, 0, 0⟩
  used := ⟨fun _ => 0, 0, 0⟩
  free _ := true
  info _ := ⟨none, 0⟩
  flag _ := false
  pending := []
  lock := none
  holder _ := none
  pc _ := .out

end

section
variable {T B : Type} {c : Chain} {b : B}

/-! ## Requests -/

def Pc.request : Pc B → Option (B × Chain)
  | .store b c | .notify b c | .check b c | .wait b c => some (b, c)
  | _ => none

def Pc.posted : Pc B → Option (B × Chain)
  | .check b c | .wait b c => some (b, c)
  | _ => none

def Pc.buf : Pc B → Option B
  | .alloc b _ | .store b _ | .notify b _ | .check b _ | .wait b _ => some b
  | _ => none

def Pc.locks : Pc B → Bool
  | .store .. | .notify .. | .check .. | .loop => true
  | _ => false

theorem Pc.request_of_posted {p : Pc B} {r : B × Chain} (posted : p.posted = some r) : p.request = some r := by
  cases p <;> first | exact posted | exact nomatch posted

theorem Pc.buf_of_request {p : Pc B} (request : p.request = some (b, c)) : p.buf = some b := by
  cases p <;> simp_all [Pc.request, Pc.buf]

def State.flights (s : State T B) : List Nat := s.avail.contents ++ (s.pending ++ s.used.contents)

structure Linked (desc : Nat → Desc B) (c : Chain) : Prop where
  nodup : c.descs.Nodup
  small : ∀ i ∈ c.descs, i < NUM
  head : (desc c.head).flags &&& VRING_DESC_F_NEXT ≠ 0 ∧ (desc c.head).next = c.body
  body : (desc c.body).flags &&& VRING_DESC_F_NEXT ≠ 0 ∧ (desc c.body).next = c.last
  last : (desc c.last).flags &&& VRING_DESC_F_NEXT = 0

theorem Linked.congr {desc desc' : Nat → Desc B} (linked : Linked desc c)
    (same : ∀ i ∈ c.descs, desc' i = desc i) : Linked desc' c := by
  refine ⟨linked.nodup, linked.small, ?_, ?_, ?_⟩
  · rw [same c.head (by simp)]
    exact linked.head
  · rw [same c.body (by simp)]
    exact linked.body
  · rw [same c.last (by simp)]
    exact linked.last

structure Requests (s : State T B) : Prop where
  linked : ∀ t b c, (s.pc t).request = some (b, c) → Linked s.desc c
  free : ∀ i < NUM, s.free i = false ↔ ∃ t b c, (s.pc t).request = some (b, c) ∧ i ∈ c.descs
  apart : ∀ t u b c b' c' i, (s.pc t).request = some (b, c) → (s.pc u).request = some (b', c') →
    i ∈ c.descs → i ∈ c'.descs → t = u
  info : ∀ t b c, (s.pc t).request = some (b, c) → (s.info c.head).b = some b

structure Inv (s : State T B) : Prop extends Requests s where
  holder : ∀ t b, (s.pc t).buf = some b → s.holder b = some t
  nodup : s.flights.Nodup
  flying : ∀ h, h ∈ s.flights ↔ ∃ t b c, (s.pc t).posted = some (b, c) ∧ c.head = h ∧ s.flag b = true
  flag : ∀ t b c, (s.pc t).request = some (b, c) → (s.pc t).posted = none → s.flag b = true
  lock : ∀ t, s.lock = some t ↔ (s.pc t).locks = true
  stored : ∀ t b c, s.pc t = .notify b c → s.avail.data (Fifo.cell NUM s.avail.tail) = c.head

def Fine (stop : Stop) : Prop := stop = .intrStatus ∨ stop = .disabled

variable {s u : State T B} {t : T}

theorem Inv.flights_small (inv : Inv s) {h : Nat} (flies : h ∈ s.flights) : h < NUM := by
  obtain ⟨t, b, c, posted, isHead, -⟩ := (inv.flying h).mp flies
  refine (inv.linked t b c (Pc.request_of_posted posted)).small h ?_
  simp [isHead]

theorem length_le_num {heads : List Nat} (nodup : heads.Nodup) (small : ∀ h ∈ heads, h < NUM) : heads.length ≤ NUM := by
  have inside : heads ⊆ List.range NUM := fun h member => List.mem_range.mpr (small h member)
  simpa using (nodup.subperm inside).length_le

theorem Inv.avail_le (inv : Inv s) : s.avail.count ≤ NUM := by
  rw [← Fifo.length_contents]
  have nodup : s.avail.contents.Nodup := (List.nodup_append.mp inv.nodup).1
  exact length_le_num nodup fun h member => inv.flights_small (List.mem_append_left _ member)

theorem Inv.used_le (inv : Inv s) : s.used.count ≤ NUM := by
  rw [← Fifo.length_contents]
  have nodup : s.used.contents.Nodup := (List.nodup_append.mp (List.nodup_append.mp inv.nodup).2.1).2.1
  exact length_le_num nodup fun h member => inv.flights_small (List.mem_append_right _ (List.mem_append_right _ member))

theorem not_full {q : Fifo Nat 16 NUM} {h : Nat} (nodup : (h :: q.contents).Nodup) (small : ∀ x ∈ h :: q.contents, x < NUM) :
    q.count < NUM := by
  have few := length_le_num nodup small
  rw [List.length_cons, Fifo.length_contents] at few
  omega

theorem Inv.grounded (inv : Inv s) (request : (s.pc t).request = some (b, c))
    (unposted : (s.pc t).posted = none) : c.head ∉ s.flights := by
  intro flies
  obtain ⟨u, b', c', posted, sameHead, -⟩ := (inv.flying c.head).mp flies
  have same : t = u := inv.apart t u b c b' c' c.head request (Pc.request_of_posted posted) (by simp) (by simp [sameHead])
  rw [same, posted] at unposted
  exact nomatch unposted

theorem Inv.avail_room (inv : Inv s) (request : (s.pc t).request = some (b, c))
    (unposted : (s.pc t).posted = none) : s.avail.count < NUM := by
  have outside := inv.grounded request unposted
  have nodup : s.avail.contents.Nodup := (List.nodup_append.mp inv.nodup).1
  refine not_full (List.nodup_cons.mpr ⟨fun member => outside (List.mem_append_left _ member), nodup⟩) ?_
  intro x member
  rcases List.mem_cons.mp member with rfl | member
  · exact (inv.linked t b c request).small _ (by simp)
  · exact inv.flights_small (List.mem_append_left _ member)

/-! ## The device

The device only moves chain heads about. -/

theorem Inv.of_perm (inv : Inv s) (desc : u.desc = s.desc) (free : u.free = s.free) (info : ∀ i, (u.info i).b = (s.info i).b)
    (flag : u.flag = s.flag) (lock : u.lock = s.lock) (holder : u.holder = s.holder) (pc : u.pc = s.pc)
    (data : u.avail.data = s.avail.data) (tail : u.avail.tail = s.avail.tail) (perm : u.flights.Perm s.flights) : Inv u where
  linked := by rw [desc, pc]; exact inv.linked
  free := by rw [free, pc]; exact inv.free
  apart := by rw [pc]; exact inv.apart
  info t b c request := by
    rw [pc] at request
    rw [info]
    exact inv.info t b c request
  holder := by rw [holder, pc]; exact inv.holder
  nodup := perm.nodup_iff.mpr inv.nodup
  flying h := by
    rw [perm.mem_iff, flag, pc]
    exact inv.flying h
  flag := by rw [flag, pc]; exact inv.flag
  lock := by rw [lock, pc]; exact inv.lock
  stored := by rw [pc, data, tail]; exact inv.stored

theorem Inv.take (inv : Inv s) : ends (deviceTake : Op T B Unit) Fine (fun _ u => Inv u) s := by
  simp only [deviceTake, ends_bind, ends_get]
  split
  next => exact (ends_throw ..).mpr (.inr rfl)
  next some =>
    rw [ends_modify]
    refine inv.of_perm rfl rfl (fun _ => rfl) rfl rfl rfl rfl rfl rfl ?_
    rw [State.flights, State.flights, Fifo.contents_take (by decide) inv.avail_le some]
    exact List.perm_middle

theorem writeStatus_info (s : State T B) (h : Nat) (status : UInt8) (i : Nat) :
    ((writeStatus s h status).info i).b = (s.info i).b := by
  rw [writeStatus]
  split
  next j _ =>
    by_cases same : i = j
    · subst same
      simp
    · simp [same]
  next => rfl

theorem writeStatus_rest (s : State T B) (h : Nat) (status : UInt8) :
    writeStatus s h status = { s with info := (writeStatus s h status).info } := by
  rw [writeStatus]
  split <;> rfl

theorem Inv.complete (inv : Inv s) (h : Nat) (status : UInt8) :
    ends (deviceComplete h status : Op T B Unit) Fine (fun _ u => Inv u) s := by
  simp only [deviceComplete, ends_bind, ends_get]
  split
  next pending =>
    rw [ends_modify, writeStatus_rest]
    refine inv.of_perm rfl rfl (writeStatus_info s h status) rfl rfl rfl rfl rfl rfl ?_
    have rest := (List.nodup_append.mp inv.nodup).2.1
    obtain ⟨-, nodup, distinct⟩ := List.nodup_append.mp rest
    have room : s.used.count < NUM := by
      refine not_full (h := h) (List.nodup_cons.mpr ⟨fun member => distinct h pending h member rfl, nodup⟩) ?_
      intro x member
      refine inv.flights_small (List.mem_append_right _ (List.mem_append.mpr ?_))
      rcases List.mem_cons.mp member with rfl | member
      · exact .inl pending
      · exact .inr member
    rw [State.flights, State.flights, Fifo.contents_put (by decide) (by decide) room]
    refine List.Perm.append_left _ ?_
    rw [← List.append_assoc]
    refine (List.perm_append_singleton h _).trans ?_
    exact (List.perm_cons_erase pending).symm.append_right _
  next => exact (ends_throw ..).mpr (.inr rfl)

end

end Xv6.Virtio
