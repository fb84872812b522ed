import Xv6.Vm.Stack
import Xv6.Vm.Process

namespace Xv6.Vm
open Lib ProcTable Function

attribute [local simp] Role.InUse Role.tableOf

/-! ## Which pages a process owns -/

def TablePage (page : Nat → Page) (r p : Nat) : Prop :=
  p = r ∨ ∃ i, page r i &&& PTE_V ≠ 0 ∧ (p = pte2pa (page r i) ∨
    ∃ j, page (pte2pa (page r i)) j &&& PTE_V ≠ 0 ∧ p = pte2pa (page (pte2pa (page r i)) j))

def UserPage (page : Nat → Page) (r p : Nat) : Prop :=
  ∃ v, v < USER ∧ lookup page r v &&& PTE_V ≠ 0 ∧ p = pte2pa (lookup page r v)

def Owner (w : World) (i : Slot) (p : Nat) : Prop :=
  p ≠ 0 ∧ (p = (w.proc i).trapframe ∨ p = (w.proc i).alarmTf ∨
    (w.proc i).pagetable ≠ 0 ∧
      (TablePage w.machine.page (w.proc i).pagetable p ∨ UserPage w.machine.page (w.proc i).pagetable p))

structure Justified (call : Freeproc) : Prop where
  nodup : call.freed.Nodup
  owned : ∀ p ∈ call.freed, Owner call.before call.slot p
  used : ∀ p ∈ call.freed, p ∉ call.before.machine.freelist ∧ p ∉ call.before.held
  alone : ∀ p ∈ call.freed, ∀ j, j ≠ call.slot → (call.before.proc j).state ≠ .unused → ¬ Owner call.before j p

section
variable {L : Layout} {role : Roles} {m : Machine} {r p v : Nat} {X : Nat → Word}

theorem Space.tablePage (space : Space L role m r X) (page : TablePage m.page r p) : (role p).spaceOf = some r := by
  rcases page with rfl | ⟨i, valid, down⟩
  · rw [space.table.root]
    rfl
  · rcases space.table.top i with zero | ⟨q, entry, middle⟩
    · exact absurd (by rw [zero, zero_valid]) valid
    · rw [entry, pte2pa_link (space.heap.ram q (by simp [middle]))] at down
      rcases down with rfl | ⟨j, valid', down⟩
      · rw [middle]
        rfl
      · rcases space.table.middle q i j middle with zero | ⟨b, entry', bottom⟩
        · exact absurd (by rw [zero, zero_valid]) valid'
        · rw [entry', pte2pa_link (space.heap.ram b (by simp [bottom]))] at down
          rw [down, bottom]
          rfl

theorem Space.userPage (space : Space L role m r X) (page : UserPage m.page r p) : (role p).spaceOf = some r := by
  obtain ⟨v, below, valid, rfl⟩ := page
  rw [space.lookup v (user_lt_vpns below)] at valid ⊢
  have used : X v ≠ 0 := by
    intro zero
    exact valid (by rw [zero, zero_valid])
  rw [(space.user v below used).2]
  rfl

theorem Space.pageOf (space : Space L role m r X) (inside : (role p).spaceOf = some r) :
    TablePage m.page r p ∨ UserPage m.page r p := by
  have valid (q : Nat) : link q &&& PTE_V ≠ 0 := link_valid_ne q
  have ramOf {q : Nat} {ρ : Role} (use : role q = ρ) (something : ρ ≠ .none) : Ram L q :=
    space.heap.ram q (by rwa [use])
  cases use : role p with
  | root r' =>
    obtain rfl : r' = r := by simpa [use, Role.spaceOf] using inside
    exact .inl (.inl (space.heap.self p r' use))
  | middle r' i =>
    obtain rfl : r' = r := by simpa [use, Role.spaceOf] using inside
    have top := space.table.topBack p i use
    refine .inl (.inr ⟨i, by rw [top]; exact valid p, .inl ?_⟩)
    rw [top, pte2pa_link (ramOf use (by simp))]
  | bottom r' i j =>
    obtain rfl : r' = r := by simpa [use, Role.spaceOf] using inside
    obtain ⟨q, middle, down⟩ := space.table.middleBack p i j use
    have top := space.table.topBack q i middle
    refine .inl (.inr ⟨i, by rw [top]; exact valid q, .inr ⟨j, ?_⟩⟩)
    rw [top, pte2pa_link (ramOf middle (by simp)), down, pte2pa_link (ramOf use (by simp))]
    exact ⟨valid p, rfl⟩
  | user r' v =>
    obtain rfl : r' = r := by simpa [use, Role.spaceOf] using inside
    obtain ⟨below, used, back⟩ := space.owned p v use
    refine .inr ⟨v, below, ?_, ?_⟩
    · rw [space.lookup v (user_lt_vpns below)]
      exact (space.user v below used).1.valid
    · rw [space.lookup v (user_lt_vpns below), back]
  | _ => simp [use, Role.spaceOf] at inside

end

/-! ## The invariant -/

structure Live (L : Layout) (role : Roles) (m : Machine) (i : Slot) (p : Proc) : Prop where
  trapframe : role p.trapframe = .trapframe i
  alarm : role p.alarmTf = .alarm i
  space : ∃ X, Space L role m p.pagetable X ∧ Mapped L p.trapframe p.sz X

structure Owns (L : Layout) (role : Roles) (w : World) (out : Slot → Prop) : Prop where
  heap : Heap L role w.machine.freelist
  held : ∀ p ∈ w.held, role p = .held
  heldNodup : w.held.Nodup
  idle : ∀ i, ¬ out i → (w.proc i).state = .unused →
    (w.proc i).trapframe = 0 ∧ (w.proc i).pagetable = 0 ∧ (w.proc i).sz = 0
  live : ∀ i, ¬ out i → (w.proc i).state ≠ .unused → Live L role w.machine i (w.proc i)
  distinct : ∀ i j, ¬ out i → ¬ out j → i ≠ j → (w.proc i).state ≠ .unused → (w.proc j).state ≠ .unused →
    (w.proc i).pagetable ≠ (w.proc j).pagetable

section
variable {L : Layout} {role role' : Roles} {w : World} {t : Machine} {out : Slot → Prop} {i : Slot} {p r : Nat}
  {X : Nat → Word}

theorem Owns.frame (owns : Owns L role w out) (heap : Heap L role' t.freelist)
    (fixed : ∀ p, p ∈ w.held ∨ (∃ i, ¬ out i ∧ (role p = .trapframe i ∨ role p = .alarm i)) →
      role' p = role p) (spaces : ∀ i, ¬ out i → (w.proc i).state ≠ .unused → ∀ X,
      Space L role w.machine (w.proc i).pagetable X → Space L role' t (w.proc i).pagetable X) :
    Owns L role' { w with machine := t } out where
  heap := heap
  held p member := by
    rw [fixed p (.inl member)]
    exact owns.held p member
  heldNodup := owns.heldNodup
  idle := owns.idle
  live i inside used := by
    obtain ⟨trapframe, alarm, X, space, mapped⟩ := owns.live i inside used
    constructor
    · rw [fixed _ (.inr ⟨i, inside, .inl trapframe⟩), trapframe]
    · rw [fixed _ (.inr ⟨i, inside, .inr alarm⟩), alarm]
    · exact ⟨X, spaces i inside used X space, mapped⟩
  distinct := owns.distinct

def Relevant (w : World) (out : Slot → Prop) (ρ : Role) : Prop :=
  ρ = .held ∨ ∃ i, ¬ out i ∧ (ρ = .trapframe i ∨ ρ = .alarm i ∨
    (w.proc i).state ≠ .unused ∧ ρ.spaceOf = some (w.proc i).pagetable)

theorem Relevant.inUse {ρ : Role} (relevant : Relevant w out ρ) : ρ.InUse := by
  rcases relevant with rfl | ⟨i, -, rfl | rfl | ⟨-, inside⟩⟩
  · simp
  · simp
  · simp
  · exact Role.inUse_of_spaceOf inside

theorem Relevant.outside {ρ : Role} (relevant : Relevant w out ρ)
    (apart : ∀ i, ¬ out i → (w.proc i).state ≠ .unused → (w.proc i).pagetable ≠ r) : ρ.OutsideSpace r := by
  refine ⟨relevant.inUse, ?_⟩
  rcases relevant with rfl | ⟨i, inside, rfl | rfl | ⟨used, space⟩⟩
  · simp [Role.spaceOf]
  · simp [Role.spaceOf]
  · simp [Role.spaceOf]
  · simpa [space] using apart i inside used

section

variable (owns : Owns L role w out) (heap : Heap L role' t.freelist)

include owns heap

theorem Owns.keeps {S : Role → Prop}
    (keeps : Keeps S role w.machine.page role' t.page) (kept : ∀ ρ, Relevant w out ρ → S ρ) :
    Owns L role' { w with machine := t } out := by
  apply owns.frame heap
  · rintro p (held | ⟨i, inside, trapframe | alarm⟩)
    · exact (keeps.old p (kept _ (.inl (owns.held p held)))).1
    · exact (keeps.old p (kept _ (.inr ⟨i, inside, .inl trapframe⟩))).1
    · exact (keeps.old p (kept _ (.inr ⟨i, inside, .inr (.inl alarm)⟩))).1
  · intro i inside used X space
    exact space.frame heap keeps fun ρ part => kept ρ (.inr ⟨i, inside, .inr (.inr ⟨used, part⟩)⟩)

theorem Owns.outside (keeps : Keeps (Role.OutsideSpace r) role w.machine.page role' t.page)
    (apart : ∀ i, ¬ out i → (w.proc i).state ≠ .unused → (w.proc i).pagetable ≠ r) :
    Owns L role' { w with machine := t } out :=
  owns.keeps heap keeps fun _ relevant => relevant.outside apart

theorem Owns.inUse
    (keeps : Keeps Role.InUse role w.machine.page role' t.page) : Owns L role' { w with machine := t } out :=
  owns.keeps heap keeps fun _ => Relevant.inUse

end

end

section
variable {L : Layout} {role : Roles} {w : World} {out : Slot → Prop} {i j : Slot} {p : Nat} {ρ : Role} {r r' : Nat}

def RoleOf (i : Slot) (r : Nat) (ρ : Role) : Prop := ρ = .trapframe i ∨ ρ = .alarm i ∨ ρ.spaceOf = some r

theorem RoleOf.inUse (use : RoleOf i r ρ) : ρ.InUse := by
  rcases use with rfl | rfl | inside
  · simp
  · simp
  · exact Role.inUse_of_spaceOf inside

theorem RoleOf.ne_held (use : RoleOf i r ρ) : ρ ≠ .held := by
  rintro rfl
  rcases use with same | same | inside
  · cases same
  · cases same
  · cases inside

theorem RoleOf.unique (one : RoleOf i r ρ) (other : RoleOf j r' ρ) : i = j ∨ r = r' := by
  rcases one with rfl | rfl | inside
  · rcases other with same | same | inside
    · exact .inl (by simpa using same)
    · cases same
    · cases inside
  · rcases other with same | same | inside
    · cases same
    · exact .inl (by simpa using same)
    · cases inside
  · rcases other with rfl | rfl | inside'
    · cases inside
    · cases inside
    · exact .inr (by simpa [inside] using inside')

section

variable (owns : Owns L role w out) (inside : ¬ out i) (used : (w.proc i).state ≠ .unused)

include owns inside used

theorem Owns.roleOf (owner : Owner w i p) : RoleOf i (w.proc i).pagetable (role p) := by
  obtain ⟨trapframe, alarm, X, space, -⟩ := owns.live i inside used
  obtain ⟨-, rfl | rfl | ⟨-, table | user⟩⟩ := owner
  · exact .inl trapframe
  · exact .inr (.inl alarm)
  · exact .inr (.inr (space.tablePage table))
  · exact .inr (.inr (space.userPage user))

theorem Owns.not_free (owner : Owner w i p) : p ∉ w.machine.freelist := by
  intro free
  exact (owns.roleOf inside used owner).inUse.2.1 ((owns.heap.free p).mpr free)

end

theorem Live.root {m : Machine} {q : Proc} (live : Live L role m i q) : role q.pagetable = .root q.pagetable := by
  obtain ⟨X, space, -⟩ := live.space
  exact space.table.root

theorem Owns.pagetable_ne_zero (owns : Owns L role w out) (inside : ¬ out i) (used : (w.proc i).state ≠ .unused) :
    (w.proc i).pagetable ≠ 0 :=
  (owns.heap.ram _ (by simp [(owns.live i inside used).root])).pos

theorem Owns.setOut (owns : Owns L role w out) (inside : out i) (q : Proc) :
    Owns L role { w with proc := update w.proc i q } out := by
  have other {j : Slot} (notOut : ¬ out j) : j ≠ i := fun same => notOut (same ▸ inside)
  constructor
  · exact owns.heap
  · exact owns.held
  · exact owns.heldNodup
  · intro j notOut
    simpa [other notOut] using owns.idle j notOut
  · intro j notOut
    simpa [other notOut] using owns.live j notOut
  · grind [owns.distinct]

theorem Owns.close_idle (owns : Owns L role w (· = i)) (unused : (w.proc i).state = .unused)
    (trapframe : (w.proc i).trapframe = 0) (pagetable : (w.proc i).pagetable = 0) (sz : (w.proc i).sz = 0) :
    Owns L role w fun _ => False := by
  have other {j : Slot} (used : (w.proc j).state ≠ .unused) : j ≠ i := by
    rintro rfl
    exact used unused
  constructor
  · exact owns.heap
  · exact owns.held
  · exact owns.heldNodup
  · grind [owns.idle]
  · intro j _ used
    exact owns.live j (other used) used
  · grind [owns.distinct]

end

/-! ## Rules for the process table -/

section
variable {k : Kernel}

@[simp] theorem wp_vm {α : Type} (f : M α) (Q : α → Kernel → Prop) :
    wp (vm f) Q k ↔ wp f (fun a t => Q a { k with machine := t }) k.machine := by
  simp [vm]

@[simp] theorem wp_setProc (i : Slot) (change : Proc → Proc) (Q : PUnit → Kernel → Prop) :
    wp (setProc i change) Q k ↔ Q ⟨⟩ { k with proc := update k.proc i (change (k.proc i)) } := by
  simp [setProc]

@[simp] theorem wp_getProc (i : Slot) (Q : Proc → Kernel → Prop) : wp (getProc i) Q k ↔ Q (k.proc i) k := by
  simp [getProc]

end

/-! ## `freeproc` -/

structure Parts (L : Layout) (role : Roles) (m : Machine) (i : Slot) (p : Proc) : Prop where
  trapframe : p.trapframe = 0 ∨ role p.trapframe = .trapframe i
  alarm : p.alarmTf = 0 ∨ role p.alarmTf = .alarm i
  space : p.pagetable = 0 ∨ ∃ tf X, Space L role m p.pagetable X ∧ Mapped L tf p.sz X

section
variable {L : Layout} {role role' : Roles} {m t : Machine} {k : Kernel} {i : Slot} {q r sz : Nat} {ρ : Role}

theorem Live.parts {p : Proc} (live : Live L role m i p) : Parts L role m i p :=
  ⟨.inr live.trapframe, .inr live.alarm, .inr ⟨_, live.space⟩⟩

theorem Parts.space_owner {w : World} {p : Nat} (parts : Parts L role w.machine i (w.proc i))
    (heap : Heap L role w.machine.freelist) (inside : (role p).spaceOf = some (w.proc i).pagetable) : Owner w i p := by
  have null : (w.proc i).pagetable ≠ 0 := (heap.ram _ (by simp [heap.rooted p _ inside])).pos
  obtain ⟨tf, X, space, -⟩ := parts.space.resolve_left null
  exact ⟨(heap.ram p (Role.inUse_of_spaceOf inside).1).pos, .inr (.inr ⟨null, space.pageOf inside⟩)⟩

def optionalPage (q : Nat) : List Nat := if q = 0 then [] else [q]

theorem mem_optionalPage {p : Nat} : p ∈ optionalPage q ↔ q ≠ 0 ∧ p = q := by
  unfold optionalPage
  split_ifs with null <;> simp [null]

theorem kfreeIf_releases (heap : Heap L role m.freelist) (part : q = 0 ∨ role q = ρ) (notFree : ρ ≠ .free)
    (something : ρ ≠ .none) (notSpace : ρ.spaceOf = none) :
    wp (kfreeIf L q) (fun _ t => ∃ role', Heap L role' t.freelist ∧
      Keeps (fun σ => σ ≠ .free ∧ σ ≠ ρ) role m.page role' t.page ∧
      t.freelist = optionalPage q ++ m.freelist) m := by
  by_cases null : q = 0
  · simp only [kfreeIf, null, ne_eq, not_true_eq_false, ↓reduceIte, wp_pure]
    exact ⟨role, heap, Keeps.refl, rfl⟩
  · have one : optionalPage q = [q] := if_neg null
    have use : role q = ρ := part.resolve_left null
    have ram := heap.ram q (by rwa [use])
    simp only [kfreeIf, ne_eq, null, not_false_eq_true, ↓reduceIte]
    apply kfree_rule ram
    intro t page freelist
    refine ⟨update role q .free, ?_, ?_, by rw [one]; exact freelist⟩
    · rw [freelist]
      apply heap.release (by rwa [use]) ram
      intro p _ inside
      rw [← use, heap.rooted p q inside] at notSpace
      cases notSpace
    · rw [page]
      apply keeps_update <;> simp [use]

theorem procFreepagetableIf_gone (heap : Heap L role m.freelist)
    (part : r = 0 ∨ ∃ tf X, Space L role m r X ∧ Mapped L tf sz X) :
    wp (procFreepagetableIf L r sz) (fun _ t => ∃ role', Heap L role' t.freelist ∧
      Keeps (Role.OutsideSpace r) role m.page role' t.page ∧
      Releases role m.freelist role' t.freelist r) m := by
  unfold procFreepagetableIf
  split_ifs with null
  · obtain ⟨tf, X, space, mapped⟩ := part.resolve_left null
    apply (procFreepagetable_gone space mapped).mono
    rintro _ t ⟨role', gone⟩
    exact ⟨role', gone.heap, gone.keeps, gone.releases⟩
  · simp only [wp_pure]
    exact ⟨role, heap, Keeps.refl, Releases.refl⟩

theorem justified {w : World} {freed : List Nat} (owns : Owns L role w (· = i))
    (apart : ∀ j, j ≠ i → (w.proc j).state ≠ .unused → (w.proc j).pagetable ≠ (w.proc i).pagetable)
    (nodup : (freed ++ w.machine.freelist).Nodup) (owned : ∀ p ∈ freed, RoleOf i (w.proc i).pagetable (role p) ∧ Owner w i p) :
    Justified ⟨i, w, freed⟩ where
  nodup := nodup.of_append_left
  owned p member := (owned p member).2
  used p member := by
    refine ⟨fun free => List.disjoint_of_nodup_append nodup member free, fun held => ?_⟩
    exact (owned p member).1.ne_held (owns.held p held)
  alone p member j other used owner := by
    rcases (owned p member).1.unique (owns.roleOf other used owner) with same | same
    · exact other same.symm
    · exact apart j other used same.symm

theorem freeproc_owns (owns : Owns L role k.toWorld (· = i)) (parts : Parts L role k.machine i (k.proc i))
    (apart : ∀ j, j ≠ i → (k.proc j).state ≠ .unused → (k.proc j).pagetable ≠ (k.proc i).pagetable) :
    wp (freeproc L i) (fun _ k' => ∃ role' call, Owns L role' k'.toWorld (fun _ => False) ∧
      k'.calls = call :: k.calls ∧ Justified call ∧ (∀ j, j ≠ i → k'.proc j = k.proc j) ∧
      (k'.proc i).state = .unused) k := by
  simp only [freeproc, wp_bind, wp_get, wp_getProc, wp_vm, wp_setProc, wp_modify]
  apply (kfreeIf_releases owns.heap parts.trapframe (by simp) (by simp) rfl).mono
  rintro _ t1 ⟨role1, heap1, keeps1, list1⟩
  have inSpace {ρ : Role} {r : Nat} (inside : ρ.spaceOf = some r) :
      (ρ ≠ .free ∧ ρ ≠ .trapframe i) ∧ (ρ ≠ .free ∧ ρ ≠ .alarm i) := by
    refine ⟨⟨?_, ?_⟩, ?_, ?_⟩ <;> rintro rfl <;> cases inside
  have alarm : (k.proc i).alarmTf = 0 ∨ role1 (k.proc i).alarmTf = .alarm i := by
    refine parts.alarm.imp_right fun alarm => ?_
    rw [(keeps1.old _ (by simp [alarm])).1, alarm]
  apply (kfreeIf_releases heap1 alarm (by simp) (by simp) rfl).mono
  rintro _ t2 ⟨role2, heap2, keeps2, list2⟩
  have space : (k.proc i).pagetable = 0 ∨ ∃ tf X, Space L role2 t2 (k.proc i).pagetable X ∧
      Mapped L tf (k.proc i).sz X := by
    refine parts.space.imp_right ?_
    rintro ⟨tf, X, space, mapped⟩
    have space1 : Space L role1 t1 (k.proc i).pagetable X :=
      space.frame heap1 keeps1 fun ρ inside => (inSpace inside).1
    exact ⟨tf, X, space1.frame heap2 keeps2 fun ρ inside => (inSpace inside).2, mapped⟩
  apply (procFreepagetableIf_gone heap2 space).mono
  rintro _ t3 ⟨role3, heap3, keeps3, releases⟩
  obtain ⟨tables, list3⟩ := releases.suffix
  have ofOut {ρ : Role} (relevant : Relevant k.toWorld (· = i) ρ) :
      (ρ ≠ .free ∧ ρ ≠ .trapframe i) ∧ (ρ ≠ .free ∧ ρ ≠ .alarm i) := by
    have notFree := relevant.inUse.2.1
    refine ⟨⟨notFree, ?_⟩, notFree, ?_⟩ <;> rintro rfl
    · rcases relevant with h | ⟨j, other, same | same | ⟨-, same⟩⟩ <;> simp_all [Role.spaceOf]
    · rcases relevant with h | ⟨j, other, same | same | ⟨-, same⟩⟩ <;> simp_all [Role.spaceOf]
  have owns1 : Owns L role1 ⟨t1, k.proc, k.held⟩ (· = i) :=
    owns.keeps heap1 keeps1 fun ρ relevant => (ofOut relevant).1
  have owns2 : Owns L role2 ⟨t2, k.proc, k.held⟩ (· = i) :=
    owns1.keeps heap2 keeps2 fun ρ relevant => (ofOut relevant).2
  have owns3 : Owns L role3 ⟨t3, k.proc, k.held⟩ (· = i) := owns2.outside heap3 keeps3 apart
  have owns4 : Owns L role3 ⟨t3, update k.proc i ⟨.unused, none, 0, 0, 0, 0, (k.proc i).alarmTf⟩, k.held⟩
      fun _ => False := (owns3.setOut rfl _).close_idle (by simp) (by simp) (by simp) (by simp)
  have back {p r : Nat} (inside : (role2 p).spaceOf = some r) : role2 p = role p :=
    (keeps2.new p (inSpace inside).2).trans (keeps1.new p (by rw [← keeps2.new p (inSpace inside).2]; exact (inSpace inside).1))
  simp only [update_idem, update_self]
  refine ⟨role3, _, owns4, rfl, ?_, ?_, ?_⟩
  · have whole : t3.freelist = (tables ++ (optionalPage (k.proc i).alarmTf ++
        optionalPage (k.proc i).trapframe)) ++ k.machine.freelist := by grind
    have taken : List.take (t3.freelist.length - k.machine.freelist.length) t3.freelist =
        tables ++ (optionalPage (k.proc i).alarmTf ++ optionalPage (k.proc i).trapframe) := by
      rw [whole, List.length_append, Nat.add_sub_cancel, List.take_left]
    have nodup3 := heap3.nodup
    rw [taken]
    apply justified owns apart (whole ▸ nodup3)
    intro p member
    rcases List.mem_append.mp member with table | frame
    · have inside : (role2 p).spaceOf = some (k.proc i).pagetable := by
        have free3 : role3 p = .free := (heap3.free p).mpr (by rw [← list3]; exact List.mem_append_left _ table)
        rcases releases.roles p with same | ⟨-, inside⟩
        · grind [heap2.free]
        · exact inside
      rw [back inside] at inside
      exact ⟨.inr (.inr inside), parts.space_owner owns.heap inside⟩
    · rcases List.mem_append.mp frame with alarmPage | framePage
      · obtain ⟨some, rfl⟩ := mem_optionalPage.mp alarmPage
        exact ⟨.inr (.inl (parts.alarm.resolve_left some)), some, .inr (.inl rfl)⟩
      · obtain ⟨some, rfl⟩ := mem_optionalPage.mp framePage
        exact ⟨.inl (parts.trapframe.resolve_left some), some, .inl rfl⟩
  · intro j other
    simp [other]
  · simp

end

end Xv6.Vm
