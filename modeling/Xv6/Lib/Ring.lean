import Mathlib

namespace Xv6.Lib
open Function

/-! ## Doubly linked rings

The links lead through some elements of a type and close at a head, which is `none`. -/

structure Links (α : Type) where
  next : Option α → Option α
  prev : Option α → Option α

namespace Links
variable {α : Type}

def Linked (k : Links α) : Option α → List α → Option α → Prop
  | r, [], e => k.next r = e ∧ k.prev e = r
  | r, a :: l, e => k.next r = some a ∧ k.prev (some a) = r ∧ k.Linked (some a) l e

structure Ring (k : Links α) (l : List α) : Prop where
  linked : k.Linked none l none
  nodup : l.Nodup

def swap (k : Links α) : Links α := ⟨k.prev, k.next⟩

section
variable {k k' : Links α} {l l₁ l₂ : List α} {r e x : Option α} {a : α}

theorem linked_append : k.Linked r (l₁ ++ a :: l₂) e ↔ k.Linked r l₁ (some a) ∧ k.Linked (some a) l₂ e := by
  induction l₁ generalizing r with
  | nil => simp only [List.nil_append, Linked, and_assoc]
  | cons c l₁ ih => simp only [List.cons_append, Linked, ih, and_assoc]

section

variable (linked : k.Linked r l e)

include linked

theorem Linked.congr (next : ∀ x, x = r ∨ x ∈ l.map some → k'.next x = k.next x)
    (prev : ∀ x, x = e ∨ x ∈ l.map some → k'.prev x = k.prev x) : k'.Linked r l e := by
  induction l generalizing r with
  | nil => exact ⟨(next r (.inl rfl)).trans linked.1, (prev e (.inl rfl)).trans linked.2⟩
  | cons a l ih =>
    obtain ⟨forward, back, rest⟩ := linked
    refine ⟨(next r (.inl rfl)).trans forward, (prev _ (.inr (by simp))).trans back, ih rest ?_ ?_⟩
    · grind
    · grind

theorem Linked.last : k.prev e = r ∨ k.prev e ∈ l.map some := by
  induction l generalizing r with
  | nil => exact .inl linked.2
  | cons a l ih =>
    rcases ih linked.2.2 with here | later
    · exact .inr (by simp [here])
    · exact .inr (List.mem_cons_of_mem _ later)

theorem Linked.first : k.next r = e ∨ k.next r ∈ l.map some := by
  cases l with
  | nil => exact .inl linked.1
  | cons a l => exact .inr (by simp [linked.1])

theorem Linked.swap : k.swap.Linked e l.reverse r := by
  induction l generalizing r with
  | nil => exact ⟨linked.2, linked.1⟩
  | cons a l ih =>
    rw [List.reverse_cons, linked_append]
    exact ⟨ih linked.2.2, linked.2.1, linked.1⟩

end

theorem Ring.swap (ring : k.Ring l) : k.swap.Ring l.reverse :=
  ⟨ring.linked.swap, List.nodup_reverse.mpr ring.nodup⟩

theorem Linked.next_prev (linked : k.Linked r l e) (member : x = e ∨ x ∈ l.map some) : k.next (k.prev x) = x := by
  induction l generalizing r with
  | nil =>
    obtain rfl : x = e := by simpa using member
    rw [linked.2, linked.1]
  | cons a l ih =>
    rcases member with rfl | member
    · exact ih linked.2.2 (.inl rfl)
    · rcases List.mem_cons.mp member with rfl | later
      · rw [linked.2.1, linked.1]
      · exact ih linked.2.2 (.inr later)

theorem Ring.next_prev (ring : k.Ring l) (member : x = none ∨ x ∈ l.map some) : k.next (k.prev x) = x :=
  ring.linked.next_prev member

theorem Ring.prev_next (ring : k.Ring l) (member : x = none ∨ x ∈ l.map some) : k.prev (k.next x) = x :=
  ring.swap.linked.next_prev (by simpa using member)

/-! ## A loop along the links -/

end

inductive Walk (α : Type) where
  | found (a : α)
  | ended
  | unfinished

/-- Follow `f` from `r` to the first element that is wanted or to the head, in fewer than `n` steps. -/
def walk (f : Option α → Option α) (wanted : α → Bool) : Nat → Option α → Walk α
  | 0, _ => .unfinished
  | _ + 1, none => .ended
  | n + 1, some a => if wanted a then .found a else walk f wanted n (f (some a))

def Walk.ofOption : Option α → Walk α
  | none => .ended
  | some a => .found a

section
variable {k : Links α} {l : List α} {r : Option α} {wanted : α → Bool} {n : Nat}

theorem Linked.walk (linked : k.Linked r l none) (enough : l.length < n) :
    walk k.next wanted n (k.next r) = .ofOption (l.find? wanted) := by
  induction l generalizing r n with
  | nil =>
    obtain ⟨n, rfl⟩ := Nat.exists_eq_add_of_lt enough
    rw [linked.1]
    rfl
  | cons a l ih =>
    obtain ⟨forward, -, rest⟩ := linked
    cases n with
    | zero => exact absurd enough (Nat.not_lt_zero _)
    | succ n =>
      rw [forward]
      cases hit : wanted a with
      | true => simp only [Links.walk, hit, ↓reduceIte, List.find?_cons_of_pos, Walk.ofOption]
      | false =>
        simp only [Links.walk, hit, Bool.false_eq_true, ↓reduceIte, not_false_eq_true, List.find?_cons_of_neg]
        exact ih rest (Nat.lt_of_succ_lt_succ enough)

theorem Ring.walk_next (ring : k.Ring l) (enough : l.length < n) :
    walk k.next wanted n (k.next none) = .ofOption (l.find? wanted) :=
  ring.linked.walk enough

theorem Ring.walk_prev (ring : k.Ring l) (enough : l.length < n) :
    walk k.prev wanted n (k.prev none) = .ofOption (l.reverse.find? wanted) :=
  ring.swap.linked.walk (by simpa using enough)

end

/-! ## Splicing -/

section
variable [DecidableEq α]

def setNext (k : Links α) (r v : Option α) : Links α := { k with next := update k.next r v }

attribute [local simp] setNext

def setPrev (k : Links α) (r v : Option α) : Links α := { k with prev := update k.prev r v }

attribute [local simp] setPrev

def unlink (k : Links α) (b : α) : Links α :=
  let k := k.setPrev (k.next (some b)) (k.prev (some b))
  k.setNext (k.prev (some b)) (k.next (some b))

def pushFront (k : Links α) (b : α) : Links α :=
  let k := k.setNext (some b) (k.next none)
  let k := k.setPrev (some b) none
  let k := k.setPrev (k.next none) (some b)
  k.setNext none (some b)

variable {k : Links α} {l l₁ l₂ : List α} {b : α}

theorem Linked.retarget {r e n : Option α} (linked : k.Linked r l e) (fresh : r ∉ l.map some) (nodup : l.Nodup)
    (other : n ∉ l.map some) : ((k.setPrev n (k.prev e)).setNext (k.prev e) n).Linked r l n := by
  induction l generalizing r with
  | nil => simp [Linked, linked.2]
  | cons a l ih =>
    obtain ⟨forward, back, rest⟩ := linked
    obtain ⟨absent, nodup⟩ := List.nodup_cons.mp nodup
    have last : k.prev e ∈ (a :: l).map some := by grind [rest.last]
    have notLast : r ≠ k.prev e := by
      rintro rfl
      exact fresh last
    have notEnd : some a ≠ n := by
      rintro rfl
      exact other (by simp)
    refine ⟨?_, ?_, ih rest ?_ nodup ?_⟩
    · simp only [setNext, setPrev, update_of_ne notLast, forward]
    · simp only [setNext, setPrev, update_of_ne notEnd, back]
    · simpa using absent
    · exact fun member => other (List.mem_cons_of_mem _ member)

theorem Ring.unlink (ring : k.Ring (l₁ ++ b :: l₂)) : (k.unlink b).Ring (l₁ ++ l₂) := by
  obtain ⟨before, after⟩ := linked_append.mp ring.linked
  obtain ⟨nodup₁, nodup, apart⟩ := List.nodup_append.mp ring.nodup
  obtain ⟨absent, nodup₂⟩ := List.nodup_cons.mp nodup
  have target : k.next (some b) = none ∨ k.next (some b) ∈ l₂.map some := after.first
  have notSelf : some b ≠ k.next (some b) := by grind
  have links : k.unlink b = (k.setPrev (k.next (some b)) (k.prev (some b))).setNext (k.prev (some b)) (k.next (some b)) := by
    simp only [Links.unlink, setPrev, update_of_ne notSelf]
  have outside : k.next (some b) ∉ l₁.map some := by grind
  have front := before.retarget (by simp) nodup₁ outside
  rw [← links] at front
  refine ⟨?_, List.nodup_append.mpr ⟨nodup₁, nodup₂, fun x first y second => apart x first y (by simp [second])⟩⟩
  cases l₂ with
  | nil =>
    rw [after.1] at front
    simpa using front
  | cons c l₂ =>
    obtain ⟨forward, back, rest⟩ := after
    obtain ⟨fresh, -⟩ := List.nodup_cons.mp nodup₂
    rw [forward] at front
    refine linked_append.mpr ⟨front, rest.congr ?_ ?_⟩
    · intro x place
      have different : x ≠ k.prev (some b) := by
        rintro rfl
        have member : k.prev (some b) ∈ (c :: l₂).map some := by simpa [eq_comm] using place
        rcases before.last with head | first
        · rw [head] at member
          simp at member
        · grind
      simp only [links, setNext, setPrev, update_of_ne different]
    · intro x place
      have different : x ≠ k.next (some b) := by grind
      simp only [links, setNext, setPrev, update_of_ne different]

theorem Ring.pushFront (ring : k.Ring l) (absent : b ∉ l) : (k.pushFront b).Ring (b :: l) := by
  have notSelf : some b ≠ k.next none := by grind [ring.linked.first]
  refine ⟨⟨by simp [Links.pushFront], ?_, ?_⟩, List.nodup_cons.mpr ⟨absent, ring.nodup⟩⟩
  · simp [Links.pushFront, notSelf]
  · cases l with
    | nil =>
      have empty : k.next none = none := ring.linked.1
      simp [Linked, Links.pushFront, empty]
    | cons c l =>
      obtain ⟨forward, -, rest⟩ := ring.linked
      refine ⟨by simp [Links.pushFront, forward],
        by simp [Links.pushFront, forward], rest.congr ?_ ?_⟩
      · intro x place
        have notHead : x ≠ none := by
          rintro rfl
          simp at place
        have notNew : x ≠ some b := by grind
        simp [Links.pushFront, notHead, notNew]
      · intro x place
        have notFirst : x ≠ some c := by grind [ring.nodup]
        have notNew : x ≠ some b := by grind
        simp [Links.pushFront, forward, notFirst, notNew]

theorem Ring.pushFronts (ring : k.Ring l) {new : List α} (nodup : new.Nodup) (absent : ∀ b ∈ new, b ∉ l) :
    (new.foldl Links.pushFront k).Ring (new.reverse ++ l) := by
  induction new generalizing k l with
  | nil => exact ring
  | cons b new ih =>
    obtain ⟨fresh, nodup⟩ := List.nodup_cons.mp nodup
    rw [List.foldl_cons, List.reverse_cons, List.append_assoc]
    apply ih (ring.pushFront (absent b (by simp))) nodup
    intro c member
    simp only [List.mem_cons, not_or]
    refine ⟨?_, absent c (by simp [member])⟩
    rintro rfl
    exact fresh member

end

end Links

end Xv6.Lib
