import Xv6.Exec.SysExec
import Xv6.Vm.Resize

namespace Xv6.Exec
open Lib Vm

/-! ## Strings -/

attribute [local simp] upToNul

section
variable {L : Layout} {role : Roles} {m t : Machine} {r n k j len : Nat} {X : Nat → Word} {b : Byte}
  {rest bytes : List Byte}

theorem upToNul_prefix (bytes : List Byte) : (upToNul bytes).1 <+: bytes := by
  induction bytes with
  | nil => simp
  | cons b bytes ih =>
    rw [upToNul]
    split_ifs with zero
    · simp [zero]
    · exact List.cons_prefix_cons.mpr ⟨rfl, ih⟩

theorem upToNul_found (bytes : List Byte) : (upToNul bytes).2 = true ↔ 0 ∈ bytes := by
  induction bytes with
  | nil => simp
  | cons b bytes ih =>
    rw [upToNul, List.mem_cons]
    split_ifs with zero
    · simp [zero]
    · rw [ih]
      exact ⟨.inr, fun either => either.resolve_left (Ne.symm zero)⟩

theorem upToNul_string (found : (upToNul bytes).2 = true) : ∃ text, (upToNul bytes).1 = text ++ [0] ∧ 0 ∉ text := by
  induction bytes with
  | nil => simp at found
  | cons b bytes ih =>
    rw [upToNul] at found ⊢
    split_ifs at found ⊢ with zero
    · exact ⟨[], rfl, by simp⟩
    · obtain ⟨text, string, clean⟩ := ih found
      refine ⟨b :: text, by rw [string, List.cons_append], ?_⟩
      rw [List.mem_cons]
      exact fun either => either.elim (Ne.symm zero) clean

/-! ## What the copies do -/

structure CopiedIn (m : Machine) (r src len : Nat) (bytes : List Byte) (ok : Bool) : Prop where
  all : ok = true ↔ ∀ j, j < len → userAddr m.page r (src + j) ≠ none
  read : ∀ j b, bytes[j]? = some b → userByte m r (src + j) = some b
  whole : ok = true → bytes.length = len
  confined : ok = false → bytes.length < len ∧ userAddr m.page r (src + bytes.length) = none

structure CopiedString (m : Machine) (r src max : Nat) (bytes : List Byte) (ok : Bool) : Prop where
  found : ok = true ↔ ∃ k, k < max ∧ userByte m r (src + k) = some 0 ∧ ∀ j, j < k → userAddr m.page r (src + j) ≠ none
  read : ∀ j b, bytes[j]? = some b → userByte m r (src + j) = some b
  string : ok = true → ∃ text, bytes = text ++ [0] ∧ 0 ∉ text
  bounded : bytes.length ≤ max

theorem userBytes_copiedIn (src len : Nat) :
    CopiedIn m r src len (userBytes m r src len) (decide ((userBytes m r src len).length = len)) := by
  constructor
  · rw [decide_eq_true_iff, userBytes_full]
    simp only [ne_eq, userByte_eq_none]
  · intro j b
    exact userBytes_getElem
  · intro full
    exact of_decide_eq_true full
  · grind [userBytes_length_le, userByte_eq_none.mp, userBytes_stop]

theorem upToNul_copiedString (src max : Nat) :
    CopiedString m r src max (upToNul (userBytes m r src max)).1 (upToNul (userBytes m r src max)).2 := by
  have initial := upToNul_prefix (userBytes m r src max)
  constructor
  · rw [upToNul_found]
    constructor
    · intro member
      obtain ⟨k, byte⟩ := List.getElem?_of_mem member
      obtain ⟨inside, -⟩ := List.getElem?_eq_some_iff.mp byte
      refine ⟨k, lt_of_lt_of_le inside userBytes_length_le, userBytes_getElem byte, fun j less => ?_⟩
      have before := List.getElem?_eq_getElem (lt_trans less inside)
      rw [ne_eq, ← userByte_eq_none, userBytes_getElem before]
      simp
    · rintro ⟨k, inside, zero, reach⟩
      have reached : k < (userBytes m r src max).length := by
        apply userBytes_reach _ inside
        intro i upTo
        rcases Nat.lt_or_eq_of_le upTo with less | rfl
        · rw [ne_eq, userByte_eq_none]
          exact reach i less
        · simp [zero]
      have byte := List.getElem?_eq_getElem reached
      rw [userBytes_getElem byte] at zero
      exact Option.some.inj zero ▸ List.getElem_mem reached
  · intro j b byte
    obtain ⟨rest, whole⟩ := initial
    apply userBytes_getElem (n := max)
    rw [← whole, List.getElem?_append_left (List.getElem?_eq_some_iff.mp byte).1, byte]
  · exact upToNul_string
  · exact initial.length_le.trans userBytes_length_le

theorem user_copies_exact (table : ∃ role X, UserSpace L role m r X) :
    (∀ dst src, ∃ ok t, (copyout r dst src).run m = .ok (ok, t) ∧ Wrote m t r dst src ok ∧
      (ok = true → (copyin r dst src.length).run t = .ok ((src, true), t))) ∧
    (∀ src len, ∃ bytes ok, (copyin r src len).run m = .ok ((bytes, ok), m) ∧ CopiedIn m r src len bytes ok) ∧
    (∀ src max, ∃ bytes ok, (copyinstr r src max).run m = .ok ((bytes, ok), m) ∧ CopiedString m r src max bytes ok) := by
  obtain ⟨role, X, user⟩ := table
  refine ⟨fun dst src => ?_, fun src len => ?_, fun src max => ?_⟩
  · obtain ⟨ok, t, ran, wrote, moves⟩ := (copyout_wrote user dst src).run_eq
    refine ⟨ok, t, ran, wrote, ?_⟩
    rintro rfl
    have user' : UserSpace L role t r X := ⟨moves.space, user.kernel⟩
    obtain ⟨_, _, ran', rfl, rfl⟩ := (copyinLoop_reads user' dst (Nat.le_refl src.length)).run_eq
    rw [userBytes_wrote wrote, decide_eq_true rfl] at ran'
    exact ran'
  · obtain ⟨_, _, ran, rfl, rfl⟩ := (copyinLoop_reads user src (Nat.le_refl len)).run_eq
    exact ⟨_, _, ran, userBytes_copiedIn src len⟩
  · obtain ⟨_, _, ran, rfl, rfl⟩ := (copyinstrLoop_reads user src (Nat.le_refl max)).run_eq
    exact ⟨_, _, ran, upToNul_copiedString src max⟩

end

theorem user_copies_exact_first : ∃ s t, step smallLayout bootState ⟨.userinit, []⟩ = some s ∧
    (copyout (s.kernel.proc 0).pagetable 100 [7, 8, 9]).run s.kernel.machine = .ok (true, t) ∧
    (copyin (s.kernel.proc 0).pagetable 100 3).run t = .ok (([7, 8, 9], true), t) := by
  have computed : ((step smallLayout bootState ⟨.userinit, []⟩).bind fun s =>
      ((copyout (s.kernel.proc 0).pagetable 100 [7, 8, 9]).run s.kernel.machine).toOption.map (·.1)) = some true := by
    decide +kernel
  obtain ⟨s, first, rest⟩ := Option.bind_eq_some_iff.mp computed
  obtain ⟨⟨ok, t⟩, ran, rfl⟩ := Option.map_eq_some_iff.mp rest
  rw [toOption_eq_some] at ran
  obtain ⟨⟨role, inv⟩, used, -⟩ := bootState_first first
  obtain ⟨X, space, mapped⟩ := (inv.owns.live 0 id used).space
  obtain ⟨ok, u, ran', -, back⟩ := (user_copies_exact ⟨role, X, mapped.userSpace space⟩).1 100 [7, 8, 9]
  cases ran.symm.trans ran'
  exact ⟨s, t, first, ran, back rfl⟩

end Xv6.Exec
