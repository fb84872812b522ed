import Xv6.Vm.UserMemory

namespace Xv6.Vm
open Lib

/-! ## The layout of the arguments

As integers, so that it goes on below 0; from the top of the stack down come the strings, then the
array of pointers, each at a multiple of 16. -/

def lower (sp : Int) (n : Nat) : Int := (sp - n) / 16 * 16

def placeStrings (sp : Int) : List (List Byte) → List Int
  | [] => []
  | arg :: argv => lower sp (arg.length + 1) :: placeStrings (lower sp (arg.length + 1)) argv

def stringsEnd (sp : Int) : List (List Byte) → Int
  | [] => sp
  | arg :: argv => stringsEnd (lower sp (arg.length + 1)) argv

def blockEnd (sp : Int) (argv : List (List Byte)) : Int := lower (stringsEnd sp argv) ((argv.length + 1) * 8)

def Fits (argv : List (List Byte)) : Prop := -(PGSIZE : Int) ≤ blockEnd 0 argv
  deriving Decidable

section
variable {sp top : Int} {n : Nat} {argv : List (List Byte)}

theorem lower_le : lower sp n ≤ sp - n := by
  unfold lower
  omega

theorem lower_mod : lower sp n % 16 = 0 := by
  unfold lower
  omega

theorem lower_shift (aligned : top % 16 = 0) : lower (sp + top) n = lower sp n + top := by
  unfold lower
  omega

theorem stringsEnd_le : stringsEnd sp argv ≤ sp := by
  induction argv generalizing sp with
  | nil => exact Int.le_refl sp
  | cons arg argv ih =>
    have here : lower sp (arg.length + 1) ≤ sp - (arg.length + 1 : Nat) := lower_le
    have rest : stringsEnd sp (arg :: argv) ≤ lower sp (arg.length + 1) := ih
    omega

theorem stringsEnd_shift (aligned : top % 16 = 0) (sp : Int) (argv : List (List Byte)) : stringsEnd
    (sp + top) argv = stringsEnd sp argv + top := by
  induction argv generalizing sp with
  | nil => rfl
  | cons arg argv ih =>
    rw [stringsEnd, stringsEnd, lower_shift aligned]
    exact ih _

theorem fits_iff {argv : List (List Byte)} (top : Int) (aligned : top % 16 = 0) :
    Fits argv ↔ top - PGSIZE ≤ blockEnd top argv := by
  have shifted : stringsEnd top argv = stringsEnd 0 argv + top := by
    simpa using stringsEnd_shift aligned 0 argv
  unfold Fits blockEnd
  rw [shifted, lower_shift aligned]
  omega

end

section
variable {top : Int} {argv : List (List Byte)} {pointers : List Nat} {j j' q q' : Nat} {arg arg' : List Byte}

section

variable (placed : pointers.map Int.ofNat = placeStrings top argv)

include placed

theorem placeStrings_length : pointers.length = argv.length := by
  induction argv generalizing top pointers with
  | nil => simpa [placeStrings] using placed
  | cons arg argv ih =>
    cases pointers with
    | nil => cases placed
    | cons q pointers =>
      rw [List.length_cons, List.length_cons, ih (List.cons.inj placed).2]

theorem placeStrings_bounds (string : argv[j]? = some arg)
    (pointer : pointers[j]? = some q) : q % 16 = 0 ∧ stringsEnd top argv ≤ q ∧ (q : Int) + (arg.length + 1 : Nat) ≤ top := by
  induction argv generalizing top pointers j with
  | nil => simp at string
  | cons first argv ih =>
    cases pointers with
    | nil => cases placed
    | cons low pointers =>
      obtain ⟨here, rest⟩ := List.cons.inj placed
      have below : lower top (first.length + 1) ≤ top - (first.length + 1 : Nat) := lower_le
      have aligned : lower top (first.length + 1) % 16 = 0 := lower_mod
      cases j with
      | zero =>
        obtain rfl : first = arg := by simpa using string
        obtain rfl : low = q := by simpa using pointer
        have last : stringsEnd top (first :: argv) ≤ lower top (first.length + 1) := stringsEnd_le
        simp only [Int.ofNat_eq_natCast] at here
        omega
      | succ j =>
        obtain ⟨mod, least, most⟩ := ih rest string pointer
        exact ⟨mod, least, by omega⟩

theorem placeStrings_apart (before : j < j')
    (string : argv[j]? = some arg) (pointer : pointers[j]? = some q) (string' : argv[j']? = some arg')
    (pointer' : pointers[j']? = some q') : q' + arg'.length + 1 ≤ q := by
  induction argv generalizing top pointers j j' with
  | nil => simp at string
  | cons first argv ih =>
    cases pointers with
    | nil => cases placed
    | cons low pointers =>
      obtain ⟨here, rest⟩ := List.cons.inj placed
      obtain ⟨later, rfl⟩ : ∃ later, j' = later + 1 := ⟨j' - 1, by omega⟩
      cases j with
      | zero =>
        obtain rfl : low = q := by simpa using pointer
        have bounds := (placeStrings_bounds rest string' pointer').2.2
        simp only [Int.ofNat_eq_natCast] at here
        omega
      | succ j => exact ih rest (by omega) string pointer string' pointer'

end

end

/-! ## Pushing them -/

theorem sub64_eq {a b : Nat} (le : b ≤ a) (small : a < 2 ^ 64) : sub64 a b = a - b := by
  unfold sub64
  omega

theorem lowered {a b : Nat} (le : b ≤ a) (small : a < 2 ^ 64) : ((sub64 a b - sub64 a b % 16 : Nat) : Int) = lower a b := by
  rw [sub64_eq le small, lower]
  omega

def HoldsStrings (m : Machine) (r : Nat) (argv : List (List Byte)) (pointers : List Nat) : Prop :=
  ∀ (j : Nat) arg q, argv[j]? = some arg → pointers[j]? = some q → userBytes m r q (arg.length + 1) = arg ++ [0]

section
variable {L : Layout} {role : Roles} {m t : Machine} {r base sp : Nat} {X : Nat → Word} {argv : List (List Byte)}
  {src : List Byte} {pointers : List Nat}

structure StackPage (L : Layout) (role : Roles) (m : Machine) (r base : Nat) (X : Nat → Word) : Prop where
  user : UserSpace L role m r X
  room : PGSIZE ≤ base
  reach : ∀ va, base ≤ va → va < base + PGSIZE → userAddr m.page r va ≠ none

section

variable (stack : StackPage L role m r base X)

include stack

theorem StackPage.moves (moves : Moves L role m role t r X) : StackPage L role t r base X := by
  have user : UserSpace L role t r X := ⟨moves.space, stack.user.kernel⟩
  refine ⟨user, stack.room, fun va low high => ?_⟩
  have before := stack.reach va low high
  rw [user.userAddr]
  rwa [stack.user.userAddr] at before

theorem StackPage.small : base + PGSIZE < 2 ^ 64 := by
  have last := stack.reach (base + PGSIZE - 1) (by simp only [PGSIZE]; omega) (by simp only [PGSIZE]; omega)
  rw [stack.user.userAddr] at last
  by_contra large
  apply last
  rw [if_neg]
  intro both
  simp only [MAXVA, PGSIZE] at *
  omega

theorem StackPage.copyout (low : base ≤ sp) (high : sp + src.length ≤ base + PGSIZE) :
    wp (copyout r sp src) (fun ok t => ok = true ∧ Moves L role m role t r X ∧ userBytes t r sp src.length = src ∧
      ∀ va, ¬ (sp ≤ va ∧ va < sp + src.length) → userByte t r va = userByte m r va) m := by
  apply (copyout_wrote stack.user _ _).mono
  rintro ok t ⟨wrote, moves⟩
  obtain rfl : ok = true := wrote.all.mpr fun j inside => stack.reach _ (by omega) (by omega)
  exact ⟨rfl, moves, userBytes_wrote wrote, fun va outside => wrote.outside stack.user outside⟩

theorem pushStrings_places (low : base ≤ sp) (high : sp ≤ base + PGSIZE) (short : ∀ arg ∈ argv, arg.length < PGSIZE) :
    wp (pushStrings r base argv sp) (fun result t => Moves L role m role t r X ∧ match result with
      | none => stringsEnd sp argv < base
      | some (bottom, pointers) => (bottom : Int) = stringsEnd sp argv ∧ base ≤ bottom ∧
          pointers.map Int.ofNat = placeStrings sp argv ∧ HoldsStrings t r argv pointers ∧
          ∀ va, ¬ (bottom ≤ va ∧ va < sp) → userByte t r va = userByte m r va) m := by
  induction argv generalizing m sp with
  | nil =>
    rw [pushStrings, wp_pure]
    exact ⟨Moves.refl stack.user.space, rfl, low, rfl, by simp [HoldsStrings], fun _ _ => rfl⟩
  | cons arg argv ih =>
    have length := short arg (by simp)
    have room := stack.room
    have small := stack.small
    have address := lowered (a := sp) (b := arg.length + 1) (by omega) (by omega)
    have below : lower sp (arg.length + 1) ≤ sp - (arg.length + 1 : Nat) := lower_le
    simp only [pushStrings]
    generalize sub64 sp (arg.length + 1) - sub64 sp (arg.length + 1) % 16 = next at address
    split_ifs with under
    · simp only [wp_pure]
      refine ⟨Moves.refl stack.user.space, ?_⟩
      have rest : stringsEnd sp (arg :: argv) ≤ lower sp (arg.length + 1) := stringsEnd_le
      omega
    · have inside : next + (arg ++ [0]).length ≤ sp := by
        rw [List.length_append, List.length_singleton]
        omega
      apply (stack.copyout (by omega) (by omega)).bind
      rintro _ t ⟨rfl, moves, string, outside⟩
      simp only [↓reduceIte, wp_bind]
      apply (ih (stack.moves moves) (by omega) (by omega) fun a member => short a (List.mem_cons_of_mem _ member)).mono
      rintro (_ | ⟨bottom, pointers⟩) u ⟨moves', outcome⟩
      · simp only [wp_pure]
        rw [address] at outcome
        exact ⟨moves.trans moves', outcome⟩
      · obtain ⟨last, above, placed, strings, others⟩ := outcome
        have order : (bottom : Int) ≤ next := by
          rw [last]
          exact stringsEnd_le
        simp only [wp_pure]
        refine ⟨moves.trans moves', ?_, above, ?_, ?_, ?_⟩
        · rw [last, address]
          rfl
        · rw [List.map_cons, placed, placeStrings, ← address]
          rfl
        · intro j a q stringAt pointerAt
          cases j with
          | zero =>
            obtain rfl : arg = a := by simpa using stringAt
            obtain rfl : next = q := by simpa using pointerAt
            rw [List.length_append, List.length_singleton] at string
            rw [← string]
            exact userBytes_congr fun j _ => others _ (by omega)
          | succ j => exact strings j a q stringAt pointerAt
        · grind

end

structure Block (m : Machine) (r top sp : Nat) (argv : List (List Byte)) (pointers : List Nat) : Prop where
  low : top ≤ sp + PGSIZE
  end_eq : (sp : Int) = blockEnd top argv
  placed : pointers.map Int.ofNat = placeStrings top argv
  strings : HoldsStrings m r argv pointers
  array : userBytes m r sp ((argv.length + 1) * 8) = (pointers ++ [0]).flatMap wordBytes

theorem wordBytes_length (w : Nat) : (wordBytes w).length = 8 := by
  simp [wordBytes]

theorem arrayBytes_length (words : List Nat) : (words.flatMap wordBytes).length = words.length * 8 := by
  induction words with
  | nil => rfl
  | cons w words ih =>
    rw [List.flatMap_cons, List.length_append, ih, wordBytes_length, List.length_cons]
    omega

theorem arrayBytes_getElem {words : List Nat} {j o w : Nat} {b : Byte} (word : words[j]? = some w)
    (byte : (wordBytes w)[o]? = some b) : (words.flatMap wordBytes)[j * 8 + o]? = some b := by
  induction words generalizing j with
  | nil => simp at word
  | cons first words ih =>
    rw [List.flatMap_cons]
    cases j with
    | zero => grind
    | succ j =>
      rw [List.getElem?_append_right (by rw [wordBytes_length]; omega), wordBytes_length,
        show (j + 1) * 8 + o - 8 = j * 8 + o by omega]
      exact ih word

theorem Block.word {top j q : Nat} (block : Block m r top sp argv pointers) (entry : (pointers ++ [0])[j]? = some q) :
    userBytes m r (sp + j * 8) 8 = wordBytes q := by
  have reach : ∀ o b, (wordBytes q)[o]? = some b → userByte m r (sp + j * 8 + o) = some b := by
    intro o b byte
    have inside := arrayBytes_getElem entry byte
    rw [← block.array] at inside
    rw [Nat.add_assoc]
    exact userBytes_getElem inside
  have whole := userBytes_append (k := 0) reach
  rwa [wordBytes_length, Nat.add_zero, userBytes, List.append_nil] at whole

theorem pushArgs_places (stack : StackPage L role m r base X) (short : ∀ arg ∈ argv, arg.length < PGSIZE)
    (few : argv.length < MAXARG) :
    wp (pushArgs r base (base + PGSIZE) argv) (fun result t => Moves L role m role t r X ∧ match result with
      | none => blockEnd (base + PGSIZE : Nat) argv < base
      | some sp => ∃ pointers, Block t r (base + PGSIZE) sp argv pointers) m := by
  simp only [pushArgs, wp_bind]
  apply (pushStrings_places stack (by omega) (Nat.le_refl _) short).mono
  rintro (_ | ⟨bottom, pointers⟩) t ⟨moves, outcome⟩
  · simp only [wp_pure]
    refine ⟨moves, ?_⟩
    have last : blockEnd (base + PGSIZE : Nat) argv ≤ stringsEnd (base + PGSIZE : Nat) argv - ((argv.length + 1) * 8 : Nat) :=
      lower_le
    omega
  · obtain ⟨last, above, placed, strings, -⟩ := outcome
    have room := stack.room
    have small := stack.small
    have count := placeStrings_length placed
    have order : (bottom : Int) ≤ (base + PGSIZE : Nat) := by
      rw [last]
      exact stringsEnd_le
    have length : (pointers ++ [0]).length * 8 = (argv.length + 1) * 8 := by
      rw [List.length_append, List.length_singleton, count]
    have space : (argv.length + 1) * 8 ≤ bottom := by
      simp only [MAXARG, PGSIZE] at *
      omega
    have address := lowered space (by omega)
    have below : lower bottom ((argv.length + 1) * 8) ≤ bottom - ((argv.length + 1) * 8 : Nat) := lower_le
    dsimp only
    rw [length]
    generalize sub64 bottom ((argv.length + 1) * 8) - sub64 bottom ((argv.length + 1) * 8) % 16 = sp at address
    have endAddress : (sp : Int) = blockEnd (base + PGSIZE : Nat) argv := by
      rw [address, last, blockEnd]
    split_ifs with under
    · simp only [wp_pure]
      exact ⟨moves, by omega⟩
    · have bytes := arrayBytes_length (pointers ++ [0])
      apply ((stack.moves moves).copyout (by omega) (by omega)).bind
      rintro _ u ⟨rfl, moves', array, others⟩
      simp only [↓reduceIte, wp_pure]
      refine ⟨moves.trans moves', pointers, by omega, endAddress, placed, ?_, ?_⟩
      · intro j a q stringAt pointerAt
        have above := (placeStrings_bounds placed stringAt pointerAt).2.1
        rw [← strings j a q stringAt pointerAt]
        exact userBytes_congr fun j _ => others _ (by omega)
      · rwa [bytes, length] at array

end

end Xv6.Vm
