import Xv6.Param

namespace Xv6.Fs

/-! ## Paths -/

/-- A path element as `namecmp` sees it: at most `DIRSIZ` bytes, none of them NUL. -/
abbrev Name := List UInt8

abbrev Path := List UInt8

abbrev slash : UInt8 := 47

def dot : Name := [46]

def dotdot : Name := [46, 46]

def skipelem (path : Path) : Option (Name × Path) :=
  match path.dropWhile (· == slash) with
  | [] => none
  | s => some ((s.takeWhile (· != slash)).take DIRSIZ, (s.dropWhile (· != slash)).dropWhile (· == slash))

def elementsFrom : Nat → Path → List Name
  | 0, _ => []
  | n + 1, path => match skipelem path with
      | none => []
      | some (name, rest) => name :: elementsFrom n rest

/-- The names that repeated calls of `skipelem` yield. -/
def elements (path : Path) : List Name := elementsFrom path.length path

theorem skipelem_shorter {path rest : Path} {name : Name} (found : skipelem path = some (name, rest)) :
    rest.length < path.length := by
  unfold skipelem at found
  have trimmed := (List.dropWhile_suffix (· == slash) (l := path)).length_le
  cases start : path.dropWhile (· == slash) with
  | nil => simp [start] at found
  | cons b s =>
    have first := List.head?_dropWhile_not (· == slash) path
    simp only [start, List.head?_cons] at first
    simp only [start, Option.some.injEq, Prod.mk.injEq] at found
    have kept : (b :: s).dropWhile (· != slash) = s.dropWhile (· != slash) := by
      rw [List.dropWhile_cons_of_pos]
      simpa using first
    have inner := (List.dropWhile_suffix (· != slash) (l := s)).length_le
    have outer := (List.dropWhile_suffix (· == slash) (l := s.dropWhile (· != slash))).length_le
    rw [start, List.length_cons] at trimmed
    rw [← found.2, kept]
    omega

theorem elementsFrom_enough {n : Nat} {path : Path} (enough : path.length ≤ n) : elementsFrom n path = elements path := by
  have step (n : Nat) : ∀ path : Path, path.length ≤ n → elementsFrom (n + 1) path = elementsFrom n path := by
    induction n with
    | zero =>
      intro path short
      rw [List.eq_nil_of_length_eq_zero (Nat.le_zero.mp short)]
      rfl
    | succ n ih =>
      intro path short
      rw [elementsFrom, elementsFrom]
      cases found : skipelem path with
      | none => rfl
      | some next =>
        have shorter := skipelem_shorter found
        exact congrArg (next.1 :: ·) (ih next.2 (by omega))
  induction n with
  | zero => rw [elements, Nat.le_zero.mp enough]
  | succ n ih =>
    rcases Nat.le_succ_iff.mp enough with less | equal
    · rw [step n path less, ih less]
    · rw [elements, equal]

theorem elements_eq (path : Path) :
    elements path = match skipelem path with
      | none => []
      | some (name, rest) => name :: elements rest := by
  cases path with
  | nil => rfl
  | cons b s =>
    rw [elements, List.length_cons, elementsFrom]
    cases found : skipelem (b :: s) with
    | none => rfl
    | some next =>
      have shorter := skipelem_shorter found
      rw [List.length_cons] at shorter
      exact congrArg (next.1 :: ·) (elementsFrom_enough (by omega))

end Xv6.Fs
