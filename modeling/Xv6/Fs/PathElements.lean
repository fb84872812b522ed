import Xv6.Fs.Names

namespace Xv6.Fs
open Lib Function
open Blocks (CString key upTo)

/-! ## The components of a path -/

def components (path : Path) : List Name := ((path.splitOn slash).filter (· ≠ [])).map (·.take DIRSIZ)

theorem components_slash (path : Path) : components (slash :: path) = components path := by
  simp [components, List.splitOn_eq_splitOnP, List.splitOnP_cons_eq_if_modifyHead]

theorem components_slashes (path : Path) : components (path.dropWhile (· == slash)) = components path := by
  induction path with
  | nil => rfl
  | cons b path ih =>
    rw [List.dropWhile_cons]
    split
    next isSlash =>
      rw [ih, eq_of_beq isSlash]
      exact (components_slash path).symm
    next => rfl

variable {path rest : Path} {name : Name}

theorem components_name {b : UInt8} (other : b ≠ slash) :
    components (b :: path) =
      ((b :: path).takeWhile (· != slash)).take DIRSIZ :: components ((b :: path).dropWhile (· != slash)) := by
  have letters : ∀ c ∈ (b :: path).takeWhile (· != slash), (c == slash) = false := by
    grind [List.mem_takeWhile_imp]
  have first : decide ((b :: path).takeWhile (· != slash) ≠ []) = true := by
    rw [List.takeWhile_cons, if_pos (bne_iff_ne.mpr other)]
    rfl
  have whole : (b :: path).takeWhile (· != slash) ++ (b :: path).dropWhile (· != slash) = b :: path :=
    List.takeWhile_append_dropWhile
  have head := List.head?_dropWhile_not (· != slash) (b :: path)
  cases rest : (b :: path).dropWhile (· != slash) with
  | nil =>
    rw [rest, List.append_nil] at whole
    rw [whole] at letters first ⊢
    rw [components, List.splitOn_eq_splitOnP, List.splitOnP_eq_singleton letters, List.filter_cons, if_pos first]
    rfl
  | cons c after =>
    rw [rest] at whole head
    have isSlash : c = slash := by simpa using head
    subst isSlash
    have split : (b :: path).splitOn slash = (b :: path).takeWhile (· != slash) :: after.splitOn slash := by
      rw [List.splitOn_eq_splitOnP, List.splitOn_eq_splitOnP,
        ← List.splitOnP_append_cons_of_forall_mem letters slash (beq_self_eq_true slash) after, whole]
    rw [components, split, List.filter_cons, if_pos first, List.map_cons, components_slash]
    rfl

theorem elements_eq_components (path : Path) : elements path = components path := by
  induction size : path.length using Nat.strong_induction_on generalizing path with
  | _ n ih =>
    rw [elements_eq, ← components_slashes path]
    cases found : skipelem path with
    | none =>
      rw [skipelem] at found
      cases start : path.dropWhile (· == slash) with
      | nil => rfl
      | cons b s => simp [start] at found
    | some next =>
      have shorter := skipelem_shorter found
      rw [skipelem] at found
      have head := List.head?_dropWhile_not (· == slash) path
      cases start : path.dropWhile (· == slash) with
      | nil => simp [start] at found
      | cons b s =>
        rw [start] at head
        simp only [start, Option.some.injEq] at found
        subst found
        have other : b ≠ slash := by simpa using head
        rw [components_name other, ← components_slashes ((b :: s).dropWhile _), ← ih _ (size ▸ shorter) _ rfl]

/-! ## The name buffer -/

def memmove (dst : CString) (src : List UInt8) (n : Nat) : CString := fun k => if k < n then src.getD k 0 else dst k

def skipelemInto (path : Path) (name : CString) : Option (Path × CString) :=
  match path.dropWhile (· == slash) with
  | [] => none
  | s =>
    let rest := s.dropWhile (· != slash)
    let len := s.length - rest.length
    let name := if len ≥ DIRSIZ then memmove name s DIRSIZ else update (memmove name s len) len 0
    some (rest.dropWhile (· == slash), name)

theorem upTo_letters {p : CString} {l : List UInt8} {n : Nat} (letters : 0 ∉ l)
    (same : ∀ k, k < n → k < l.length → p k = l.getD k 0) (ended : l.length < n → p l.length = 0) : upTo n p = l.take n := by
  induction n generalizing p l with
  | zero => rfl
  | succ n ih =>
    cases l with
    | nil =>
      have first : p 0 = 0 := ended (Nat.succ_pos n)
      rw [upTo, if_pos first]
      rfl
    | cons b l =>
      have first : p 0 = b := same 0 (Nat.succ_pos n) (Nat.succ_pos _)
      have nonzero : b ≠ 0 := fun zero => letters (zero ▸ List.mem_cons_self)
      have rest : upTo n p.tail = l.take n := by
        refine ih (fun member => letters (List.mem_cons_of_mem b member)) (fun k below inside => ?_) fun short => ?_
        · exact same (k + 1) (Nat.succ_lt_succ below) (Nat.succ_lt_succ inside)
        · exact ended (Nat.succ_lt_succ short)
      rw [upTo, first, if_neg nonzero, rest]
      rfl

theorem key_memmove {s : Path} (terminated : 0 ∉ s) (name : CString) {len : Nat}
    (isLen : len = s.length - (s.dropWhile (· != slash)).length) :
    key (if len ≥ DIRSIZ then memmove name s DIRSIZ else update (memmove name s len) len 0) =
      (s.takeWhile (· != slash)).take DIRSIZ := by
  have whole : s.takeWhile (· != slash) ++ s.dropWhile (· != slash) = s := List.takeWhile_append_dropWhile
  obtain rfl : (s.takeWhile (· != slash)).length = len := by
    have lengths := congrArg List.length whole
    rw [List.length_append] at lengths
    omega
  have byte (k : Nat) (low : k < (s.takeWhile (· != slash)).length) : s.getD k 0 = (s.takeWhile (· != slash)).getD k 0 := by
    conv_lhs => rw [← whole]
    exact List.getD_append _ _ _ _ low
  refine upTo_letters (fun member => ?_) (fun k below low => ?_) fun short => ?_
  · exact terminated ((List.takeWhile_prefix _).subset member)
  · split
    next => exact (if_pos below).trans (byte k low)
    next => exact (update_of_ne (Nat.ne_of_lt low) ..).trans ((if_pos low).trans (byte k low))
  · rw [if_neg (Nat.not_le.mpr short), update_self]

theorem skipelemInto_eq (terminated : 0 ∉ path) (name : CString) :
    (skipelemInto path name).map (fun next => (key next.2, next.1)) = skipelem path := by
  rw [skipelemInto, skipelem]
  cases start : path.dropWhile (· == slash) with
  | nil => rfl
  | cons b s =>
    have inside : 0 ∉ b :: s := fun member => terminated ((List.dropWhile_suffix (· == slash)).subset (start ▸ member))
    simp only [Option.map_some, key_memmove inside name rfl]

theorem skipelem_terminated (terminated : 0 ∉ path) (found : skipelem path = some (name, rest)) : 0 ∉ rest := by
  rw [skipelem] at found
  cases start : path.dropWhile (· == slash) with
  | nil => simp [start] at found
  | cons b s =>
    simp only [start, Option.some.injEq, Prod.mk.injEq] at found
    obtain ⟨-, rfl⟩ := found
    intro member
    have inner := (List.dropWhile_suffix (· != slash)).subset ((List.dropWhile_suffix (· == slash)).subset member)
    exact terminated ((List.dropWhile_suffix (· == slash)).subset (start ▸ inner))

theorem skipelem_last (found : skipelem path = some (name, rest)) : rest = [] ↔ elements rest = [] := by
  constructor
  · rintro rfl
    rfl
  · intro none
    rw [elements_eq] at none
    rw [skipelem] at found
    cases start : path.dropWhile (· == slash) with
    | nil => simp [start] at found
    | cons b s =>
      simp only [start, Option.some.injEq, Prod.mk.injEq] at found
      obtain ⟨-, rfl⟩ := found
      have idle : skipelem (((b :: s).dropWhile (· != slash)).dropWhile (· == slash)) = .none := by grind
      rw [skipelem, List.dropWhile_idempotent] at idle
      cases left : ((b :: s).dropWhile (· != slash)).dropWhile (· == slash) with
      | nil => rfl
      | cons c l => simp [left] at idle

/-! ## `namex` with its buffer -/

namespace Buffered

def namexFrom (parent : Bool) : (fuel : Nat) → Entry → Path → CString → Op (Option (Entry × CString))
  | 0, _, _, _ => pure none
  | fuel + 1, ip, path, name =>
    match skipelemInto path name with
    | none =>
      if parent then do
        iput ip
        pure none
      else pure (some (ip, name))
    | some (path, name) => do
      ilock ip
      let d ← ask (.inode ip)
      if d.type ≠ T_DIR then do
        iunlockput ip
        pure none
      else if parent ∧ path = [] then do
        iunlock ip
        pure (some (ip, name))
      else do
        match ← dirlookup ip (key name) with
        | none => do
          iunlockput ip
          pure none
        | some (next, _) => do
          iunlockput ip
          namexFrom parent fuel next path name

def namex (path : Path) (parent : Bool) (name : CString) : Op (Option (Entry × CString)) := do
  if path.head? = some slash then do
    let ip ← ask (.iget ROOTINO false)
    namexFrom parent (path.length + 1) ip path name
  else do
    let ip ← ask .cwd
    ask (.idup ip)
    namexFrom parent (path.length + 1) ip path name

def namei (path : Path) (name : CString) : Op (Option Entry) := do
  let found ← namex path false name
  pure (found.map Prod.fst)

def nameiparent (path : Path) (name : CString) : Op (Option (Entry × CString)) := namex path true name

def shown (found : Option (Entry × CString)) : Option (Entry × Name) := found.map fun r => (r.1, key r.2)

theorem namexFrom_eq (parent : Bool) {fuel : Nat} (ip : Entry) (name : CString) (terminated : 0 ∉ path)
    (enough : path.length < fuel) :
    namexFrom parent fuel ip path name >>= (fun found => pure (shown found)) =
      Fs.namexFrom parent ip (key name) (elements path) := by
  induction fuel generalizing ip path name with
  | zero => exact absurd enough (Nat.not_lt_zero _)
  | succ fuel ih =>
    have same := skipelemInto_eq terminated name
    rw [namexFrom, elements_eq]
    cases into : skipelemInto path name with
    | none =>
      rw [into] at same
      rw [← same]
      simp only [Option.map_none, Fs.namexFrom]
      split
      · exact Prog.bind_assoc ..
      · rfl
    | some next =>
      rw [into] at same
      have shorter := skipelem_shorter same.symm
      have left := skipelem_terminated terminated same.symm
      have last := skipelem_last same.symm
      rw [← same]
      simp only [Option.map_some, Fs.namexFrom, Prog.bind_assoc]
      refine Prog.bind_congr _ fun _ => Prog.bind_congr _ fun d => ?_
      split
      · exact Prog.bind_assoc ..
      · simp only [last]
        split
        · exact Prog.bind_assoc ..
        · rw [Prog.bind_assoc]
          refine Prog.bind_congr _ fun found => ?_
          cases found with
          | none => exact Prog.bind_assoc ..
          | some found =>
            refine (Prog.bind_assoc ..).trans (Prog.bind_congr _ fun _ => ih _ _ left ?_)
            omega

theorem namei_eq (path : Path) (name : CString) (terminated : 0 ∉ path) : namei path name = Fs.namei path := by
  -- the name that is in the buffer at first does not matter
  have from_eq (ip : Entry) : (namexFrom false (path.length + 1) ip path name >>= fun found => pure (found.map Prod.fst)) =
      Fs.namexFrom false ip [] (elements path) >>= fun found => pure (found.map Prod.fst) := by
    have same := namexFrom_eq false ip name terminated (Nat.lt_succ_self _)
    have shownFst (found : Option (Entry × CString)) : (shown found).map Prod.fst = found.map Prod.fst := by
      cases found <;> rfl
    have whole := congrArg (· >>= fun found => pure (found.map Prod.fst)) same
    rw [Prog.bind_assoc] at whole
    simp only [Prog.ret_bind, shownFst] at whole
    rw [whole]
    cases elements path <;> rfl
  unfold namei Fs.namei namex Fs.namex
  split
  · grind [Prog.bind_assoc]
  · grind [Prog.bind_assoc]

theorem nameiparent_eq (path : Path) (name : CString) (terminated : 0 ∉ path) :
    nameiparent path name >>= (fun found => pure (shown found)) = Fs.nameiparent path := by
  have from_eq (ip : Entry) : (namexFrom true (path.length + 1) ip path name >>= fun found => pure (shown found)) =
      Fs.namexFrom true ip [] (elements path) := by
    rw [namexFrom_eq true ip name terminated (Nat.lt_succ_self _)]
    cases elements path <;> rfl
  unfold nameiparent Fs.nameiparent namex Fs.namex
  split
  · rw [Prog.bind_assoc]
    exact Prog.bind_congr _ fun ip => from_eq ip
  · grind [Prog.bind_assoc]

end Buffered

end Xv6.Fs
