import Mathlib

namespace Xv6.Grep

/-! ## The matcher of `grep.c`

A string is the list of its bytes before the NUL. The recursion of `matchhere` is on the pattern,
the loops of `matchstar` and `match` go along the text. -/

abbrev Text := List UInt8

def caret : UInt8 := 94

def dollar : UInt8 := 36

def star : UInt8 := 42

def dot : UInt8 := 46

/-- `here` is `matchhere` with the rest of the pattern. -/
def matchstar (here : Text → Bool) (c : UInt8) : Text → Bool
  | [] => here []
  | t :: text => here (t :: text) || (t == c || c == dot) && matchstar here c text

/-- The last `if` of `matchhere`. -/
def matchone (here : Text → Bool) (c : UInt8) : Text → Bool
  | [] => false
  | t :: text => (c == dot || c == t) && here text

def matchhere : Text → Text → Bool
  | [], _ => true
  | [c], text => if c = dollar then text.isEmpty else matchone (matchhere []) c text
  | c :: r :: re, text => if r = star then matchstar (matchhere re) c text else matchone (matchhere (r :: re)) c text

def matchLoop (re : Text) : Text → Bool
  | [] => matchhere re []
  | t :: text => matchhere re (t :: text) || matchLoop re text

def grepMatch (re text : Text) : Bool :=
  if re.head? = some caret then matchhere re.tail text else matchLoop re text

/-! ## What a pattern means -/

inductive Token where
  | many (c : UInt8)
  | one (c : UInt8)

/-- The pattern without a final `$`, and whether it has one. -/
def parse : Text → List Token × Bool
  | [] => ([], false)
  | [c] => if c = dollar then ([], true) else ([.one c], false)
  | c :: r :: re =>
    if r = star then (.many c :: (parse re).1, (parse re).2) else (.one c :: (parse (r :: re)).1, (parse (r :: re)).2)

def Stands (c t : UInt8) : Prop := c = dot ∨ c = t

def Token.strings : Token → Set Text
  | many c => {u | ∀ t ∈ u, Stands c t}
  | one c => {u | ∃ t, Stands c t ∧ u = [t]}

def language : List Token → Set Text
  | [] => {[]}
  | token :: tokens => {w | ∃ u ∈ token.strings, ∃ v ∈ language tokens, w = u ++ v}

/-- The text begins with a string of the language, and is that string if its end is wanted. -/
def Begins (pattern : List Token × Bool) (text : Text) : Prop :=
  ∃ u ∈ language pattern.1, ∃ v, text = u ++ v ∧ (pattern.2 = true → v = [])

section
variable {here : Text → Bool} {token : Token} {tokens : List Token} {final : Bool} {text : Text}

theorem begins_nil : Begins ([], final) text ↔ (final = true → text = []) := by
  constructor
  · rintro ⟨_, rfl, v, rfl, last⟩
    exact last
  · exact fun last => ⟨[], rfl, text, rfl, last⟩

theorem begins_cons : Begins (token :: tokens, final) text ↔
    ∃ u ∈ token.strings, ∃ rest, text = u ++ rest ∧ Begins (tokens, final) rest := by
  constructor
  · rintro ⟨_, ⟨u, first, v, others, rfl⟩, rest, rfl, last⟩
    exact ⟨u, first, v ++ rest, List.append_assoc .., v, others, rest, rfl, last⟩
  · rintro ⟨u, first, _, rfl, v, others, rest, rfl, last⟩
    exact ⟨u ++ v, ⟨u, first, v, others, rfl⟩, rest, (List.append_assoc ..).symm, last⟩

theorem matchstar_iff (c : UInt8) (text : Text) : matchstar here c text = true ↔
    ∃ u ∈ (Token.many c).strings, ∃ rest, text = u ++ rest ∧ here rest = true := by
  induction text with
  | nil =>
    constructor
    · exact fun found => ⟨[], nofun, [], rfl, found⟩
    · rintro ⟨u, -, rest, empty, found⟩
      obtain ⟨-, rfl⟩ := List.append_eq_nil_iff.mp empty.symm
      exact found
  | cons t text ih =>
    simp only [matchstar, Bool.or_eq_true, Bool.and_eq_true, beq_iff_eq, ih]
    constructor
    · rintro (found | ⟨stands, u, run, rest, rfl, found⟩)
      · exact ⟨[], nofun, t :: text, rfl, found⟩
      · refine ⟨t :: u, List.forall_mem_cons.mpr ⟨?_, run⟩, rest, rfl, found⟩
        exact stands.symm.imp id Eq.symm
    · rintro ⟨u, run, rest, split, found⟩
      cases u with
      | nil => exact .inl (split ▸ found)
      | cons t' u =>
        obtain ⟨rfl, rfl⟩ := List.cons.inj split
        obtain ⟨stands, run⟩ := List.forall_mem_cons.mp run
        exact .inr ⟨stands.symm.imp Eq.symm id, u, run, rest, rfl, found⟩

theorem matchone_iff (c : UInt8) (text : Text) : matchone here c text = true ↔
    ∃ u ∈ (Token.one c).strings, ∃ rest, text = u ++ rest ∧ here rest = true := by
  constructor
  · intro found
    cases text with
    | nil => cases found
    | cons t text =>
      simp only [matchone, Bool.or_eq_true, Bool.and_eq_true, beq_iff_eq] at found
      exact ⟨[t], ⟨t, found.1, rfl⟩, text, rfl, found.2⟩
  · rintro ⟨_, ⟨t, stands, rfl⟩, rest, rfl, found⟩
    simpa [matchone, found, Stands] using stands

theorem matchhere_iff : (re text : Text) → (matchhere re text = true ↔ Begins (parse re) text)
  | [], text => by simp [matchhere, parse, begins_nil]
  | [c], text => by
    rw [matchhere, parse]
    split_ifs with last
    · simp [begins_nil]
    · simp only [matchone_iff, begins_cons, matchhere_iff []]
      exact Iff.rfl
  | c :: r :: re, text => by
    rw [matchhere, parse]
    split_ifs with starred
    · simp only [matchstar_iff, begins_cons, matchhere_iff re]
    · simp only [matchone_iff, begins_cons, matchhere_iff (r :: re)]

theorem matchLoop_iff (re text : Text) : matchLoop re text = true ↔ ∃ rest, rest <:+ text ∧ matchhere re rest = true := by
  induction text with
  | nil => simp [matchLoop]
  | cons t text ih =>
    simp only [matchLoop, Bool.or_eq_true, ih, List.suffix_cons_iff]
    constructor
    · rintro (found | ⟨rest, suffix, found⟩)
      · exact ⟨_, .inl rfl, found⟩
      · exact ⟨rest, .inr suffix, found⟩
    · rintro ⟨rest, rfl | suffix, found⟩
      · exact .inl found
      · exact .inr ⟨rest, suffix, found⟩

end

theorem grepMatch_iff (re text : Text) : grepMatch re text = true ↔
    if re.head? = some caret then Begins (parse re.tail) text else ∃ rest, rest <:+ text ∧ Begins (parse re) rest := by
  unfold grepMatch
  split_ifs with anchored
  · exact matchhere_iff re.tail text
  · simp only [matchLoop_iff, matchhere_iff]

end Xv6.Grep
