import Xv6.Proc.Interrupts

namespace Xv6.Interrupts
open Lib
open ProcTable (Slot ProcState initproc)

/-! ## A thread on its CPU -/

def Pc.Masked : Pc → Prop
  | .resume _ | .done _ | .popOff (some _) => False
  | _ => True

def Caller.OfThread : Caller → Prop
  | .plain | .acquire _ => True
  | .scan _ => False

def Pc.OfThread : Pc → Prop
  | .body | .sched | .resume _ | .forkret | .popOff none => True
  | .pushOff _ caller | .spin caller => caller.OfThread
  | .popOff (some _) | .loop | .scan _ | .test _ | .done _ => False

def Pc.Fits (n : Nat) (held : List Lock) : Pc → Prop
  | .body => held.length ≤ n
  | .pushOff _ caller => held.length ≤ n ∧ (caller.OfThread ∨ n = 0)
  | .spin caller => held.length < n ∧ (caller.OfThread ∨ n = 1)
  | .popOff scanned => held.length < n ∧ (scanned = none ∨ n = 1)
  | .sched => 0 < n ∧ held.length ≤ n
  | .resume _ | .forkret => n = 1 ∧ held.length ≤ 1
  | .loop | .scan _ => n = 0 ∧ held = []
  | .test i | .done i => n = 1 ∧ held = [.proc i]

structure Interrupted (k : Pc) : Prop where
  fits : k.Fits 0 []
  read : ∀ old caller, k = .pushOff old caller → old = true

structure Ok (r : Regs) (x : Thread) : Prop where
  noff : r.noff = x.depth
  off : 0 < x.depth → r.sie = false
  masked : 0 < x.depth → x.pc.Masked → r.intena = x.entry
  read : ∀ old caller, x.pc = .pushOff old caller → x.depth = 0 → r.sie = old
  saved : ∀ intena, x.pc = .resume intena → intena = x.entry
  fits : x.pc.Fits x.depth x.held
  frames : ∀ k ∈ x.frames, Interrupted k
  nodup : x.held.Nodup

def Thread.OfThread (x : Thread) : Prop := x.pc.OfThread ∧ ∀ k ∈ x.frames, k.OfThread

structure Local (r : Regs) (x : Thread) (r' : Regs) (x' : Thread) : Prop where
  ok : Ok r' x'
  held : x'.held = x.held
  before : x.pc ≠ .sched
  after : x'.pc ≠ .sched
  role : x.OfThread → x'.OfThread
  leaves : x.OfThread → 0 < x.depth → x'.depth = 0 → r'.sie = x.entry

section
variable {r r' : Regs} {x x' : Thread} {k : Pc} {caller : Caller}

theorem Ok.outermost (ok : Ok r x) (on : r.sie = true) : x.depth = 0 := by
  by_contra deep
  have off := ok.off (Nat.pos_of_ne_zero deep)
  rw [on] at off
  cases off

theorem Pc.Fits.empty {held : List Lock} (fits : k.Fits 0 held) : held = [] := by
  cases k with
  | body => exact List.eq_nil_of_length_eq_zero (Nat.le_zero.mp fits)
  | pushOff old caller => exact List.eq_nil_of_length_eq_zero (Nat.le_zero.mp fits.1)
  | spin caller | popOff scanned => exact absurd fits.1 (Nat.not_lt_zero _)
  | sched => exact absurd fits.1 (Nat.lt_irrefl _)
  | resume intena | forkret | test i | done i => exact absurd fits.1 (by decide)
  | loop => exact fits.2
  | scan i => exact fits.2

/-! ## The local steps -/

structure Plain (k : Pc) : Prop where
  sched : k ≠ .sched
  resume : ∀ intena, k ≠ .resume intena

theorem Interrupted.plain (interrupted : Interrupted k) : Plain k where
  sched place := absurd (place ▸ interrupted.fits : Pc.Fits 0 [] .sched).1 (Nat.lt_irrefl 0)
  resume intena place := absurd (place ▸ interrupted.fits : Pc.Fits 0 [] (.resume intena)).1 (by decide)

theorem Ok.pushOff {old : Bool} (ok : Ok r x) (place : x.pc = .pushOff old caller)
    (fits : k.Fits (x.depth + 1) x.held) (plain : Plain k) (none : ∀ old caller, k ≠ .pushOff old caller) :
    Ok (pushOff old r) { x with depth := x.depth + 1, entry := if x.depth = 0 then old else x.entry, pc := k } := by
  refine ⟨?_, fun _ => rfl, fun _ _ => ?_, fun old caller there => absurd there (none old caller),
    fun intena there => absurd there (plain.resume intena), fits, ok.frames, ok.nodup⟩
  · simp only [Interrupts.pushOff, ok.noff]
    rfl
  · simp only [Interrupts.pushOff, ok.noff]
    by_cases outermost : x.depth = 0
    · rw [if_pos outermost, if_pos (by rw [outermost]; rfl)]
    · rw [if_neg outermost, if_neg (by omega)]
      exact ok.masked (Nat.pos_of_ne_zero outermost) (by rw [place]; trivial)

theorem popOff_eq (ok : Ok r x) (deep : 0 < x.depth) :
    popOff r = .ok ⟨decide (x.depth = 1) && r.intena, r.noff - 1, r.intena⟩ := by
  have noff := ok.noff
  rw [popOff, if_neg (by rw [ok.off deep]; decide), if_neg (by omega), ok.off deep]
  by_cases last : x.depth = 1
  · cases r.intena <;> simp [last, noff]
  · have more : ¬ r.noff - 1 = 0 := by omega
    simp [last, more]

section
variable {k₀ : Pc} (ok : Ok r x) (place : x.pc = k₀) (before : k₀ ≠ .sched) (plain : Plain k)
  (role : k₀.OfThread → k.OfThread)
include ok place before plain role

theorem Local.goto (fits : k.Fits x.depth x.held) (masked : k₀.Masked)
    (read : ∀ old caller, k = .pushOff old caller → r.sie = old) :
    Local r x r { x with pc := k } where
  ok := ⟨ok.noff, ok.off, fun deep _ => ok.masked deep (place ▸ masked), fun old caller there _ => read old caller there,
    fun intena there => absurd there (plain.resume intena), fits, ok.frames, ok.nodup⟩
  held := rfl
  before := place ▸ before
  after := plain.sched
  role thread := ⟨role (place ▸ thread.1), thread.2⟩
  leaves _ deep outermost := absurd deep (Nat.not_lt.mpr (Nat.le_of_eq outermost))

theorem Local.intr (sie : Bool) (outermost : x.depth = 0) (fits : k.Fits x.depth x.held)
    (none : ∀ old caller, k ≠ .pushOff old caller) : Local r x { r with sie := sie } { x with pc := k } where
  ok := by
    refine ⟨ok.noff, fun deep => ?_, fun deep => ?_, fun old caller there => absurd there (none old caller),
      fun intena there => absurd there (plain.resume intena), fits, ok.frames, ok.nodup⟩
    · exact absurd outermost (Nat.ne_of_gt deep)
    · exact absurd outermost (Nat.ne_of_gt deep)
  held := rfl
  before := place ▸ before
  after := plain.sched
  role thread := ⟨role (place ▸ thread.1), thread.2⟩
  leaves _ deep _ := absurd outermost (Nat.ne_of_gt deep)

theorem Local.popOff (deep : 0 < x.depth) (last : k₀.Masked ∨ (x.depth = 1 ∧ ¬ k₀.OfThread))
    (fits : k.Fits (x.depth - 1) x.held) (none : ∀ old caller, k ≠ .pushOff old caller) :
    Local r x ⟨decide (x.depth = 1) && r.intena, r.noff - 1, r.intena⟩ { x with depth := x.depth - 1, pc := k } where
  ok := by
    have noff := ok.noff
    refine ⟨?_, fun more => ?_, fun more _ => ?_, fun old caller there => absurd there (none old caller),
      fun intena there => absurd there (plain.resume intena), fits, ok.frames, ok.nodup⟩
    · dsimp only
      omega
    · grind
    · grind [ok.masked]
  held := rfl
  before := place ▸ before
  after := plain.sched
  role thread := ⟨role (place ▸ thread.1), thread.2⟩
  leaves thread _ outermost := by
    dsimp only at outermost ⊢
    have one : x.depth = 1 := by omega
    rw [decide_eq_true one, Bool.true_and]
    exact ok.masked deep (place ▸ last.resolve_right fun scheduler => scheduler.2 (place ▸ thread.1))

end

theorem Local.pushOff {old : Bool} (ok : Ok r x) (place : x.pc = .pushOff old caller)
    (fits : k.Fits (x.depth + 1) x.held) (plain : Plain k) (none : ∀ old caller, k ≠ .pushOff old caller)
    (role : caller.OfThread → k.OfThread) :
    Local r x (pushOff old r) { x with depth := x.depth + 1, entry := if x.depth = 0 then old else x.entry, pc := k } where
  ok := ok.pushOff place fits plain none
  held := rfl
  before := by
    rw [place]
    exact nofun
  after := plain.sched
  role thread := ⟨role (place ▸ thread.1 : Pc.OfThread (.pushOff old caller)), thread.2⟩
  leaves _ _ := nofun

theorem Local.resume {intena : Bool} (ok : Ok r x) (place : x.pc = .resume intena) :
    Local r x { r with intena := intena } { x with pc := .body } where
  ok := by
    have fits := ok.fits
    rw [place] at fits
    refine ⟨ok.noff, ok.off, fun _ _ => ok.saved intena place, nofun, nofun, ?_, ok.frames, ok.nodup⟩
    exact Nat.le_trans fits.2 (Nat.le_of_eq fits.1.symm)
  held := rfl
  before := by
    rw [place]
    exact nofun
  after := nofun
  role thread := ⟨trivial, thread.2⟩
  leaves _ deep outermost := absurd deep (Nat.not_lt.mpr (Nat.le_of_eq outermost))

theorem Local.trap (ok : Ok r x) (on : r.sie = true) :
    Local r x { r with sie := false } { x with pc := .body, frames := x.pc :: x.frames } := by
  have outermost := ok.outermost on
  have fits := ok.fits
  rw [outermost] at fits
  have none := fits.empty
  rw [none] at fits
  have interrupted : Interrupted x.pc := ⟨fits, fun old caller place => (ok.read old caller place outermost).symm.trans on⟩
  refine ⟨⟨ok.noff, fun _ => rfl, fun deep => absurd outermost (Nat.ne_of_gt deep), nofun, nofun, ?_,
    fun k member => ?_, ok.nodup⟩, rfl,
    interrupted.plain.sched, nofun, fun thread => ⟨trivial, fun k member => ?_⟩,
    fun _ deep => absurd outermost (Nat.ne_of_gt deep)⟩
  · rw [outermost, none]
    exact Nat.le_refl 0
  · grind [ok.frames]
  · rcases List.mem_cons.mp member with rfl | old
    · exact thread.1
    · exact thread.2 k old

theorem Local.sret {rest : List Pc} (ok : Ok r x) (place : x.pc = .body) (frames : x.frames = k :: rest)
    (outermost : x.depth = 0) : Local r x { r with sie := true } { x with pc := k, frames := rest } := by
  have first : k ∈ x.frames := by
    rw [frames]
    exact List.mem_cons_self
  have others (k' : Pc) (member : k' ∈ rest) : k' ∈ x.frames := by
    rw [frames]
    exact List.mem_cons_of_mem _ member
  have interrupted := ok.frames k first
  have fits := ok.fits
  rw [outermost] at fits
  refine ⟨⟨ok.noff, fun deep => absurd outermost (Nat.ne_of_gt deep), fun deep => absurd outermost (Nat.ne_of_gt deep),
    fun old caller there _ => (interrupted.read old caller there).symm, fun intena there =>
    absurd there (interrupted.plain.resume intena),
    ?_, fun k' member => ok.frames k' (others k' member), ok.nodup⟩, rfl, ?_, interrupted.plain.sched,
    fun thread => ⟨thread.2 k first, fun k' member => thread.2 k' (others k' member)⟩,
    fun _ deep => absurd outermost (Nat.ne_of_gt deep)⟩
  · rw [outermost, fits.empty]
    exact interrupted.fits
  · rw [place]
    exact nofun

theorem localStep_local {a : Act} {outcome : Except Panic (Regs × Thread)} (ok : Ok r x)
    (taken : localStep r x a = some outcome) : ∃ r' x', outcome = .ok (r', x') ∧ Local r x r' x' := by
  have fits := ok.fits
  simp only [localStep] at taken
  split at taken
  next old caller place =>
    cases taken
    rw [place] at fits
    refine ⟨_, _, rfl, ?_⟩
    cases caller with
    | plain => exact .pushOff ok place (Nat.le_succ_of_le fits.1) ⟨nofun, nofun⟩ nofun id
    | acquire l => exact .pushOff ok place ⟨Nat.lt_succ_of_le fits.1, .inl trivial⟩ ⟨nofun, nofun⟩ nofun id
    | scan i =>
      exact .pushOff ok place ⟨Nat.lt_succ_of_le fits.1, .inr (congrArg _ (fits.2.resolve_left id))⟩ ⟨nofun, nofun⟩ nofun id
  next place =>
    rw [place] at fits
    have deep : 0 < x.depth := Nat.zero_lt_of_lt fits.1
    rw [popOff_eq ok deep] at taken
    cases taken
    exact ⟨_, _, rfl, .popOff ok place nofun ⟨nofun, nofun⟩ id deep (.inl trivial) (Nat.le_sub_one_of_lt fits.1) nofun⟩
  next i place =>
    rw [place] at fits
    have one : x.depth = 1 := fits.2.resolve_left nofun
    have less : x.held.length < x.depth := fits.1
    have deep : 0 < x.depth := Nat.zero_lt_of_lt less
    have none : x.held = [] := List.eq_nil_of_length_eq_zero (by omega)
    rw [popOff_eq ok deep] at taken
    cases taken
    exact ⟨_, _, rfl, .popOff ok place nofun ⟨nofun, nofun⟩ id deep (.inr ⟨one, id⟩) ⟨by rw [one], none⟩ nofun⟩
  next intena place =>
    cases taken
    exact ⟨_, _, rfl, .resume ok place⟩
  next place =>
    cases taken
    rw [place] at fits
    exact ⟨_, _, rfl, .intr (k := .scan 0) ok place nofun ⟨nofun, nofun⟩ id true fits.1 fits nofun⟩
  next i place =>
    rw [place] at fits
    split at taken
    next below =>
      cases taken
      have fewer : x.held.length ≤ x.depth := by
        rw [fits.2]
        exact Nat.zero_le _
      refine ⟨_, _, rfl, .goto ok place nofun ⟨nofun, nofun⟩ id ⟨fewer, .inr fits.1⟩ trivial fun old caller same => ?_⟩
      cases same
      rfl
    next =>
      cases taken
      exact ⟨_, _, rfl, .goto ok place nofun ⟨nofun, nofun⟩ id fits trivial nofun⟩
  next place =>
    cases taken
    rw [place] at fits
    refine ⟨_, _, rfl, .goto ok place nofun ⟨nofun, nofun⟩ id ⟨fits, .inl trivial⟩ trivial fun old caller same => ?_⟩
    cases same
    rfl
  next l place =>
    cases taken
    rw [place] at fits
    refine ⟨_, _, rfl, .goto ok place nofun ⟨nofun, nofun⟩ id ⟨fits, .inl trivial⟩ trivial fun old caller same => ?_⟩
    cases same
    rfl
  next place =>
    split at taken
    next less =>
      have deep := Nat.zero_lt_of_lt less
      rw [popOff_eq ok deep] at taken
      cases taken
      exact ⟨_, _, rfl, .popOff ok place nofun ⟨nofun, nofun⟩ id deep (.inl trivial) (Nat.le_sub_one_of_lt less) nofun⟩
    next => cases taken
  next place =>
    rw [place] at fits
    split at taken
    next outermost =>
      cases taken
      have same : { x with pc := .body } = x := by rw [← place]
      exact ⟨_, _, rfl, same ▸ .intr (k := .body) ok place nofun ⟨nofun, nofun⟩ id true outermost fits nofun⟩
    next => cases taken
  next place =>
    rw [place] at fits
    split at taken
    next outermost =>
      cases taken
      have same : { x with pc := .body } = x := by rw [← place]
      exact ⟨_, _, rfl, same ▸ .intr (k := .body) ok place nofun ⟨nofun, nofun⟩ id false outermost fits nofun⟩
    next => cases taken
  next =>
    split at taken
    next on =>
      cases taken
      exact ⟨_, _, rfl, .trap ok on⟩
    next => cases taken
  next place =>
    split at taken
    next k rest frames =>
      split at taken
      next outermost =>
        cases taken
        exact ⟨_, _, rfl, .sret ok place frames outermost⟩
      next => cases taken
    next => cases taken
  next => cases taken

/-! ## Taking and giving up a lock -/

theorem Ok.acquired {l : Lock} (ok : Ok r x) (place : x.pc = .spin caller) (lock : caller.lock = some l)
    (new : l ∉ x.held) : Ok r { x with pc := caller.after, held := l :: x.held } := by
  have fits := ok.fits
  have masked := ok.masked
  rw [place] at fits masked
  have plain : Plain caller.after ∧ (∀ old caller', caller.after ≠ .pushOff old caller') ∧
      caller.after.Fits x.depth (l :: x.held) := by
    cases caller with
    | plain => cases lock
    | acquire l' => exact ⟨⟨nofun, nofun⟩, nofun, fits.1⟩
    | scan i =>
      obtain rfl : Lock.proc i = l := Option.some.inj lock
      have one : x.depth = 1 := fits.2.resolve_left id
      have fewer : x.held.length < x.depth := fits.1
      have none : x.held = [] := List.eq_nil_of_length_eq_zero (by omega)
      exact ⟨⟨nofun, nofun⟩, nofun, one, congrArg _ none⟩
  exact ⟨ok.noff, ok.off, fun deep _ => masked deep trivial, fun old caller' there => absurd there (plain.2.1 old caller'),
    fun intena there => absurd there (plain.1.resume intena), plain.2.2, ok.frames, List.nodup_cons.mpr ⟨new, ok.nodup⟩⟩

theorem Ok.released {scanned : Option Slot} {l : Lock} (ok : Ok r x) (held : l ∈ x.held) (few : x.held.length ≤ x.depth)
    (last : scanned = none ∨ x.depth = 1) (masked : scanned = none → x.pc.Masked) :
    Ok r { x with pc := .popOff scanned, held := x.held.erase l } := by
  have length := List.length_erase_of_mem held
  have some : 0 < x.held.length := List.length_pos_of_mem held
  have fewer : (x.held.erase l).length < x.depth := by omega
  refine ⟨ok.noff, ok.off, fun deep place => ok.masked deep ?_, nofun, nofun, ⟨fewer, last⟩, ok.frames, ok.nodup.erase l⟩
  cases scanned with
  | none => exact masked rfl
  | some i => exact absurd place id

end

end Xv6.Interrupts
