import Xv6.Fs.Itable

namespace Xv6.Itable
open Lib Function

/-! ## Locks and references -/

def about : Pc → Option Entry
  | .ilockValid e | .ilockSet e | .iputTrunc e | .iputTruncUpdate e | .iputType e | .iputUpdate e
  | .iputInvalid e | .iputRelease e => some e
  | _ => none

def needs : Pc → Option Entry
  | .ilockAcquire e | .iputDrop e => some e
  | _ => none

section
variable {ι : Type}

structure Refs (s : State ι) : Prop where
  counts : ∀ e, (s.table e).ref = (s.refs.map Prod.snd).count e
  unique : ∀ e e', 0 < (s.table e).ref → 0 < (s.table e').ref → (s.table e').dev = (s.table e).dev →
    (s.table e').inum = (s.table e).inum → e' = e
  locked : ∀ p e, s.lock e = some p → (p, e) ∈ s.refs
  holding : ∀ p e, about (s.pc p) = some e → s.lock e = some p
  needing : ∀ p e, needs (s.pc p) = some e → (p, e) ∈ s.refs
  dropping : ∀ p e, s.pc p = .iputDrop e → s.lock e ≠ some p

structure Fits (s : State ι) (p : ι) (k : Pc) : Prop where
  holding : ∀ e, about k = some e → s.lock e = some p
  needing : ∀ e, needs k = some e → (p, e) ∈ s.refs
  dropping : ∀ e, k = .iputDrop e → s.lock e ≠ some p

theorem fits_user (s : State ι) (p : ι) : Fits s p .user := ⟨nofun, nofun, nofun⟩

structure Stays (s t : State ι) (p : ι) : Prop where
  others : ∀ q, q ≠ p → t.pc q = s.pc q
  own : t.pc p = s.pc p ∨ t.pc p = .user

variable {s t : State ι} {p q : ι} {e : Entry} {v : Inode} {k : Pc}

theorem Fits.mono (fits : Fits s p k) (lock : t.lock = s.lock) (kept : ∀ e, (p, e) ∈ s.refs → (p, e) ∈ t.refs) :
    Fits t p k := by
  refine ⟨?_, fun e found => kept e (fits.needing e found), ?_⟩
  · rw [lock]
    exact fits.holding
  · rw [lock]
    exact fits.dropping

theorem Refs.fits (refs : Refs s) (q : ι) : Fits s q (s.pc q) := ⟨refs.holding q, refs.needing q, refs.dropping q⟩

theorem Refs.of_fits (counts : ∀ e, (t.table e).ref = (t.refs.map Prod.snd).count e)
    (unique : ∀ e e', 0 < (t.table e).ref → 0 < (t.table e').ref → (t.table e').dev = (t.table e).dev →
      (t.table e').inum = (t.table e).inum → e' = e) (locked : ∀ p e, t.lock e = some p → (p, e) ∈ t.refs)
    (fits : ∀ q, Fits t q (t.pc q)) : Refs t :=
  ⟨counts, unique, locked, fun q => (fits q).holding, fun q => (fits q).needing, fun q => (fits q).dropping⟩

theorem Refs.stays (refs : Refs s) (stays : Stays s t p) (q : ι) : Fits s q (t.pc q) := by
  by_cases own : q = p
  · subst own
    rcases stays.own with same | user
    · rw [same]
      exact refs.fits q
    · rw [user]
      exact fits_user s q
  · rw [stays.others q own]
    exact refs.fits q

theorem Refs.positive (refs : Refs s) (member : (p, e) ∈ s.refs) : 0 < (s.table e).ref := by
  rw [refs.counts e]
  exact List.count_pos_iff.mpr (List.mem_map.mpr ⟨_, member, rfl⟩)

theorem Refs.free (refs : Refs s) (zero : (s.table e).ref = 0) : s.lock e = none := by
  cases held : s.lock e with
  | none => rfl
  | some p =>
    have := refs.positive (refs.locked p e held)
    omega

structure SameIds (s t : State ι) : Prop where
  dev : ∀ e, (t.table e).dev = (s.table e).dev
  inum : ∀ e, (t.table e).inum = (s.table e).inum
  ref : ∀ e, (t.table e).ref = (s.table e).ref

theorem SameIds.of_eq (table : t.table = s.table) : SameIds s t := by
  constructor <;> intro e <;> rw [table]

theorem SameIds.update (table : t.table = update s.table e v) (dev : v.dev = (s.table e).dev)
    (inum : v.inum = (s.table e).inum) (ref : v.ref = (s.table e).ref) : SameIds s t := by
  constructor
  · intro e'
    rw [table]
    by_cases same : e' = e
    · subst same
      simp [dev]
    · simp [same]
  · intro e'
    rw [table]
    by_cases same : e' = e
    · subst same
      simp [inum]
    · simp [same]
  · intro e'
    rw [table]
    by_cases same : e' = e
    · subst same
      simp [ref]
    · simp [same]

theorem Refs.quiet (refs : Refs s) (ids : SameIds s t) (lock : t.lock = s.lock) (same : t.refs = s.refs)
    (pcs : ∀ q, q ≠ p → t.pc q = s.pc q) (fits : Fits s p (t.pc p)) : Refs t := by
  refine .of_fits ?_ ?_ ?_ fun q => ?_
  · intro e
    rw [ids.ref, same]
    exact refs.counts e
  · grind [ids.ref, ids.dev, ids.inum, refs.unique]
  · rw [lock, same]
    exact refs.locked
  · have place : Fits s q (t.pc q) := by
      by_cases own : q = p
      · subst own
        exact fits
      · rw [pcs q own]
        exact refs.fits q
    exact place.mono lock fun e old => same ▸ old

theorem Refs.get (refs : Refs s) (table : t.table = update s.table e v)
    (lock : t.lock = s.lock) (new : t.refs = (q, e) :: s.refs) (ref : v.ref = (s.table e).ref + 1)
    (fresh : ∀ e', e' ≠ e → 0 < (s.table e').ref → ¬ ((s.table e').dev = v.dev ∧ (s.table e').inum = v.inum))
    (stays : Stays s t p) : Refs t := by
  refine .of_fits ?_ ?_ ?_ fun r => (refs.stays stays r).mono lock fun e' old => ?_
  · intro e'
    rw [table, new, List.map_cons]
    by_cases same : e' = e
    · grind [refs.counts]
    · rw [update_of_ne same, List.count_cons_of_ne (Ne.symm same), refs.counts]
  · intro e₁ e₂
    rw [table]
    by_cases first : e₁ = e
    · grind
    · grind [refs.unique]
  · grind [refs.locked]
  · rw [new]
    exact List.mem_cons_of_mem _ old

structure Released (s t : State ι) (p : ι) (e : Entry) : Prop where
  others : ∀ q e', (q, e') ≠ (p, e) → (q, e') ∈ s.refs → (q, e') ∈ t.refs
  locked : s.lock e = some p → (p, e) ∈ t.refs
  lock : t.lock = s.lock
  home : t.pc p = .user

theorem Released.keeps (released : Released s t p e) (refs : Refs s) (stays : Stays s t p) :
    (∀ q e', t.lock e' = some q → (q, e') ∈ t.refs) ∧ ∀ q, Fits t q (t.pc q) := by
  refine ⟨?_, fun q => ?_⟩
  · grind [released.lock, released.locked, released.others, refs.locked]
  · by_cases own : q = p
    · rw [own, released.home]
      exact fits_user t p
    · refine (refs.stays stays q).mono released.lock fun e' => released.others q e' fun same => ?_
      exact own (Prod.mk.inj same).1

theorem Stays.of_user (place : s.pc p = .user) (same : t.pc = s.pc) : Stays s t p ∧ t.pc p = .user := by
  rw [same]
  exact ⟨⟨fun q _ => by rw [same], .inl (by rw [same])⟩, place⟩

/-! ## Copies and the buffered inodes -/

inductive Phase where
  | idle
  | read
  | used
  | freeing
  | freed
  | unset

def phase : Pc → Phase
  | .ilockValid _ => .idle
  | .ilockSet _ => .read
  | .iputTrunc _ | .iputTruncUpdate _ | .iputType _ => .freeing
  | .iputUpdate _ | .iputInvalid _ => .freed
  | .iputRelease _ => .unset
  | _ => .used

def stage (s : State ι) (e : Entry) : Phase :=
  match s.lock e with
  | none => .idle
  | some p => if about (s.pc p) = some e then phase (s.pc p) else .used

def Agree (v : Inode) (d : Dinode) (dirty : Bool) : Phase → Prop
  | .idle => dirty = false ∧ (v.valid → v.copy = d ∧ d.type ≠ 0)
  | .read => dirty = false ∧ (v.copy.type ≠ 0 → v.copy = d)
  | .used => v.valid ∧ v.copy.type = d.type ∧ d.type ≠ 0 ∧ (dirty = false → v.copy = d)
  | .freeing => dirty = false ∧ v.valid ∧ v.copy.type = d.type ∧ d.type ≠ 0
  | .freed => dirty = false
  | .unset => dirty = false ∧ v.valid = false

theorem Agree.reallocated {d d' : Dinode} {dirty : Bool} {k : Phase} (agree : Agree v d dirty k)
    (free : d.type = 0) : Agree v d' dirty k := by
  cases k with
  | idle => exact ⟨agree.1, fun valid => absurd free (agree.2 valid).2⟩
  | read => exact ⟨agree.1, fun type => absurd (agree.2 type ▸ free) type⟩
  | used => exact absurd free agree.2.2.1
  | freeing => exact absurd free agree.2.2.2
  | freed => exact agree
  | unset => exact agree

structure Entries (s : State ι) : Prop where
  clean : ∀ e, s.lock e = none → s.dirty e = false
  agree : ∀ e, 0 < (s.table e).ref → Agree (s.table e) (s.dinode e) (s.dirty e) (stage s e)

structure Acts (s t : State ι) (p : ι) (e : Entry) : Prop where
  table : ∀ e', e' ≠ e → t.table e' = s.table e'
  lock : ∀ e', e' ≠ e → t.lock e' = s.lock e'
  dirty : ∀ e', e' ≠ e → t.dirty e' = s.dirty e'
  disk : ∀ e', e' ≠ e → 0 < (s.table e').ref → t.dinode e' = s.dinode e'
  pcs : ∀ q, q ≠ p → t.pc q = s.pc q
  before : ∀ e', e' ≠ e → about (s.pc p) ≠ some e'
  after : ∀ e', e' ≠ e → about (t.pc p) ≠ some e'

theorem Acts.stage {e' : Entry} (acts : Acts s t p e) (other : e' ≠ e) : stage t e' = stage s e' := by
  unfold Itable.stage
  rw [acts.lock e' other]
  cases s.lock e' with
  | none => rfl
  | some q =>
    by_cases own : q = p
    · grind [acts.before, acts.after]
    · simp only [acts.pcs q own]

theorem Entries.acts (entries : Entries s) (acts : Acts s t p e) (clean : t.lock e = none → t.dirty e = false)
    (agree : 0 < (t.table e).ref → Agree (t.table e) (t.dinode e) (t.dirty e) (stage t e)) : Entries t := by
  constructor
  · grind [acts.dirty, entries.clean, acts.lock]
  · intro e' positive
    by_cases same : e' = e
    · subst same
      exact agree positive
    · rw [acts.table e' same] at positive
      rw [acts.table e' same, acts.disk e' same positive, acts.dirty e' same, acts.stage same]
      exact entries.agree e' positive

theorem stage_held (held : s.lock e = some p) :
    stage s e = if about (s.pc p) = some e then phase (s.pc p) else .used := by
  rw [stage, held]

theorem stage_about (refs : Refs s) (here : about (s.pc p) = some e) : stage s e = phase (s.pc p) := by
  rw [stage_held (refs.holding p e here), if_pos here]

theorem stage_user (held : s.lock e = some p) (place : s.pc p = .user) : stage s e = .used := by
  rw [stage_held held, place]
  rfl

theorem stage_free (free : s.lock e = none) : stage s e = .idle := by
  rw [stage, free]

/-! ## Taking and giving up -/

variable [DecidableEq ι]

theorem Refs.acquire (refs : Refs s) (free : s.lock e = none) (member : (p, e) ∈ s.refs)
    (fits : Fits (s.setLock e (some p)) p k) : Refs ((s.setLock e (some p)).goto p k) := by
  have kept (q : ι) (e' : Entry) (held : s.lock e' = some q) : update s.lock e (some p) e' = some q := by
    grind
  have place (q : ι) : Fits (s.setLock e (some p)) q (((s.setLock e (some p)).goto p k).pc q) := by
    by_cases own : q = p
    · subst own
      simpa [State.goto] using fits
    · rw [show State.pc _ q = s.pc q from update_of_ne own ..]
      refine ⟨fun e' found => kept q e' (refs.holding q e' found), refs.needing q, ?_⟩
      intro e' found
      change update s.lock e (some p) e' ≠ some q
      by_cases same : e' = e
      · subst same
        simpa using Ne.symm own
      · rw [update_of_ne same]
        exact refs.dropping q e' found
  refine .of_fits refs.counts refs.unique (fun q e' held => ?_) fun q => (place q).mono rfl fun _ => id
  by_cases same : e' = e
  · subst same
    simp only [State.goto, State.setLock, update_self, Option.some.injEq] at held
    subst held
    exact member
  · exact refs.locked q e' (by simpa [State.goto, State.setLock, same] using held)

theorem Refs.release (refs : Refs s) (held : s.lock e = some p) (pcs : ∀ q, q ≠ p → t.pc q = s.pc q)
    (here : t.pc p = k) (table : t.table = s.table) (lock : t.lock = update s.lock e none) (same : t.refs = s.refs)
    (place : Fits (s.setLock e none) p k) : Refs t := by
  have ids : SameIds s t := .of_eq table
  have places (q : ι) : Fits (s.setLock e none) q (t.pc q) := by
    by_cases own : q = p
    · subst own
      rwa [here]
    · rw [pcs q own]
      refine ⟨?_, refs.needing q, ?_⟩
      · intro e' found
        have mine := refs.holding q e' found
        have other : e' ≠ e := by grind
        change update s.lock e none e' = some q
        rw [update_of_ne other, mine]
      · intro e' found
        change update s.lock e none e' ≠ some q
        by_cases equal : e' = e
        · subst equal
          simp
        · rw [update_of_ne equal]
          exact refs.dropping q e' found
  refine .of_fits ?_ ?_ ?_ fun q => (places q).mono lock fun e' old => same ▸ old
  · intro e'
    rw [ids.ref, same]
    exact refs.counts e'
  · intro e₁ e₂
    rw [ids.ref, ids.ref, ids.dev, ids.dev, ids.inum, ids.inum]
    exact refs.unique e₁ e₂
  · intro q e' mine
    rw [same]
    rw [lock] at mine
    by_cases equal : e' = e
    · subst equal
      simp at mine
    · exact refs.locked q e' (by simpa [equal] using mine)

theorem count_erase {refs : List (ι × Entry)} (member : (p, e) ∈ refs) (e' : Entry) :
    (refs.map Prod.snd).count e' = ((refs.erase (p, e)).map Prod.snd).count e' + if e' = e then 1 else 0 := by
  rw [((List.perm_cons_erase member).map Prod.snd).count_eq, List.map_cons]
  by_cases same : e' = e
  · subst same
    simp
  · simp [same, Ne.symm same]

theorem Stays.goto_user (s : State ι) (p : ι) (u : State ι) (same : u.pc = s.pc) :
    Stays s (u.goto p .user) p ∧ (u.goto p .user).pc p = .user := by
  have here : (u.goto p .user).pc p = .user := update_self ..
  refine ⟨⟨?_, .inr here⟩, here⟩
  intro q other
  rw [show (u.goto p .user).pc q = u.pc q from update_of_ne other .., same]

theorem Refs.drop (refs : Refs s) (member : (p, e) ∈ s.refs) (released : Released s t p e) (stays : Stays s t p)
    (table : t.table = update s.table e { s.table e with ref := (s.table e).ref - 1 })
    (erased : t.refs = s.refs.erase (p, e)) : Refs t := by
  obtain ⟨locked, fits⟩ := released.keeps refs stays
  refine .of_fits ?_ ?_ locked fits
  · intro e'
    have count := refs.counts e'
    rw [count_erase member e'] at count
    rw [table, erased]
    by_cases same : e' = e
    · grind
    · simpa [same] using count
  · intro e₁ e₂
    have before (x : Entry) : (t.table x).dev = (s.table x).dev ∧ (t.table x).inum = (s.table x).inum ∧
        (0 < (t.table x).ref → 0 < (s.table x).ref) := by
      rw [table]
      by_cases same : x = e
      · grind
      · simp [same]
    rw [(before e₁).1, (before e₁).2.1, (before e₂).1, (before e₂).2.1]
    exact fun first second => refs.unique e₁ e₂ ((before e₁).2.2 first) ((before e₂).2.2 second)

theorem Refs.pass (refs : Refs s) (member : (p, e) ∈ s.refs) (released : Released s t p e) (stays : Stays s t p)
    (table : t.table = s.table) (moved : t.refs = (q, e) :: s.refs.erase (p, e)) : Refs t := by
  obtain ⟨locked, fits⟩ := released.keeps refs stays
  refine .of_fits ?_ ?_ locked fits
  · intro e'
    rw [table, moved, refs.counts, count_erase member e', List.map_cons]
    by_cases same : e' = e
    · subst same
      simp
    · simp [same, Ne.symm same]
  · rw [table]
    exact refs.unique

end

end Xv6.Itable
