import Xv6.Fs.LockOrder

namespace Xv6.Fs
open Lib Function

/-! ## What a step leaves -/

structure Near (s t : State) : Prop where
  types : ∀ inum, (t.disk inum).type = (s.disk inum).type
  inum : ∀ e, 0 < (s.table e).ref → (t.table e).inum = (s.table e).inum

structure Same (s t : State) (e : Entry) : Prop where
  lock : t.lock e = s.lock e
  valid : (t.table e).valid = (s.table e).valid
  copy : (t.table e).copy = (s.table e).copy
  slots : t.slots (s.table e).inum = s.slots (s.table e).inum

def Know.next (k : Know) (refs : (Entry → Int) → Entry → Int) (locks : Set Entry → Set Entry)
    (keep learn : Fact → Prop) : Know :=
  ⟨refs k.refs, k.cwd, locks k.locks, fun F => k.knows F ∧ keep F ∨ learn F⟩

abbrev Books (t : State) (held : Slot → Held × Stage) (p : Slot) (h' : Held) : Prop :=
  Ledger t (update (fun q => (held q).1) p h')

def Follow (t : State) (held : Slot → Held × Stage) (p : Slot) (h' : Held) (post : Know → Prop) : Prop :=
  ∃ a' k', Tracked a' t (update held p (h', .idle k')) ∧ post k'

structure Stays (h h' : Held) : Prop where
  refs : h'.refs = h.refs
  own : h'.own = h.own
  cwd : h'.proc.cwd = h.proc.cwd

structure Reckoned (a : Ages) (t : State) (p : Slot) (h h' : Held) (k : Know) (refs : (Entry → Int) → Entry → Int)
    (keep learn : Fact → Prop) : Prop where
  counts : h'.refs = refs k.refs
  cwd : h'.proc.cwd = h.proc.cwd
  nonneg : ∀ e, 0 ≤ refs k.refs e
  locked : ∀ e ∈ k.locks, (k.next refs id keep learn).Protects e
  guard : ∀ F, k.knows F → keep F → (k.next refs id keep learn).Protects F.entry
  learns : ∀ F, learn F → (k.next refs id keep learn).Protects F.entry ∧ F.Holds a t p h'

structure Harmless (held : Slot → Held × Stage) (p : Slot) (learn : Fact → Prop) : Prop where
  modest : ∀ q e, q ≠ p → (held q).2.know.knows (.sole e) → (∀ type, ¬ learn (.type e type)) ∧ ∀ n, ¬ learn (.next e n)
  plain : ∀ e, ¬ learn (.sole e)

section
variable {a a' : Ages} {s t : State} {held : Slot → Held × Stage} {p q : Slot} {h h' : Held} {k k' : Know} {e : Entry}
  {F : Fact} {stage : Stage}
  {refs : (Entry → Int) → Entry → Int} {locks : Set Entry → Set Entry} {keep learn : Fact → Prop}

theorem Stage.know_idle (here : stage = .idle k) : stage.know = k := by rw [here, Stage.know]

theorem Follow.mono {post post' : Know → Prop} (follow : Follow t held p h' post) (enough : ∀ k', post k' → post' k') :
    Follow t held p h' post' := by
  obtain ⟨a', k', after, done⟩ := follow
  exact ⟨a', k', after, enough k' done⟩

theorem harmless_none : Harmless held p fun _ => False := ⟨fun _ _ _ _ => ⟨fun _ => id, fun _ => id⟩, fun _ => id⟩

theorem Know.to_next : k.To (k.next refs locks keep learn) refs locks keep learn :=
  ⟨rfl, rfl, rfl, fun _ known keeps => .inl ⟨known, keeps⟩, fun _ => .inr⟩

theorem Near.kind (near : Near s t) (used : 0 < (s.table e).ref) : t.kind e = s.kind e := by
  rw [State.kind, near.inum e used, near.types]
  rfl

theorem State.Faithful.across (faithful : s.Faithful e) (kind : t.kind e = s.kind e)
    (copy : (t.table e).copy.type = (s.table e).copy.type) : t.Faithful e := by
  rw [State.Faithful, kind, copy]
  exact faithful

theorem State.Bare.across (bare : s.Bare e) (inum : (t.table e).inum = (s.table e).inum) (same : Same s t e) : t.Bare e := by
  intro i
  rw [inum, same.slots]
  exact bare i

theorem Near.faithful (near : Near s t) (used : 0 < (s.table e).ref) (copy : (t.table e).copy.type = (s.table e).copy.type)
    (faithful : s.Faithful e) : t.Faithful e :=
  faithful.across (near.kind used) copy

theorem Fact.Holds.across (holds : F.Holds a s p h) (inum : (t.table F.entry).inum = (s.table F.entry).inum)
    (kind : t.kind F.entry = s.kind F.entry)
    (ages : ∀ m n, (s.disk m).type = T_DIR → ((s.disk n).type = T_DIR → a.birth m < a.birth n) →
      (t.disk n).type = T_DIR → a'.birth m < a'.birth n) (same : ¬ F.Soft → Same s t F.entry)
    (file : ∀ f e, F = .file f e → Fact.Holds a t p h' (.file f e)) : F.Holds a' t p h' := by
  cases F with
  | type e n => exact ⟨holds.1, kind.trans holds.2⟩
  | inum e n => exact inum.trans holds
  | next e n =>
    refine ⟨kind.trans holds.1, ?_⟩
    rw [show (t.table e).inum = (s.table e).inum from inum]
    exact ages _ n holds.1 holds.2
  | sound e =>
    have same := same id
    refine ⟨same.lock.trans holds.1, fun valid => ?_⟩
    exact (holds.2 (same.valid.symm.trans valid)).across kind (congrArg Dinode.type same.copy)
  | full e =>
    have same := same id
    exact ⟨same.lock.trans holds.1, same.valid.trans holds.2.1, holds.2.2.across kind (congrArg Dinode.type same.copy)⟩
  | empty e =>
    have same := same id
    exact ⟨same.lock.trans holds.1, holds.2.across inum same⟩
  | sole e =>
    have same := same id
    refine ⟨same.lock.trans holds.1, (congrArg Dinode.nlink same.copy).trans holds.2.1, fun free => ?_⟩
    exact holds.2.2 (kind.symm.trans free)
  | gone e =>
    have same := same id
    exact ⟨same.lock.trans holds.1, (congrArg Dinode.type same.copy).trans holds.2.1, holds.2.2.across inum same⟩
  | void e =>
    have same := same id
    exact ⟨same.lock.trans holds.1, same.valid.trans holds.2⟩
  | file f e => exact file f e rfl

theorem Fact.Holds.frame (holds : F.Holds a s p h) (near : Near s t) (used : 0 < (s.table F.entry).ref)
    (same : ¬ F.Soft → Same s t F.entry) (file : ∀ f e, F = .file f e → Fact.Holds a t p h' (.file f e)) :
    F.Holds a t p h' := by
  refine holds.across (near.inum _ used) (near.kind used) (fun m n _ younger => ?_) same file
  rw [near.types]
  exact younger

theorem Fact.Holds.lock (holds : F.Holds a s p h) (hard : ¬ F.Soft) : s.lock F.entry = some p := by
  cases F with
  | sound e | full e | empty e | sole e | gone e | void e => exact holds.1
  | type e kind | inum e n | next e n | file f e => exact absurd trivial hard

/-! ## One process moves -/

theorem Tracked.step (stage : Stage) (tracked : Tracked a s held) (ledger : Books t held p h') (tables : Tables t)
    (ordered : Ordered a' t) (opened : Opened t) (mind : Mind a' t p h' stage.know)
    (made : ∀ k inum type, stage = .made k inum type → type ≠ 0 ∧ (t.disk inum).type = type)
    (sole : ∀ e, stage.know.knows (.sole e) → ∀ q, q ≠ p → Ignorant t e (held q).2)
    (minds : ∀ q, q ≠ p → Mind a' t q (held q).1 (held q).2.know)
    (mades : ∀ q k inum type, q ≠ p → (held q).2 = .made k inum type → (t.disk inum).type = (s.disk inum).type)
    (soles : ∀ q e, q ≠ p → (held q).2.know.knows (.sole e) → (t.table e).inum = (s.table e).inum ∧ Ignorant t e stage)
    (files : ∀ q e, (update held p (h', stage) q).2.know.knows (.sole e) →
      ∀ f, (t.file f).OfInode → (t.file f).ip ≠ e) : Tracked a' t (update held p (h', stage)) := by
  have first : (fun q => (update held p (h', stage) q).1) = update (fun q => (held q).1) p h' := by grind
  refine ⟨?_, tables, ordered, opened, fun q => ?_, fun q => ?_, fun q e known => ⟨files q e known, fun r other => ?_⟩⟩
  · rw [first]
    exact ledger
  · grind
  · by_cases own : q = p
    · subst own
      rw [update_self]
      exact made
    · grind [tracked.made]
  · by_cases own : q = p
    · grind
    · rw [update_of_ne own] at known
      obtain ⟨inum, ignorant⟩ := soles q e own known
      by_cases mover : r = p
      · subst mover
        rw [update_self]
        exact ignorant
      · rw [update_of_ne mover]
        have before := (tracked.sole q e known).2 r other
        refine ⟨before.type, before.next, ?_⟩
        rw [inum]
        exact before.made

theorem Tracked.sole_files (tracked : Tracked a s held)
    (fewer : ∀ e, stage.know.knows (.sole e) → (held p).2.know.knows (.sole e)) (q : Slot) (e : Entry)
    (known : (update held p (h', stage) q).2.know.knows (.sole e)) : ∀ f, (s.file f).OfInode → (s.file f).ip ≠ e := by
  by_cases own : q = p
  · subst own
    rw [update_self] at known
    exact (tracked.sole q e (fewer e known)).1
  · rw [update_of_ne own] at known
    exact (tracked.sole q e known).1

theorem Mind.next (mind : Mind a s p h k) (counts : h'.refs = refs k.refs) (cwd : h'.proc.cwd = h.proc.cwd)
    (nonneg : ∀ e, 0 ≤ refs k.refs e) (lock : ∀ e, e ∈ locks k.locks ↔ t.lock e = some p)
    (locked : ∀ e ∈ locks k.locks, (k.next refs locks keep learn).Protects e)
    (keeps : ∀ F, k.knows F → keep F → (k.next refs locks keep learn).Protects F.entry ∧ F.Holds a' t p h')
    (learns : ∀ F, learn F → (k.next refs locks keep learn).Protects F.entry ∧ F.Holds a' t p h') :
    Mind a' t p h' (k.next refs locks keep learn) := by
  refine ⟨counts.symm, mind.cwd.trans cwd.symm, nonneg, lock, locked, ?_, ?_⟩
  · rintro F (⟨known, keeping⟩ | learning)
    · exact (keeps F known keeping).1
    · exact (learns F learning).1
  · rintro F (⟨known, keeping⟩ | learning)
    · exact (keeps F known keeping).2
    · exact (learns F learning).2

theorem Mind.away (mind : Mind a s q h k) (lock : ∀ e, t.lock e = some q ↔ s.lock e = some q)
    (holds : ∀ F, k.knows F → F.Holds a' t q h) : Mind a' t q h k :=
  ⟨mind.refs, mind.cwd, mind.nonneg, fun e => (mind.locks e).trans (lock e).symm, mind.locked, mind.guarded, holds⟩

theorem Tracked.away (tracked : Tracked a s held) (near : Near s t) (lock : ∀ e, t.lock e = some q ↔ s.lock e = some q)
    (same : ∀ e, s.lock e = some q → 0 < (s.table e).ref → Same s t e)
    (file : ∀ f, (s.file f).OfInode → 1 ≤ (held q).1.own f → (t.file f).OfInode ∧ (t.file f).ip = (s.file f).ip) :
    Mind a t q (held q).1 (held q).2.know := by
  refine (tracked.mind q).away lock fun F known => ?_
  have holds := (tracked.mind q).holds F known
  have used := tracked.used ((tracked.mind q).guarded F known)
  refine holds.frame near used (fun hard => same _ (holds.lock hard) used) ?_
  rintro f e rfl
  obtain ⟨own, stands, ip⟩ := holds
  obtain ⟨stands', ip'⟩ := file f stands own
  exact ⟨own, stands', ip'.trans ip⟩

theorem Tracked.opened_of_files (tracked : Tracked a s held) (near : Near s t) (file : t.file = s.file) : Opened t := by
  intro f stands
  rw [file] at stands ⊢
  rw [near.kind (tracked.file_used stands)]
  exact tracked.opened f stands

section
variable (tracked : Tracked a s held) (here : (held p).2.know = k)
include tracked here

theorem Tracked.move (near : Near s t) (ledger : Books t held p h')
    (tables : Tables t) (ordered : Ordered a t) (opened : Opened t) (mind : Mind a t p h' (k.next refs locks keep learn))
    (lock : ∀ q e, q ≠ p → (t.lock e = some q ↔ s.lock e = some q))
    (same : ∀ q e, q ≠ p → s.lock e = some q → 0 < (s.table e).ref → Same s t e)
    (file : ∀ q f, q ≠ p → (s.file f).OfInode → 1 ≤ (held q).1.own f → (t.file f).OfInode ∧ (t.file f).ip = (s.file f).ip)
    (filed : ∀ f, (t.file f).OfInode → (s.file f).OfInode ∧ (t.file f).ip = (s.file f).ip ∨
      ¬ keep (.sole (t.file f).ip) ∧ ∃ type, k.knows (.type (t.file f).ip type))
    (modest : ∀ q e, q ≠ p → (held q).2.know.knows (.sole e) → (∀ type, ¬ learn (.type e type)) ∧ ∀ n, ¬ learn (.next e n))
    (alone : ∀ e, learn (.sole e) → 0 < (s.table e).ref ∧ (∀ f, (t.file f).OfInode → (t.file f).ip ≠ e) ∧
      ∀ q, q ≠ p → Ignorant s e (held q).2) : Follow t held p h' fun k' => k.To k' refs locks keep learn := by
  subst here
  have used {q : Slot} {e : Entry} (known : (held q).2.know.knows (.sole e)) : 0 < (s.table e).ref :=
    tracked.used ((tracked.mind q).guarded _ known)
  have ignorant {e : Entry} {stage : Stage} (used : 0 < (s.table e).ref) (before : Ignorant s e stage) :
      Ignorant t e stage := by
    refine ⟨before.type, before.next, ?_⟩
    rw [near.inum e used]
    exact before.made
  refine ⟨a, _, tracked.step (.idle _) ledger tables ordered opened mind nofun ?_ ?_ ?_ ?_ ?_, Know.to_next⟩
  · rintro e (⟨known, _⟩ | learning) q other
    · exact ignorant (used known) ((tracked.sole p e known).2 q other)
    · grind
  · exact fun q other => tracked.away near (lock q · other) (same q · other) (file q · other)
  · exact fun _ _ inum _ _ _ => near.types inum
  · intro q e other known
    have before := (tracked.sole q e known).2 p (Ne.symm other)
    have modest := modest q e other known
    refine ⟨near.inum e (used known), ⟨?_, ?_, nofun⟩⟩
    · rintro type (⟨old, _⟩ | new)
      · exact before.type type old
      · exact modest.1 type new
    · rintro n (⟨old, _⟩ | new)
      · exact before.next n old
      · exact modest.2 n new
  · intro q e known f stands equal
    by_cases own : q = p
    · subst own
      rw [update_self] at known
      rcases known with ⟨known, keeping⟩ | learning
      · grind [tracked.sole]
      · exact (alone e learning).2.1 f stands equal
    · rw [update_of_ne own] at known
      rcases filed f stands with ⟨before, ip⟩ | ⟨_, type, typed⟩
      · exact (tracked.sole q e known).1 f before (ip.symm.trans equal)
      · rw [equal] at typed
        exact ((tracked.sole q e known).2 p (Ne.symm own)).type type typed

end

/-! ### Steps on the accounts -/

structure Alike (s t : State) : Prop where
  disk : t.disk = s.disk
  slots : t.slots = s.slots
  lock : t.lock = s.lock
  inum : ∀ e, 0 < (s.table e).ref → (t.table e).inum = (s.table e).inum
  valid : ∀ e, 0 < (s.table e).ref → (t.table e).valid = (s.table e).valid
  copy : ∀ e, 0 < (s.table e).ref → (t.table e).copy = (s.table e).copy

theorem Alike.near (alike : Alike s t) : Near s t := ⟨fun inum => by rw [alike.disk], alike.inum⟩

theorem Alike.same (alike : Alike s t) (used : 0 < (s.table e).ref) : Same s t e :=
  ⟨congrFun alike.lock e, alike.valid e used, alike.copy e used, congrFun alike.slots _⟩

theorem Alike.ordered (alike : Alike s t) (ordered : Ordered a s) : Ordered a t := by
  refine ⟨?_, ?_, ?_⟩
  · rw [alike.disk, alike.slots]
    exact ordered.free
  · rw [alike.disk, alike.slots]
    exact ordered.small
  · rw [alike.disk, alike.slots]
    exact ordered.order

section
variable (tracked : Tracked a s held) (here : (held p).2.know = k)
include tracked here

theorem Tracked.alike (alike : Alike s t) (ledger : Books t held p h') (tables : Tables t) (opened : Opened t)
    (reckoned : Reckoned a t p (held p).1 h' k refs keep learn)
    (own : ∀ f e, k.knows (.file f e) → keep (.file f e) → Fact.Holds a t p h' (.file f e))
    (file : ∀ q f, q ≠ p → (s.file f).OfInode → 1 ≤ (held q).1.own f → (t.file f).OfInode ∧ (t.file f).ip = (s.file f).ip)
    (filed : ∀ f, (t.file f).OfInode → (s.file f).OfInode ∧ (t.file f).ip = (s.file f).ip ∨
      ¬ keep (.sole (t.file f).ip) ∧ ∃ type, k.knows (.type (t.file f).ip type)) (harmless : Harmless held p learn) :
    Follow t held p h' fun k' => k.To k' refs id keep learn := by
  have mind := tracked.mind p
  rw [here] at mind
  refine tracked.move here alike.near ledger tables (alike.ordered tracked.ordered) opened ?_ ?_ ?_ file filed harmless.modest ?_
  · refine mind.next reckoned.counts reckoned.cwd reckoned.nonneg ?_ reckoned.locked ?_ reckoned.learns
    · intro e
      rw [alike.lock]
      exact mind.locks e
    · intro F known keeping
      have used := tracked.used (here ▸ mind.guarded F known)
      refine ⟨reckoned.guard F known keeping, (mind.holds F known).frame alike.near used (fun _ => alike.same used) ?_⟩
      rintro f e rfl
      exact own f e known keeping
  · intro q e _
    rw [alike.lock]
  · exact fun q e _ _ used => alike.same used
  · exact fun e learning => absurd learning (harmless.plain e)

theorem Tracked.count (alike : Alike s t) (file : t.file = s.file) (own : h'.own = (held p).1.own)
    (ledger : Books t held p h') (tables : Tables t) (reckoned : Reckoned a t p (held p).1 h' k refs keep learn)
    (harmless : Harmless held p learn) : Follow t held p h' fun k' => k.To k' refs id keep learn := by
  refine tracked.alike here alike ledger tables (tracked.opened_of_files alike.near file) reckoned ?_ ?_ ?_ harmless
  · intro f e known _
    have holds := (tracked.mind p).holds (.file f e) (here ▸ known)
    refine ⟨?_, ?_⟩
    · rw [own]
      exact holds.1
    · rw [file]
      exact holds.2
  · intro q f _ stands _
    rw [file]
    exact ⟨stands, rfl⟩
  · grind

end

theorem Know.Protects.mono (protects : k.Protects e) (more : ∀ e, k.refs e ≤ k'.refs e)
    (files : ∀ f e, k.knows (.file f e) → k'.knows (.file f e)) : k'.Protects e := by
  rcases protects with refers | ⟨f, known⟩
  · exact .inl (Int.le_trans refers (more e))
  · exact .inr ⟨f, files f e known⟩

theorem Know.Protects.wider (protects : k.Protects e) : (k.next id id (fun _ => True) learn).Protects e :=
  protects.mono (fun _ => Int.le_refl _) fun _ _ known => .inl ⟨known, trivial⟩

/-! ### Steps on one entry -/

structure Local (s t : State) (p : Slot) (e : Entry) : Prop where
  types : ∀ inum, (t.disk inum).type = (s.disk inum).type
  table : ∀ e', e' ≠ e → t.table e' = s.table e'
  inum : (t.table e).inum = (s.table e).inum
  ref : (t.table e).ref = (s.table e).ref
  lock : ∀ e', e' ≠ e → t.lock e' = s.lock e'
  before : s.lock e = none ∨ s.lock e = some p
  after : t.lock e = none ∨ t.lock e = some p
  slots : ∀ inum, inum ≠ (s.table e).inum → t.slots inum = s.slots inum
  file : t.file = s.file
  ninodes : t.ninodes = s.ninodes

section

variable (moved : Local s t p e)

include moved

theorem Local.near : Near s t := by
  refine ⟨moved.types, fun e' _ => ?_⟩
  by_cases here : e' = e
  · rw [here, moved.inum]
  · rw [moved.table e' here]

theorem Local.ref_eq (e' : Entry) : (t.table e').ref = (s.table e').ref := by
  by_cases here : e' = e
  · rw [here, moved.ref]
  · rw [moved.table e' here]

theorem Local.same {e' : Entry} (tables : Tables s) (used : 0 < (s.table e).ref) (other : e' ≠ e)
    (used' : 0 < (s.table e').ref) : Same s t e' := by
  refine ⟨moved.lock e' other, by rw [moved.table e' other], by rw [moved.table e' other], moved.slots _ fun equal => ?_⟩
  exact other (tables.unique e' e used' used equal)

theorem Local.lock_other (other : q ≠ p) (e' : Entry) : t.lock e' = some q ↔ s.lock e' = some q := by
  by_cases here : e' = e
  · subst here
    have before : s.lock e' ≠ some q := by
      rcases moved.before with free | mine
      · simp [free]
      · simp [mine, Ne.symm other]
    have after : t.lock e' ≠ some q := by
      rcases moved.after with free | mine
      · simp [free]
      · simp [mine, Ne.symm other]
    exact iff_of_false after before
  · rw [moved.lock e' here]

theorem Local.tables (tables : Tables s)
    (faithful : t.lock e = none → (t.table e).valid = true → t.Faithful e) : Tables t := by
  have inum (e' : Entry) (used : 0 < (t.table e').ref) : (t.table e').inum = (s.table e').inum :=
    moved.near.inum e' (by rwa [moved.ref_eq] at used)
  refine ⟨?_, ?_, ?_, ?_⟩
  · grind [moved.ref_eq, tables.unique]
  · grind [moved.lock, moved.table, moved.near.faithful, tables.faithful]
  · intro e' used
    rw [inum e' used]
    rw [moved.ref_eq] at used
    exact tables.small e' used
  · rw [moved.ninodes]
    exact tables.ninodes

end

theorem Tracked.local (tracked : Tracked a s held) (here : (held p).2.know = k) (moved : Local s t p e)
    (used : 0 < (s.table e).ref) (ledger : Books t held p h') (stays : Stays (held p).1 h')
    (faithful : t.lock e = none → (t.table e).valid = true → t.Faithful e) (ordered : Ordered a t)
    (lock : ∀ e', e' ∈ locks k.locks ↔ t.lock e' = some p) (elsewhere : ∀ F, F.entry ≠ e → keep F)
    (still : (k.next id locks keep learn).Protects e)
    (hard : ∀ F, k.knows F → keep F → F.entry = e → ¬ F.Soft → F.Holds a t p h')
    (learns : ∀ F, learn F → F.entry = e ∧ ¬ F.Soft ∧ F.Holds a t p h')
    (alone : learn (.sole e) → (∀ f, (s.file f).OfInode → (s.file f).ip ≠ e) ∧ ∀ q, q ≠ p → Ignorant s e (held q).2) :
    Follow t held p h' fun k' => k.To k' id locks keep learn := by
  have mind := tracked.mind p
  rw [here] at mind
  have protects {e' : Entry} (before : k.Protects e') : (k.next id locks keep learn).Protects e' := by
    by_cases same : e' = e
    · rw [same]
      exact still
    · rcases before with refers | ⟨f, known⟩
      · exact .inl refers
      · exact .inr ⟨f, .inl ⟨known, elsewhere (.file f e') same⟩⟩
  refine tracked.move here moved.near ledger (moved.tables tracked.tables faithful) ordered
    (tracked.opened_of_files moved.near moved.file) ?_ ?_ ?_ ?_ ?_ ?_ ?_
  · refine mind.next (stays.refs.trans mind.refs.symm) stays.cwd mind.nonneg lock ?_ ?_ ?_
    · grind [mind.locked, mind.locks, moved.lock]
    · intro F known keeping
      have used' := tracked.used (here ▸ mind.guarded F known)
      refine ⟨protects (mind.guarded F known), ?_⟩
      have file (f : FileId) (e' : Entry) (file : F = .file f e') : Fact.Holds a t p h' (.file f e') := by
        have holds := mind.holds F known
        rw [file] at holds
        refine ⟨?_, ?_⟩
        · rw [stays.own]
          exact holds.1
        · rw [moved.file]
          exact holds.2
      by_cases soft : F.Soft
      · exact (mind.holds F known).frame moved.near used' (fun hard => absurd soft hard) file
      · by_cases same : F.entry = e
        · exact hard F known keeping same soft
        · exact (mind.holds F known).frame moved.near used' (fun _ => moved.same tracked.tables used same used') file
    · grind
  · exact fun q e' other => moved.lock_other other e'
  · intro q e' other locked used'
    refine moved.same tracked.tables used ?_ used'
    rintro rfl
    rcases moved.before with free | mine
    · rw [free] at locked
      cases locked
    · grind
  · grind [moved.file]
  · grind [moved.file]
  · intro q e' _ _
    exact ⟨fun type learning => (learns _ learning).2.1 trivial, fun n learning => (learns _ learning).2.1 trivial⟩
  · intro e' learning
    obtain rfl : e' = e := (learns _ learning).1
    rw [moved.file]
    exact ⟨used, alone learning⟩

end

end Xv6.Fs
