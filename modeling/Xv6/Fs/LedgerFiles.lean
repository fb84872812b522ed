import Xv6.Fs.Ledger

namespace Xv6.Fs
open Lib Function

attribute [local simp] Held.add pipeEnd State.setPipe

section
variable {s t : State} {held : Slot → Held} {p q : Slot} {h : Held} {f : FileId} {v : File} {page : Page}

/-! ## Files and pipes in the accounts -/

theorem Ledger.runs (ledger : Ledger s held) (runs : (held p).proc.status = .runnable) : (s.proc p).status = .runnable := by
  rw [← ledger.procs.same p, runs]

theorem Ledger.changeFile (ledger : Ledger s held) (runs : (held p).proc.status = .runnable) (proc : h.proc = (held p).proc)
    (child : h.child = (held p).child) (bal : h.bal = (held p).bal + (fileBalance (s.file f) - fileBalance v))
    (ends : ∀ x, 0 ≤ h.ends x) (files : Files (s.setFile f v) (update held p h)) :
    Ledger (s.setFile f v) (update held p h) := by
  refine ⟨?_, files, ledger.procs.keep rfl proc child (ledger.runs runs), ⟨ledger.pipes.counts, ledger.pipes.live⟩⟩
  refine ledger.balanced.adjust (f := f) rfl rfl ?_ ?_ ends
  · rw [show stateBalance (s.setFile f v) = stateBalance s from rfl, bal]
    abel
  · rw [Held.locks, Held.locks, bal]
    have none (w : File) : (fileBalance w).2.2.1 = 0 := by
      unfold fileBalance
      cases w.type <;> rfl
    simp [none]

theorem fileBalance_none (closed : v.type = .none) : fileBalance v = 0 := by
  simp [fileBalance, closed]

theorem Files.unowned (files : Files s held) (zero : (s.file f).ref = 0) (q : Slot) : (held q).own f = 0 := by
  have part := le_sum (f := fun r => (held r).own f) (fun r => files.nonneg r f) q
  have := files.nonneg q f
  have := files.own f
  omega

theorem Ledger.filealloc (ledger : Ledger s held) (runs : (held p).proc.status = .runnable) (zero : (s.file f).ref = 0) :
    (held p).own f = 0 ∧ f ∉ (held p).fresh ∧ Ledger (s.setFile f { s.file f with ref := 1 })
      (update held p { held p with own := (held p).own + Pi.single f 1, fresh := f :: (held p).fresh }) := by
  have none := ledger.files.closed f zero
  have missing (q : Slot) : f ∉ (held q).fresh := by
    intro member
    have := (ledger.files.fresh q f member).2.1
    omega
  have unowned := ledger.files.unowned zero p
  refine ⟨unowned, missing p, ledger.changeFile runs rfl rfl ?_ (ledger.balanced.ends p) ?_⟩
  · simp [fileBalance]
  · refine ledger.files.change (v := { s.file f with ref := 1 }) rfl ?_ ?_ ?_ (fun q _ => missing q) ?_
    · simp [zero]
    · simp [unowned]
    · exact fun _ => none
    · intro f' member
      rcases List.mem_cons.mp member with rfl | old
      · exact .inr ⟨rfl, none, rfl, by simp [unowned]⟩
      · grind

theorem Ledger.filedup (ledger : Ledger s held) (runs : (held p).proc.status = .runnable) (mine : 1 ≤ (held p).own f)
    (old : f ∉ (held p).fresh) (positive : ¬ (s.file f).ref < 1) :
    Ledger (s.setFile f { s.file f with ref := (s.file f).ref + 1 })
      (update held p { held p with own := (held p).own + Pi.single f 1 }) := by
  refine ledger.changeFile runs rfl rfl ?_ (ledger.balanced.ends p) ?_
  · simp [fileBalance]
  · refine ledger.files.change (v := { s.file f with ref := (s.file f).ref + 1 }) rfl ?_ ?_ ?_ ?_ ?_
    · simp
    · grind [Pi.add_apply]
    · grind
    · exact fun q other member => ledger.files.alone mine other member
    · grind

theorem pipeEnd_nonneg (y x : Page × Bool) : 0 ≤ (pipeEnd y).2.2.2 x := by
  by_cases same : x = y
  · subst same
    simp
  · simp [same]

theorem fileBalance_ends (v : File) (x : Page × Bool) : 0 ≤ (fileBalance v).2.2.2 x := by
  unfold fileBalance
  cases v.type with
  | none => exact le_rfl
  | inode => exact le_rfl
  | device => exact le_rfl
  | pipe => exact pipeEnd_nonneg _ x

theorem Ledger.fileclose {ff : Option File} (ledger : Ledger s held) (runs : (held p).proc.status = .runnable)
    (mine : 1 ≤ (held p).own f) (taken : s.fileclose f = .ok (ff, t)) :
    ∃ h', post (.fileclose f) (held p) ff h' ∧ Ledger t (update held p h') := by
  have kept (f' : FileId) (member : f' ∈ (held p).fresh.filter (· ≠ f)) : f' ∈ (held p).fresh ∧ f' ≠ f := by
    simpa using member
  have others (q : Slot) (other : q ≠ p) : f ∉ (held q).fresh :=
    fun member => ledger.files.alone mine other member
  unfold State.fileclose at taken
  simp only at taken
  split_ifs at taken with low more
  · cases taken
    refine ⟨_, rfl, ledger.changeFile runs rfl rfl ?_ (ledger.balanced.ends p) ?_⟩
    · simp [fileBalance]
    · refine ledger.files.change (v := { s.file f with ref := (s.file f).ref - 1 }) rfl ?_ ?_ ?_ others ?_
      · simp [Pi.single_neg, sub_eq_add_neg]
      · simp only [Pi.sub_apply, Pi.single_eq_same]
        omega
      · grind
      · exact fun f' member => .inl (kept f' member)
  · cases taken
    have one : (s.file f).ref = 1 := by omega
    refine ⟨_, ⟨ledger.balanced.ends p, rfl⟩, ledger.changeFile runs rfl rfl ?_ ?_ ?_⟩
    · simp [fileBalance]
    · intro x
      have first := ledger.balanced.ends p x
      have second := fileBalance_ends (s.file f) x
      exact add_nonneg first second
    · refine ledger.files.change (v := { s.file f with ref := 0, type := .none }) rfl ?_ ?_ ?_ others ?_
      · simp [one, Pi.single_neg, sub_eq_add_neg]
      · simp only [Pi.sub_apply, Pi.single_eq_same]
        omega
      · exact fun _ => rfl
      · exact fun f' member => .inl (kept f' member)

theorem Ledger.fillFile (ledger : Ledger s held) (runs : (held p).proc.status = .runnable) (member : f ∈ (held p).fresh)
    (ref : v.ref = (s.file f).ref) (ends : ∀ x, 0 ≤ ((held p).add (-fileBalance v)).ends x) :
    Ledger (s.setFile f v) (update held p
      { (held p).add (-fileBalance v) with fresh := (held p).fresh.filter (· ≠ f) }) := by
  obtain ⟨none, one, mine⟩ := ledger.files.fresh p f member
  refine ledger.changeFile runs rfl rfl ?_ ends ?_
  · rw [fileBalance_none none]
    simp
  · refine ledger.files.change rfl ?_ ?_ ?_ ?_ ?_
    · simp [ref]
    · exact ledger.files.nonneg p f
    · intro zero
      omega
    · exact fun q other member => ledger.files.alone (le_of_eq mine.symm) other member
    · intro f' kept
      exact .inl (by simpa using kept)

/-! ### Pipes -/

theorem Balanced.ends_total (balanced : Balanced s held) (x : Page × Bool) :
    ∑ p, (held p).ends x + ∑ f, (fileBalance (s.file f)).2.2.2 x = if isOpen (s.pipe x.1) x.2 then 1 else 0 := by
  have component := congrArg (fun b : Balance => b.2.2.2 x) balanced.total
  simpa only [Prod.snd_add, Prod.snd_sum, Pi.add_apply, Finset.sum_apply, stateBalance, Held.ends] using component

theorem Balanced.ends_sub {y : Page × Bool} (balanced : Balanced s held) (mine : 1 ≤ (held p).ends y) (x : Page × Bool) :
    0 ≤ ((held p).add (-pipeEnd y)).ends x := by
  have low := balanced.ends p x
  change 0 ≤ (held p).ends x + -(Pi.single y 1 : Page × Bool → Int) x
  by_cases same : x = y
  · subst same
    simp only [Pi.single_eq_same]
    omega
  · rw [Pi.single_eq_of_ne same]
    omega

theorem Balanced.ends_le (balanced : Balanced s held) (p : Slot) (x : Page × Bool) :
    (held p).ends x ≤ if isOpen (s.pipe x.1) x.2 then 1 else 0 := by
  have total := balanced.ends_total x
  have part := le_sum (f := fun q => (held q).ends x) (fun q => balanced.ends q x) p
  have files : 0 ≤ ∑ f, (fileBalance (s.file f)).2.2.2 x :=
    Finset.sum_nonneg fun f _ => fileBalance_ends (s.file f) x
  omega

theorem stateBalance_setPipe (s : State) (page : Page) (v : Option Pipe) :
    stateBalance (s.setPipe page v) = stateBalance s + (0, 0, 0,
      Pi.single (page, false) ((if isOpen v false then 1 else 0) - if isOpen (s.pipe page) false then 1 else 0) +
      Pi.single (page, true) ((if isOpen v true then 1 else 0) - if isOpen (s.pipe page) true then 1 else 0)) := by
  refine Prod.ext ?_ (Prod.ext ?_ (Prod.ext ?_ ?_))
  · exact (add_zero _).symm
  · exact (add_zero _).symm
  · exact (add_zero _).symm
  · funext x
    obtain ⟨page', writable⟩ := x
    by_cases same : page' = page
    · subst same
      cases writable <;> simp [stateBalance]
    · simp [stateBalance, same]

theorem Ledger.changePipe {v : Option Pipe} {d : Balance} (ledger : Ledger s held) (page : Page)
    (runs : (held p).proc.status = .runnable) (table : t.table = s.table) (outstanding : t.outstanding = s.outstanding)
    (lock : t.lock = s.lock) (file : t.file = s.file) (proc : t.proc = s.proc) (pipe : t.pipe = update s.pipe page v)
    (balance : stateBalance (s.setPipe page v) = stateBalance s + d) (locks : d.2.2.1 = 0)
    (ends : ∀ x, 0 ≤ ((held p).add d).ends x) (pipes : Pipes t) : Ledger t (update held p ((held p).add d)) := by
  refine ⟨?_, ledger.files.keep file rfl rfl, ledger.procs.keep proc rfl rfl (ledger.runs runs), pipes⟩
  refine ledger.balanced.adjust (f := 0) lock (file.trans (kept_file s 0)) ?_ ?_ ends
  · have same : stateBalance t = stateBalance (s.setPipe page v) := by
      unfold stateBalance
      rw [table, outstanding, lock, pipe]
      rfl
    rw [same, balance, show ((held p).add d).bal = (held p).bal + d from rfl]
    abel
  · simp [Held.locks, locks]

theorem Pipes.change {v : Option Pipe} (pipes : Pipes s) (pipe : t.pipe = update s.pipe page v)
    (others : ∀ page', page' ≠ page → t.allocs page' = s.allocs page' ∧ t.frees page' = s.frees page')
    (counts : t.allocs page = t.frees page + if v = none then 0 else 1)
    (live : ∀ pi, v = some pi → pi.readopen ∨ pi.writeopen) : Pipes t := by
  refine ⟨fun page' => ?_, ?_⟩
  · rw [pipe]
    by_cases same : page' = page
    · rw [same, update_self, counts]
    · rw [update_of_ne same, (others page' same).1, (others page' same).2]
      exact pipes.counts page'
  · rw [pipe, forall_update_iff s.pipe fun _ v => ∀ pi, v = some pi → pi.readopen ∨ pi.writeopen]
    exact ⟨live, fun page' _ => pipes.live page'⟩

theorem Ledger.newPipe (ledger : Ledger s held) (runs : (held p).proc.status = .runnable) (free : s.pipe page = none) :
    (held p).ends (page, false) = 0 ∧ (held p).ends (page, true) = 0 ∧
      Ledger { s.setPipe page (some ⟨true, true⟩) with allocs := update s.allocs page (s.allocs page + 1) }
        (update held p ((held p).add (pipeEnd (page, false) + pipeEnd (page, true)))) := by
  have none (w : Bool) : (held p).ends (page, w) = 0 := by
    have low := ledger.balanced.ends p (page, w)
    have high := ledger.balanced.ends_le p (page, w)
    simp only [free, isOpen, Bool.false_eq_true, ↓reduceIte] at high
    omega
  refine ⟨none false, none true, ?_⟩
  have before := ledger.pipes.counts page
  rw [free] at before
  refine ledger.changePipe page runs rfl rfl rfl rfl rfl rfl ?_ rfl ?_
    (ledger.pipes.change rfl (fun _ other => ⟨update_of_ne other .., rfl⟩) ?_ ?_)
  · rw [stateBalance_setPipe, free]
    simp [isOpen]
  · intro x
    have low := ledger.balanced.ends p x
    exact add_nonneg low (add_nonneg (pipeEnd_nonneg _ x) (pipeEnd_nonneg _ x))
  · simp [before]
  · rintro _ ⟨⟩
    exact .inl rfl

theorem Ledger.pipeclose {writable : Bool} (ledger : Ledger s held) (runs : (held p).proc.status = .runnable)
    (mine : 1 ≤ (held p).ends (page, writable)) (taken : s.pipeclose page writable = .ok ((), t)) :
    Ledger t (update held p ((held p).add (-pipeEnd (page, writable)))) := by
  have opened := ledger.balanced.ends_le p (page, writable)
  have ends := ledger.balanced.ends_sub mine
  cases found : s.pipe page with
  | none => grind [isOpen]
  | some pi =>
    have open_end : isOpen (some pi) writable = true := by grind
    have before := ledger.pipes.counts page
    rw [found] at before
    simp only [State.pipeclose, found] at taken
    split_ifs at taken with last
    · cases taken
      refine ledger.changePipe page runs rfl rfl rfl rfl rfl rfl ?_ (by rfl) ends
        (ledger.pipes.change rfl (fun _ other => ⟨rfl, update_of_ne other ..⟩) ?_ nofun)
      · rw [stateBalance_setPipe, found]
        cases writable <;> simp_all [isOpen, Pi.single_neg, Pipe.close]
      · simp [before]
    · cases taken
      refine ledger.changePipe page runs rfl rfl rfl rfl rfl rfl ?_ (by rfl) ends
        (ledger.pipes.change rfl (fun _ _ => ⟨rfl, rfl⟩) before ?_)
      · rw [stateBalance_setPipe, found]
        cases writable <;> simp_all [isOpen, Pi.single_neg, Pipe.close]
      · rintro _ ⟨⟩
        simpa only [not_and_or, Bool.not_eq_false] using last

end

end Xv6.Fs
