import Xv6.Proc.InterruptState

namespace Xv6.Interrupts
open Lib Function
open ProcTable (Slot ProcState initproc)

/-! ## Threads that do not run -/

structure Parked (p : Slot) (x : Thread) : Prop where
  place : x.pc = .forkret ∨ x.pc = .resume x.entry
  depth : x.depth = 1
  held : x.held = [.proc p]
  frames : ∀ k ∈ x.frames, Interrupted k

structure Waiting (p : Slot) (x : Thread) : Prop where
  place : x.pc = .done p
  depth : x.depth = 1
  held : x.held = [.proc p]
  frames : ∀ k ∈ x.frames, Interrupted k

section
variable {p : Slot} {r : Regs} {x y : Thread}

theorem Waiting.ok (waiting : Waiting p x) (noff : r.noff = 1) (off : r.sie = false) : Ok r x := by
  refine ⟨?_, fun _ => off, fun _ masked => ?_, fun old caller place => ?_, fun intena place => ?_, ?_, waiting.frames, ?_⟩
  · rw [noff, waiting.depth]
    rfl
  · rw [waiting.place] at masked
    exact absurd masked id
  · exact absurd (waiting.place.symm.trans place) nofun
  · exact absurd (waiting.place.symm.trans place) nofun
  · rw [waiting.place]
    exact ⟨waiting.depth, waiting.held⟩
  · rw [waiting.held]
    exact List.nodup_singleton _

theorem Ok.parked (ok : Ok r x) (place : x.pc = .sched) (depth : x.depth = 1) (held : x.held = [.proc p]) :
    Parked p { x with pc := .resume r.intena } := by
  refine ⟨.inr ?_, depth, held, ok.frames⟩
  have same := ok.masked (by omega) (by rw [place]; trivial)
  rw [same]

theorem Parked.ok (parked : Parked p x) (noff : r.noff = 1) (off : r.sie = false) (intena : r.intena = y.entry) :
    Ok r (x.start y) := by
  have depth : r.noff = x.depth := by
    rw [noff, parked.depth]
    rfl
  have nodup : x.held.Nodup := by
    rw [parked.held]
    exact List.nodup_singleton _
  have few : x.held.length ≤ 1 := by
    rw [parked.held]
    exact Nat.le_refl 1
  rw [Thread.start]
  rcases parked.place with new | old
  · rw [new]
    exact ⟨depth, fun _ => off, fun _ _ => intena, nofun, nofun, Nat.le_trans few (Nat.le_of_eq parked.depth.symm),
      parked.frames, nodup⟩
  · rw [old]
    refine ⟨depth, fun _ => off, fun _ masked => ?_, fun old' caller place => ?_, fun v place => ?_, ?_, parked.frames, nodup⟩
    · rw [old] at masked
      exact absurd masked id
    · exact absurd (old.symm.trans place) nofun
    · exact (Pc.resume.inj (old.symm.trans place)).symm
    · rw [old]
      exact ⟨parked.depth, few⟩

theorem Thread.start_held (x y : Thread) : (x.start y).held = x.held := by
  rw [Thread.start]
  split <;> rfl

theorem Thread.OfThread.start (role : x.OfThread) (y : Thread) : (x.start y).OfThread := by
  rw [Thread.start]
  split
  next => exact ⟨trivial, role.2⟩
  next => exact role

theorem Parked.start_pc (parked : Parked p x) (y : Thread) : (x.start y).pc ≠ .sched := by
  rw [Thread.start]
  rcases parked.place with new | old
  · rw [new]
    exact nofun
  · rw [old]
    rw [old]
    exact nofun

end

section
variable {C : Type}

structure Sound (s : State C) : Prop where
  running : ∀ c, Ok (s.cpu c) (s.me c)
  mine : ∀ c, ∀ l ∈ (s.me c).held, s.lock l = some c
  parked : ∀ p, (∀ c, s.current c ≠ some p) → Parked p (s.thread (.proc p))
  waiting : ∀ c p, s.current c = some p → Waiting p (s.thread (.scheduler c))
  alone : ∀ c d p, s.current c = some p → s.current d = some p → c = d
  state : ∀ c p, s.current c = some p → (s.me c).pc ≠ .sched → s.state p = .running
  switching : ∀ c p, s.current c = some p → (s.me c).pc = .sched → .proc p ∈ (s.me c).held ∧ s.state p ≠ .running
  role : ∀ p, (s.thread (.proc p)).OfThread

variable {s t : State C} {c d : C} {p i : Slot} {l : Lock} {x : Thread} {v : ProcState} {o : Option C}

theorem State.self_some (current : s.current c = some p) : s.self c = .proc p := by rw [State.self, current]

theorem State.self_none (current : s.current c = none) : s.self c = .scheduler c := by rw [State.self, current]

theorem State.me_some (current : s.current c = some p) : s.me c = s.thread (.proc p) := by rw [State.me, State.self_some current]

theorem State.me_none (current : s.current c = none) : s.me c = s.thread (.scheduler c) := by
  rw [State.me, State.self_none current]

theorem State.self_eq_proc : s.self c = .proc p ↔ s.current c = some p := by
  rw [State.self]
  cases s.current c <;> simp

theorem State.self_eq_scheduler : s.self c = .scheduler d ↔ s.current c = none ∧ c = d := by
  rw [State.self]
  cases s.current c <;> simp

theorem Sound.self_ne (sound : Sound s) (apart : d ≠ c) : s.self d ≠ s.self c := by
  intro same
  cases here : s.current c with
  | none =>
    rw [State.self_none here, State.self_eq_scheduler] at same
    exact apart same.2
  | some p =>
    rw [State.self_some here, State.self_eq_proc] at same
    exact apart (sound.alone d c p same here)

theorem Sound.out (sound : Sound s) (notRunning : s.state p ≠ .running) (lock : s.lock (.proc p) = some c)
    (elsewhere : (s.me c).pc ≠ .sched) : ∀ d, s.current d ≠ some p := by
  intro d here
  by_cases leaving : (s.me d).pc = .sched
  · have own := sound.mine d _ (sound.switching d p here leaving).1
    obtain rfl : c = d := Option.some.inj (lock.symm.trans own)
    exact elsewhere leaving
  · exact notRunning (sound.state d p here leaving)

theorem State.me_congr (current : t.current d = s.current d) (thread : t.thread (s.self d) = s.thread (s.self d)) :
    t.me d = s.me d := by
  have self : t.self d = s.self d := by rw [State.self, current, State.self]
  rw [State.me, self, thread, State.me]

theorem State.setLock_self : (s.setLock l o).lock l = o := update_self ..

theorem State.setLock_of_ne {l' : Lock} (apart : l' ≠ l) : (s.setLock l o).lock l' = s.lock l' :=
  update_of_ne apart ..

/-! ## Steps of one thread -/

variable [DecidableEq C]

section

variable (sound : Sound s)

include sound

theorem Sound.acts {cpu : C → Regs} {lock : Lock → Option C} {state : Slot → ProcState}
    (ok : Ok (cpu c) x) (cpus : ∀ d, d ≠ c → cpu d = s.cpu d) (role : (s.me c).OfThread → x.OfThread)
    (mine : ∀ l ∈ x.held, lock l = some c) (locks : ∀ l d, d ≠ c → s.lock l = some d → lock l = some d)
    (running : ∀ p, s.current c = some p → x.pc ≠ .sched → state p = .running)
    (switching : ∀ p, s.current c = some p → x.pc = .sched → .proc p ∈ x.held ∧ state p ≠ .running)
    (states : ∀ p, s.current c ≠ some p → state p = s.state p) :
    Sound { s with cpu := cpu, thread := update s.thread (s.self c) x, lock := lock, state := state } := by
  let t : State C := { s with cpu := cpu, thread := update s.thread (s.self c) x, lock := lock, state := state }
  have here : t.me c = x := update_self ..
  have there (d : C) (apart : d ≠ c) : t.me d = s.me d := update_of_ne (sound.self_ne apart) ..
  refine ⟨fun d => ?_, fun d => ?_, fun p out => ?_, fun d p current => ?_, sound.alone, fun d p current => ?_,
    fun d p current => ?_, fun p => ?_⟩
  · by_cases same : d = c
    · rw [same, here]
      exact ok
    · grind [sound.running]
  · by_cases same : d = c
    · rw [same, here]
      exact mine
    · grind [sound.mine]
  · grind [State.self_eq_proc.mp, sound.parked]
  · grind [State.self_eq_scheduler.mp, sound.waiting]
  · by_cases same : d = c
    · subst same
      rw [here]
      exact running p current
    · grind [sound.alone, sound.state]
  · by_cases same : d = c
    · subst same
      rw [here]
      exact switching p current
    · grind [sound.alone, sound.switching]
  · grind [State.me, sound.role]

theorem Sound.local {r : Regs} (moved : Local (s.cpu c) (s.me c) r x) : Sound ((s.setCpu c r).setMe c x) := by
  have ok : Ok (update s.cpu c r c) x := by
    rw [update_self]
    exact moved.ok
  refine sound.acts ok (fun d apart => update_of_ne apart ..) moved.role ?_ (fun _ _ _ => id)
    (fun p current _ => sound.state c p current moved.before) (fun _ _ place => absurd place moved.after) fun _ _ => rfl
  rw [moved.held]
  exact sound.mine c

theorem Sound.acquired {caller : Caller} (place : (s.me c).pc = .spin caller)
    (lock : caller.lock = some l) (free : s.lock l = none) :
    Sound ((s.setLock l (some c)).setMe c { s.me c with pc := caller.after, held := l :: (s.me c).held }) := by
  have new : l ∉ (s.me c).held := by
    intro held
    have taken := sound.mine c l held
    rw [free] at taken
    cases taken
  have ok := (sound.running c).acquired place lock new
  refine sound.acts ok (fun _ _ => rfl) (fun thread => ⟨?_, thread.2⟩) (fun l' held => ?_) (fun l' d apart taken => ?_)
    (fun p current _ => sound.state c p current ?_) (fun _ _ there => absurd there ?_) fun _ _ => rfl
  · have before := thread.1
    rw [place] at before
    cases caller with
    | plain => trivial
    | acquire _ => trivial
    | scan _ => exact before
  · grind [State.setLock_self, State.setLock_of_ne, sound.mine]
  · grind [State.setLock_of_ne]
  · rw [place]
    exact nofun
  · cases caller <;> exact nofun

theorem Sound.released {scanned : Option Slot} (held : l ∈ (s.me c).held)
    (few : (s.me c).held.length ≤ (s.me c).depth) (last : scanned = none ∨ (s.me c).depth = 1)
    (masked : scanned = none → (s.me c).pc.Masked) (role : (s.me c).pc.OfThread → scanned = none) (before : (s.me c).pc ≠ .sched) :
    Sound ((s.setLock l none).setMe c { s.me c with pc := .popOff scanned, held := (s.me c).held.erase l }) := by
  have ok := sound.running c
  refine sound.acts (ok.released held few last masked) (fun _ _ => rfl) (fun thread => ⟨?_, thread.2⟩) (fun l' rest => ?_)
    (fun l' d apart taken => ?_) (fun p current _ => sound.state c p current before) (fun _ _ => nofun) fun _ _ => rfl
  · rw [role thread.1]
    trivial
  · grind [ok.nodup.mem_erase_iff, State.setLock_of_ne, sound.mine]
  · have other : l' ≠ l := fun same => apart (Option.some.inj (taken.symm.trans (same ▸ sound.mine c l held)))
    rw [State.setLock_of_ne other, taken]

theorem Sound.leaves (current : s.current c = some p) (place : (s.me c).pc = .body)
    (held : .proc p ∈ (s.me c).held) (may : mayLeave v = true) : Sound (goto (s.setState p v) c .sched) := by
  have ok := sound.running c
  have fits := ok.fits
  have masked := ok.masked
  rw [place] at fits masked
  have leaving : Ok (s.cpu c) { s.me c with pc := .sched } := by
    have some : 0 < (s.me c).held.length := List.length_pos_of_mem held
    exact ⟨ok.noff, ok.off, fun deep _ => masked deep trivial, nofun, nofun, ⟨Nat.lt_of_lt_of_le some fits, fits⟩,
      ok.frames, ok.nodup⟩
  refine sound.acts leaving (fun _ _ => rfl) (fun thread => ⟨trivial, thread.2⟩) (sound.mine c) (fun _ _ _ => id)
    (fun _ _ elsewhere => absurd rfl elsewhere) (fun q mine _ => ?_) fun q other => ?_
  · obtain rfl : p = q := Option.some.inj (current.symm.trans mine)
    have new : (s.setState p v).state p = v := update_self ..
    refine ⟨held, ?_⟩
    rw [new]
    rintro rfl
    cases may
  · have apart : q ≠ p := fun same => other (same ▸ current)
    exact update_of_ne apart ..

end

/-! ## Switching -/

theorem Sound.write (sound : Sound s) (out : ∀ d, s.current d ≠ some p) (parked : Parked p x)
    (role : x.OfThread) : Sound ((s.setState p v).setThread (.proc p) x) := by
  let t : State C := (s.setState p v).setThread (.proc p) x
  have me (d : C) : t.me d = s.me d := by
    have apart : s.self d ≠ .proc p := fun same => out d (State.self_eq_proc.mp same)
    exact update_of_ne apart ..
  have state (q : Slot) (other : q ≠ p) : t.state q = s.state q := update_of_ne other ..
  refine ⟨fun d => ?_, fun d => ?_, fun q outQ => ?_, fun d q current => ?_, sound.alone, fun d q current => ?_,
    fun d q current => ?_, fun q => ?_⟩
  · rw [me]
    exact sound.running d
  · rw [me]
    exact sound.mine d
  · change Parked q (update s.thread (.proc p) x (.proc q))
    by_cases same : q = p
    · rw [same, update_self]
      exact parked
    · have apart : Who.proc q ≠ (.proc p : Who C) := fun equal => same (Who.proc.inj equal)
      rw [update_of_ne apart]
      exact sound.parked q outQ
  · exact sound.waiting d q current
  · have other : q ≠ p := fun same => out d (same ▸ current)
    rw [me, state q other]
    exact sound.state d q current
  · have other : q ≠ p := fun same => out d (same ▸ current)
    rw [me, state q other]
    exact sound.switching d q current
  · change Thread.OfThread (update s.thread (.proc p) x (.proc q))
    by_cases same : q = p
    · rw [same, update_self]
      exact role
    · grind [sound.role]

theorem Sound.switched (sound : Sound s) (current : s.current c = some p) (place : (s.me c).pc = .sched)
    (noff : (s.cpu c).noff = 1) (off : (s.cpu c).sie = false) :
    Sound ((goto s c (.resume (s.cpu c).intena)).setCurrent c none) := by
  let t : State C := (goto s c (.resume (s.cpu c).intena)).setCurrent c none
  have self := State.self_some current
  have idle : t.current c = none := update_self ..
  have others (d : C) (apart : d ≠ c) : t.current d = s.current d := update_of_ne apart ..
  have scheduler (d : C) : t.thread (.scheduler d) = s.thread (.scheduler d) := by
    have apart : Who.scheduler d ≠ s.self c := self.symm ▸ nofun
    exact update_of_ne apart ..
  have left : t.thread (.proc p) = { s.me c with pc := .resume (s.cpu c).intena } := by
    rw [← self]
    exact update_self ..
  have kept (q : Slot) (other : q ≠ p) : t.thread (.proc q) = s.thread (.proc q) := by
    have apart : Who.proc q ≠ s.self c := self.symm ▸ fun same => other (Who.proc.inj same)
    exact update_of_ne apart ..
  have here : t.me c = s.thread (.scheduler c) := by rw [State.me_none idle, scheduler]
  have there (d : C) (apart : d ≠ c) : t.me d = s.me d :=
    State.me_congr (others d apart) (update_of_ne (sound.self_ne apart) ..)
  have waiting := sound.waiting c p current
  have ok := sound.running c
  have depth : (s.me c).depth = 1 := by
    have same := ok.noff
    omega
  have held : (s.me c).held = [.proc p] := by
    have fits := ok.fits
    rw [place] at fits
    have few : (s.me c).held.length ≤ 1 := depth ▸ fits.2
    have own := (sound.switching c p current place).1
    obtain ⟨l, only⟩ := List.length_eq_one_iff.mp (Nat.le_antisymm few (List.length_pos_of_mem own))
    rw [only] at own ⊢
    rw [List.mem_singleton.mp own]
  have elsewhere {d : C} {q : Slot} (currentD : t.current d = some q) : d ≠ c ∧ s.current d = some q := by
    have apart : d ≠ c := by
      rintro rfl
      exact absurd (idle.symm.trans currentD) nofun
    exact ⟨apart, (others d apart).symm.trans currentD⟩
  refine ⟨fun d => ?_, fun d => ?_, fun q out => ?_, fun d q currentD => ?_, fun d e q currentD currentE => ?_,
    fun d q currentD => ?_,
    fun d q currentD => ?_, fun q => ?_⟩
  · by_cases same : d = c
    · rw [same, here]
      exact waiting.ok noff off
    · rw [there d same]
      exact sound.running d
  · by_cases same : d = c
    · rw [same, here, waiting.held, ← held]
      exact sound.mine c
    · rw [there d same]
      exact sound.mine d
  · grind [ok.parked, sound.parked]
  · rw [scheduler]
    exact sound.waiting d q (elsewhere currentD).2
  · exact sound.alone d e q (elsewhere currentD).2 (elsewhere currentE).2
  · rw [there d (elsewhere currentD).1]
    exact sound.state d q (elsewhere currentD).2
  · rw [there d (elsewhere currentD).1]
    exact sound.switching d q (elsewhere currentD).2
  · by_cases same : q = p
    · have role := sound.role p
      rw [← State.me_some current] at role
      rw [same, left]
      exact ⟨trivial, role.2⟩
    · rw [kept q same]
      exact sound.role q

theorem Sound.chosen (sound : Sound s) (idle : s.current c = none) (place : (s.me c).pc = .test i)
    (runnable : s.state i = .runnable) : Sound (choose s c i) := by
  let t : State C := (((goto s c (.done i)).setState i .running).setThread (.proc i)
    ((s.thread (.proc i)).start (s.me c))).setCurrent c (some i)
  have self := State.self_none idle
  have ok := sound.running c
  have fits := ok.fits
  rw [place] at fits
  have lock : s.lock (.proc i) = some c := by
    refine sound.mine c _ ?_
    rw [fits.2]
    exact List.mem_singleton.mpr rfl
  have out : ∀ d, s.current d ≠ some i := by grind [sound.out]
  have parked := sound.parked i out
  have current : t.current c = some i := update_self ..
  have others (d : C) (apart : d ≠ c) : t.current d = s.current d := update_of_ne apart ..
  have started : t.thread (.proc i) = (s.thread (.proc i)).start (s.me c) := update_self ..
  have kept (w : Who C) (other : w ≠ .proc i) (apart : w ≠ .scheduler c) : t.thread w = s.thread w := by
    have elsewhere : w ≠ s.self c := self.symm ▸ apart
    exact (update_of_ne other ..).trans (update_of_ne elsewhere ..)
  have scheduler : t.thread (.scheduler c) = { s.me c with pc := .done i } := by
    have apart : Who.scheduler c ≠ .proc i := nofun
    change update (update s.thread (s.self c) { s.me c with pc := .done i }) (.proc i)
      ((s.thread (.proc i)).start (s.me c)) (.scheduler c) = _
    rw [update_of_ne apart, self, update_self]
  have here : t.me c = (s.thread (.proc i)).start (s.me c) := by rw [State.me_some current, started]
  have there (d : C) (apart : d ≠ c) : t.me d = s.me d := by
    grind [State.me_congr, State.self_eq_proc.mp, State.self_eq_scheduler.mp]
  have elsewhere (q : Slot) (other : q ≠ i) : Who.proc q ≠ (.proc i : Who C) := fun same => other (Who.proc.inj same)
  have stays {d : C} {q : Slot} (apart : d ≠ c) (currentD : t.current d = some q) :
      s.current d = some q ∧ t.state q = s.state q := by
    rw [others d apart] at currentD
    have other : q ≠ i := by
      rintro rfl
      exact out d currentD
    exact ⟨currentD, update_of_ne other ..⟩
  have isT : choose s c i = t := by
    rw [choose, if_pos runnable]
  rw [isT]
  refine ⟨fun d => ?_, fun d => ?_, fun q outQ => ?_, fun d q currentD => ?_, fun d e q currentD currentE => ?_,
    fun d q currentD => ?_,
    fun d q currentD => ?_, fun q => ?_⟩
  · by_cases same : d = c
    · rw [same, here]
      have one : (s.me c).depth = 1 := fits.1
      have deep : 0 < (s.me c).depth := by omega
      have noff : (s.cpu c).noff = 1 := by
        rw [ok.noff, one]
        rfl
      exact parked.ok noff (ok.off deep) (ok.masked deep (by rw [place]; trivial))
    · rw [there d same]
      exact sound.running d
  · by_cases same : d = c
    · rw [same, here, Thread.start_held, parked.held]
      intro l held
      rw [List.mem_singleton.mp held]
      exact lock
    · rw [there d same]
      exact sound.mine d
  · grind [sound.parked]
  · by_cases same : d = c
    · subst same
      obtain rfl : i = q := Option.some.inj (current.symm.trans currentD)
      rw [scheduler]
      exact ⟨rfl, fits.1, fits.2, ok.frames⟩
    · grind [Who.scheduler.inj, sound.waiting]
  · by_cases sameD : d = c
    · grind
    · by_cases sameE : e = c
      · grind
      · grind [sound.alone]
  · by_cases same : d = c
    · subst same
      obtain rfl : i = q := Option.some.inj (current.symm.trans currentD)
      exact fun _ => update_self ..
    · obtain ⟨before, state⟩ := stays same currentD
      rw [there d same, state]
      exact sound.state d q before
  · by_cases same : d = c
    · grind [parked.start_pc]
    · obtain ⟨before, state⟩ := stays same currentD
      rw [there d same, state]
      exact sound.switching d q before
  · by_cases same : q = i
    · rw [same, started]
      exact (sound.role i).start _
    · rw [kept _ (elsewhere q same) nofun]
      exact sound.role q

end

end Xv6.Interrupts
