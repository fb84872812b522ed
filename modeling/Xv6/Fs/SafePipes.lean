import Xv6.Fs.SafeCalls

namespace Xv6.Fs
open Lib

section
variable {h : Held} {f f0 f1 : FileId} {fd : Fd} {b : Balance} {Q : Unit → Held → Prop} {fresh : List FileId}
  {page : Option Page} {copied : Bool} {fds : List Fd}

/-! ## `sys_pipe` -/

structure Pair (h : Held) (f0 f1 : FileId) (fresh : List FileId) (b : Balance) : Prop where
  runs : h.proc.status = .runnable
  bal : h.bal = cwdBalance h.proc.cwd + b
  own : h.own = slotsOf h.proc.ofile + Pi.single f0 1 + Pi.single f1 1
  fresh : h.fresh = fresh
  child : h.child = none
  other : f1 ≠ f0

theorem Pair.owns (pair : Pair h f0 f1 fresh b) : 1 ≤ h.own f0 ∧ 1 ≤ (h.closed f0).own f1 := by
  have first := slotsOf_nonneg h.proc.ofile f0
  have second := slotsOf_nonneg h.proc.ofile f1
  constructor
  · rw [pair.own]
    simp only [Pi.add_apply, Pi.single_eq_same, Pi.single_eq_of_ne (Ne.symm pair.other)]
    omega
  · change 1 ≤ (h.own - (Pi.single f0 1 : FileId → Int)) f1
    rw [pair.own]
    simp only [Pi.add_apply, Pi.sub_apply, Pi.single_eq_same, Pi.single_eq_of_ne pair.other]
    omega

theorem Pair.closed (pair : Pair h f0 f1 fresh b)
    (only : ∀ f ∈ fresh, f = f0 ∨ f = f1) : Inside ((h.closed f0).closed f1) b := by
  refine ⟨pair.runs, pair.bal, ?_, ?_, pair.child⟩
  · change h.own - Pi.single f0 1 - Pi.single f1 1 = slotsOf h.proc.ofile
    rw [pair.own]
    abel
  · change (h.fresh.filter (· ≠ f0)).filter (· ≠ f1) = []
    rw [List.filter_filter, List.filter_eq_nil_iff, pair.fresh]
    intro f member
    rcases only f member with rfl | rfl <;> simp

theorem safe_pipealloc {Q : Option (FileId × FileId) → Held → Prop} (inside : Inside h 0)
    (failed : ∀ h', Inside h' 0 → Q none h') (made : ∀ f0 f1 h', Pair h' f0 f1 [] 0 → Q (some (f0, f1)) h') :
    Safe contract Q (pipealloc page) h := by
  unfold pipealloc
  rw [safe_bind]
  refine safe_filealloc inside.runs (failed h inside) fun f0 unowned missing => ?_
  simp only [safe_bind]
  refine safe_filealloc inside.runs ?_ fun f1 unowned' missing' => ?_
  · simp only [safe_bind]
    refine safe_fileclose (h := h.allocated f0) inside.runs (le_of_eq (allocated_own unowned).symm) ?_
    rw [allocated_closed missing]
    exact failed h inside
  · have other : f1 ≠ f0 := by grind [allocated_own]
    have pair : Pair ((h.allocated f0).allocated f1) f0 f1 [f1, f0] 0 := by
      refine ⟨inside.runs, inside.bal, ?_, ?_, inside.child, other⟩
      · change h.own + Pi.single f0 1 + Pi.single f1 1 = _
        rw [inside.own]
        rfl
      · change f1 :: f0 :: h.fresh = _
        rw [inside.fresh]
    simp only [safe_bind]
    refine safe_ask inside.runs trivial fun pi h' kept => ?_
    cases pi with
    | none =>
      rw [show h' = _ from kept]
      simp only [safe_bind]
      refine safe_fileclose pair.runs pair.owns.1 ?_
      refine safe_fileclose pair.runs pair.owns.2 ?_
      exact failed _ (pair.closed (by simp))
    | some page =>
      obtain ⟨first, second, rfl⟩ := kept
      refine safe_ask inside.runs ⟨?_, ?_⟩ fun _ h' kept => ?_
      · exact List.mem_cons_of_mem _ List.mem_cons_self
      · simp only [Held.ends] at first
        simp [Held.ends, Held.add, pipeEnd, first]
      · have fresh : h'.fresh = [f1] := by
          rw [show h' = _ from kept]
          change (f1 :: f0 :: h.fresh).filter (· ≠ f0) = [f1]
          rw [inside.fresh]
          simp [other]
        refine safe_ask (by rw [show h' = _ from kept]; exact inside.runs) ⟨?_, ?_⟩ fun _ h'' kept' => ?_
        · rw [fresh]
          exact List.mem_cons_self
        · rw [show h' = _ from kept]
          simp only [Held.ends] at second
          simp [Held.ends, Held.add, pipeEnd, second]
        · refine made f0 f1 h'' ?_
          have bal : h''.bal = h.bal := by
            rw [show h'' = _ from kept', show h' = _ from kept]
            change h.bal + (pipeEnd (page, false) + pipeEnd (page, true)) + -pipeEnd (page, false) +
              -pipeEnd (page, true) = h.bal
            abel
          have filled : h''.fresh = [] := by
            rw [show h'' = _ from kept']
            rw [fresh]
            simp
          have rest : h''.proc = h.proc ∧ h''.own = ((h.allocated f0).allocated f1).own ∧ h''.child = h.child := by
            rw [show h'' = _ from kept', show h' = _ from kept]
            exact ⟨rfl, rfl, rfl⟩
          obtain ⟨proc, own, child⟩ := rest
          refine ⟨by rw [proc]; exact inside.runs, ?_, ?_, filled, by rw [child, inside.child], other⟩
          · rw [bal, proc, inside.bal]
          · rw [own, proc]
            exact pair.own

theorem safe_pipeBad (pair : Pair h f0 f1 [] 0) : Safe contract (fun _ => AtRest) (pipeBad f0 f1) h := by
  unfold pipeBad
  simp only [safe_bind]
  refine safe_fileclose pair.runs pair.owns.1 ?_
  refine safe_fileclose pair.runs pair.owns.2 ?_
  exact (pair.closed nofun).atRest

theorem safe_sysPipe (inside : Inside h 0) : Safe contract (fun _ => AtRest) (sysPipe page copied) h := by
  unfold sysPipe
  rw [safe_bind]
  refine safe_pipealloc inside (fun _ => Inside.atRest) fun rf wf h pair => ?_
  simp only [safe_bind]
  refine safe_fdalloc pair.runs (safe_pipeBad pair) fun fd0 free => ?_
  have first := setFd_self h fd0 (some rf)
  simp only [safe_bind]
  refine safe_fdalloc pair.runs ?_ fun fd1 free' => ?_
  · refine safe_setOfile (h := h.setFd fd0 (some rf)) pair.runs fd0 none ?_
    refine safe_pipeBad ⟨pair.runs, pair.bal, ?_, pair.fresh, pair.child, pair.other⟩
    refine pair.own.trans ?_
    rw [setFd_clear first, setFd_fill free]
    abel
  · have other : fd1 ≠ fd0 := by
      rintro rfl
      rw [first] at free'
      cases free'
    have second := setFd_self (h.setFd fd0 (some rf)) fd1 (some wf)
    rw [← setFd_other (h.setFd fd0 (some rf)) (some wf) (Ne.symm other)] at first
    cases copied with
    | true =>
      refine Inside.atRest ⟨pair.runs, pair.bal, ?_, pair.fresh, pair.child⟩
      refine pair.own.trans ?_
      rw [setFd_fill free', setFd_fill free]
    | false =>
      refine safe_setOfile (h := (h.setFd fd0 (some rf)).setFd fd1 (some wf)) pair.runs fd0 none ?_
      refine safe_setOfile (h := ((h.setFd fd0 (some rf)).setFd fd1 (some wf)).setFd fd0 none) pair.runs fd1 none ?_
      refine safe_pipeBad ⟨pair.runs, pair.bal, ?_, pair.fresh, pair.child, pair.other⟩
      refine pair.own.trans ?_
      rw [← setFd_other _ none other] at second
      rw [setFd_clear second, setFd_clear first, setFd_fill free', setFd_fill free]
      abel

/-! ## `fork` and `exit` -/

structure Forking (h : Held) (np : Slot) (todo : List Fd) (cwd : Bool) : Prop where
  runs : h.proc.status = .runnable
  bal : h.bal = cwdBalance h.proc.cwd
  own : h.own = slotsOf h.proc.ofile
  fresh : h.fresh = []
  child : h.child = some ⟨np, todo, cwd⟩

theorem safe_dupFiles {np : Slot} (distinct : fds.Nodup)
    (forking : Forking h np fds false) (next : ∀ h', Forking h' np [] false → Q () h') :
    Safe contract Q (dupFiles np fds) h := by
  induction fds generalizing h with
  | nil => exact next h forking
  | cons fd rest ih =>
    refine safe_ask forking.runs ⟨⟨_, forking.child, rfl, List.mem_cons_self⟩, ?_⟩ fun _ h' kept => ?_
    · intro f here
      rw [forking.own, forking.fresh]
      exact ⟨slotsOf_pos here, List.not_mem_nil⟩
    · refine ih (List.nodup_cons.mp distinct).2 ?_
      rw [show h' = _ from kept]
      refine ⟨forking.runs, forking.bal, forking.own, forking.fresh, ?_⟩
      rw [forking.child, Option.map_some, List.filter_cons_of_neg (by simp), filter_not_mem (List.nodup_cons.mp distinct).1]

theorem safe_fork {np : Option Slot} (inside : Inside h 0) : Safe contract (fun _ => AtRest) (fork np copied) h := by
  unfold fork
  rw [safe_bind]
  refine safe_ask inside.runs inside.child fun np h' kept => ?_
  cases np with
  | none =>
    rw [show h' = h from kept]
    exact inside.atRest
  | some np =>
    have forking : Forking h' np (List.finRange NOFILE) false := by
      rw [show h' = _ from kept]
      exact ⟨inside.runs, by simpa using inside.bal, inside.own, inside.fresh, rfl⟩
    cases copied with
    | false =>
      refine safe_ask forking.runs ⟨_, forking.child, rfl, List.mem_finRange, rfl⟩ fun _ h'' kept => ?_
      rw [show h'' = _ from kept]
      exact Inside.atRest ⟨forking.runs, by simpa using forking.bal, forking.own, forking.fresh, rfl⟩
    | true =>
      simp only [↓reduceIte, safe_bind]
      refine safe_dupFiles (List.nodup_finRange _) forking fun h forking => ?_
      refine safe_ask forking.runs ⟨_, forking.child, rfl, rfl⟩ fun _ h' kept => ?_
      have filled : Forking h' np [] true := by
        rw [show h' = _ from kept]
        refine ⟨forking.runs, forking.bal, forking.own, forking.fresh, ?_⟩
        rw [forking.child]
        rfl
      refine safe_ask filled.runs ⟨_, filled.child, rfl⟩ fun _ h'' kept => ?_
      rw [show h'' = _ from kept]
      exact Inside.atRest ⟨filled.runs, by simpa using filled.bal, filled.own, filled.fresh, rfl⟩

theorem safe_closeFiles (inside : Inside h b)
    (next : ∀ h', Inside h' b → (∀ fd, h'.proc.ofile fd = none ∨ h'.proc.ofile fd = h.proc.ofile fd) →
      (∀ fd ∈ fds, h'.proc.ofile fd = none) → Q () h') : Safe contract Q (closeFiles fds) h := by
  induction fds generalizing h with
  | nil => exact next h inside (fun _ => .inr rfl) nofun
  | cons fd rest ih =>
    unfold closeFiles
    rw [safe_bind]
    refine safe_ofile inside.runs fd ?_
    cases here : h.proc.ofile fd with
    | none =>
      refine ih inside fun h' after kept closed => next h' after kept ?_
      intro fd' member
      rcases List.mem_cons.mp member with rfl | member
      · grind
      · exact closed fd' member
    | some f =>
      simp only [safe_bind]
      refine safe_fileclose inside.runs ?_ ?_
      · rw [inside.own]
        exact slotsOf_pos here
      · refine safe_setOfile (h := h.closed f) inside.runs fd none ?_
        refine ih (inside.clear here) fun h' after kept closed => next h' after ?_ ?_
        · intro fd'
          rcases kept fd' with gone | same
          · exact .inl gone
          · rw [same]
            by_cases equal : fd' = fd
            · subst equal
              exact .inl (Function.update_self ..)
            · exact .inr (Function.update_of_ne equal ..)
        · intro fd' member
          rcases List.mem_cons.mp member with rfl | member
          · rcases kept fd' with gone | same
            · exact gone
            · rw [same]
              exact Function.update_self ..
          · exact closed fd' member

theorem safe_exit {self : Slot} (inside : Inside h 0) : Safe contract (fun _ => AtRest) (exit self) h := by
  unfold exit
  split_ifs with init
  · exact Costs.panic (d := fun _ => 0) .initExiting _ h inside.runs fun _ => by
      rw [Held.add_none]
      exact inside.atRest
  · simp only [safe_bind]
    refine safe_closeFiles inside fun h inside _ closed => ?_
    refine inside.costs costs_beginOp fun _ h₁ inside₁ same₁ => ?_
    refine safe_ask inside₁.runs trivial fun cwd h' kept => ?_
    obtain ⟨here, rfl⟩ := kept
    refine inside₁.costs (costs_iput cwd) fun _ h₂ inside₂ same₂ => ?_
    refine inside₂.costs costs_endOp fun _ h₃ inside₃ same₃ => ?_
    refine safe_ask inside₃.runs trivial fun _ h₄ kept => ?_
    have gone : Inside h₄ 0 ∧ (∀ fd, h₄.proc.ofile fd = none) ∧ h₄.proc.cwd = none := by
      rw [show h₄ = _ from kept]
      refine ⟨⟨inside₃.runs, ?_, inside₃.own, inside₃.fresh, inside₃.child⟩, ?_, rfl⟩
      · rw [show Held.bal _ = h₃.bal from rfl, inside₃.bal, same₃, same₂, here]
        simp only [cwdBalance]
        abel
      · intro fd
        rw [same₃, same₂, same₁]
        exact closed fd (List.mem_finRange fd)
    obtain ⟨inside₄, files, none⟩ := gone
    refine safe_ask inside₄.runs ⟨inside₄.atRest, files, none⟩ fun _ h₅ kept => ?_
    rw [show h₅ = _ from kept]
    have rest := inside₄.atRest
    exact congrArg (fun h : Held => { h with proc := { h.proc with status := .zombie } }) rest

end

end Xv6.Fs
