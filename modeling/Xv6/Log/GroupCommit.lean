import Xv6.Lib.Run
import Xv6.Log.Operations

namespace Xv6.GroupCommit
open Lib

attribute [local simp] Pc.isOp initial Pc.isCommit

variable {ι : Type} {s t : State ι} {active : Finset ι} {committer : Option ι} {p : ι} {es : List (Event ι)}
  {e : Event ι} {b op : Nat} {size : Int} {l : List Nat}

/-! ## Who is where -/

structure Control (s : State ι) (active : Finset ι) (committer : Option ι) : Prop where
  operating : ∀ p, p ∈ active ↔ (s.pc p).isOp = true
  counted : s.log.outstanding = active.card
  committing : ∀ p, committer = some p ↔ (s.pc p).isCommit = true
  flagged : s.log.committing = committer.isSome
  quiet : committer.isSome → active = ∅

theorem Control.outstanding_pos (c : Control s active committer)
    (inside : s.pc p = .inOp op) : 1 ≤ s.log.outstanding := by
  have here : p ∈ active := (c.operating p).mpr (by simp [inside])
  have positive : 0 < active.card := Finset.card_pos.mpr ⟨p, here⟩
  have := c.counted
  omega

theorem Control.not_committing (c : Control s active committer) (inside : s.pc p = .inOp op) : committer = none := by
  have here : p ∈ active := (c.operating p).mpr (by simp [inside])
  cases who : committer with
  | none => rfl
  | some q => simp [c.quiet (by simp [who])] at here

theorem control_initial (size : Int) : Control (initial ι size) ∅ none :=
  ⟨by simp, rfl, by simp, rfl, by simp⟩

/-! ## Which transaction a write belongs to -/

def InGroup (s : State ι) (b : Nat) : Prop :=
  ∃ w ∈ s.writes, w.tx = s.committed.length ∧ w.block = b

structure History (s : State ι) : Prop where
  tagged : ∀ w ∈ s.writes, w.tx ≤ s.committed.length
  landed : ∀ w ∈ s.writes, ∀ tx, s.committed[w.tx]? = some tx → w.block ∈ tx
  collecting : (∀ p, (s.pc p).pastHead = false) → s.log.lh.Nodup ∧ ∀ b, b ∈ s.log.lh ↔ InGroup s b
  closed : ∀ p, (s.pc p).pastHead = true → ∀ w ∈ s.writes, w.tx < s.committed.length
  cleared : ∀ p, s.pc p = .commit .eraseHead ∨ s.pc p = .commit .finish → s.log.lh = []
  current : ∀ p op, s.pc p = .inOp op → ∀ w ∈ s.writes, w.op = op → w.tx = s.committed.length
  uniform : ∀ v ∈ s.writes, ∀ w ∈ s.writes, v.op = w.op → v.tx = w.tx
  begun : ∀ w ∈ s.writes, w.op < s.started
  numbered : ∀ p op, s.pc p = .inOp op → op < s.started

theorem Control.not_pastHead (c : Control s active committer) (nobody : committer = none) (q : ι) :
    (s.pc q).pastHead = false := by
  have := c.committing q
  cases place : s.pc q <;> simp_all [Pc.pastHead]

structure Inv (size : Int) (s : State ι) : Prop where
  control : ∃ active committer, Control s active committer
  history : History s
  bracketed : s.panicked ≠ some .committing ∧ s.panicked ≠ some .outsideTrans
  sized : s.log.size = size

theorem inv_initial (size : Int) : Inv size (initial ι size) where
  control := ⟨∅, none, control_initial size⟩
  history := by constructor <;> simp [InGroup, Pc.pastHead]
  bracketed := by simp
  sized := rfl

theorem History.one_transaction (h : History s) (op : Nat) :
    ∃ tx, ∀ w ∈ s.writes, w.op = op → w.tx = tx ∧
      match s.committed[tx]? with
      | some blocks => w.block ∈ blocks
      | none => w.block ∈ s.log.lh := by
  by_cases logged : ∃ v ∈ s.writes, v.op = op
  · obtain ⟨v, member, rfl⟩ := logged
    refine ⟨v.tx, fun w here same => ?_⟩
    have equal := h.uniform w here v member same
    refine ⟨equal, ?_⟩
    cases found : s.committed[v.tx]? with
    | some blocks => exact h.landed w here blocks (by rw [equal, found])
    | none =>
      have beyond := List.getElem?_eq_none_iff.mp found
      have last : w.tx = s.committed.length := by
        have := h.tagged w here
        omega
      refine ((h.collecting fun q => ?_).2 w.block).mpr ⟨w, here, last, rfl⟩
      by_contra past
      have := h.closed q (by simpa using past) w here
      omega
  · exact ⟨0, fun w here same => absurd ⟨w, here, same⟩ logged⟩

def groupBlocks (s : State ι) : Finset Nat :=
  ((s.writes.filter (·.tx = s.committed.length)).map (·.block)).toFinset

theorem mem_groupBlocks : b ∈ groupBlocks s ↔ InGroup s b := by
  simp [groupBlocks, InGroup, and_assoc]

theorem Inv.length_lh (inv : Inv size s) {p : ι}
    (inside : s.pc p = .inOp op) : s.log.lh.length = (groupBlocks s).card := by
  obtain ⟨active, committer, c⟩ := inv.control
  obtain ⟨distinct, members⟩ := inv.history.collecting (c.not_pastHead (c.not_committing inside))
  have same : s.log.lh.toFinset = groupBlocks s := by
    ext b
    rw [List.mem_toFinset, mem_groupBlocks, members]
  rw [← same, List.toFinset_card_of_nodup distinct]

variable [DecidableEq ι]

/-! ## Steps -/

section

variable (c : Control s active committer)

include c

theorem control_beginOp (h : step s (.beginOp p) = some t) : ∃ active', Control t active' committer := by
  have operating := c.operating
  have committing := c.committing
  obtain ⟨free, rfl | ⟨log, ⟨idle, -, rfl⟩, rfl⟩⟩ := step_beginOp h
  · exact ⟨active, by grind [Pc.isOp], c.counted, by grind [Pc.isCommit], c.flagged, c.quiet⟩
  · have outside : p ∉ active := by grind [Pc.isOp]
    refine ⟨insert p active, ?_, ?_, ?_, c.flagged, ?_⟩
    · grind [Pc.isOp]
    · rw [Finset.card_insert_of_notMem outside]
      simp [c.counted]
    · grind [Pc.isCommit]
    · simp [← c.flagged, idle]

theorem control_logWrite (h : step s (.logWrite p b) = some t) : Control t active committer := by
  obtain ⟨op, inside, ⟨-, rfl⟩ | ⟨-, -, ⟨-, rfl⟩ | rfl⟩⟩ := step_logWrite h <;>
    exact ⟨c.operating, c.counted, c.committing, c.flagged, c.quiet⟩

theorem control_endOp (h : step s (.endOp p) = some t) : ∃ active' committer', Control t active' committer' := by
  have operating := c.operating
  have committing := c.committing
  have counted := c.counted
  obtain ⟨op, inside, ⟨-, rfl⟩ | ⟨idle, last, rfl⟩ | ⟨idle, more, rfl⟩⟩ := step_endOp h
  · exact ⟨active, committer, c.operating, c.counted, c.committing, c.flagged, c.quiet⟩
  all_goals
    have nobody : committer = none := c.not_committing inside
    have here : p ∈ active := (operating p).mpr (by simp [inside])
    have erased := Finset.card_erase_of_mem here
    have positive : 0 < active.card := Finset.card_pos.mpr ⟨p, here⟩
  · refine ⟨active.erase p, some p, ?_, by simp only; omega, ?_, rfl, ?_⟩
    · grind [Pc.isOp]
    · grind [Pc.isCommit]
    · intro _
      exact Finset.card_eq_zero.mp (by omega)
  · refine ⟨active.erase p, committer, ?_, by simp only; omega, ?_, c.flagged, ?_⟩
    · grind [Pc.isOp]
    · grind [Pc.isCommit]
    · simp [nobody]

theorem control_commit (h : step s (.commit p) = some t) : ∃ committer', Control t active committer' := by
  have operating := c.operating
  have committing := c.committing
  obtain ⟨place, here, rfl⟩ := step_commit h
  have who : committer = some p := (committing p).mpr (by simp [here])
  cases place with
  | finish =>
    simp only [commitStep]
    exact ⟨none, by grind [Pc.isOp], c.counted, by grind [Pc.isCommit], rfl, by simp⟩
  | _ =>
    refine ⟨some p, ?_⟩
    simp only [commitStep]
    try split_ifs
    all_goals
      refine ⟨by grind [Pc.isOp], c.counted, by grind [Pc.isCommit], ?_, fun _ => c.quiet (by simp [who])⟩
      simpa [who] using c.flagged

end

theorem control_step (h : step s e = some t) (c : ∃ active committer, Control s active committer) :
    ∃ active committer, Control t active committer := by
  obtain ⟨active, committer, c⟩ := c
  cases e with
  | beginOp p =>
    obtain ⟨active', c'⟩ := control_beginOp c h
    exact ⟨active', committer, c'⟩
  | logWrite p b => exact ⟨active, committer, control_logWrite c h⟩
  | endOp p => exact control_endOp c h
  | commit p =>
    obtain ⟨committer', c'⟩ := control_commit c h
    exact ⟨active, committer', c'⟩

theorem mem_recordBlock {x : Nat} : x ∈ recordBlock l b ↔ x ∈ l ∨ x = b := by
  induction l with
  | nil => simp [recordBlock]
  | cons y l ih => grind [recordBlock]

theorem nodup_recordBlock (b : Nat) (distinct : l.Nodup) : (recordBlock l b).Nodup := by
  induction l with
  | nil => simp [recordBlock]
  | cons y l ih => grind [recordBlock, mem_recordBlock]

theorem History.goto (h : History s) {pc : Pc} {log : Log} (same : log.lh = s.log.lh)
    (past : pc.pastHead = (s.pc p).pastHead) (cleared : pc = .commit .eraseHead ∨ pc = .commit .finish → s.log.lh = [])
    (outside : ∀ op, pc ≠ .inOp op) : History { s.goto p pc with log := log } := by
  have pastHead : ∀ q, ((s.goto p pc).pc q).pastHead = (s.pc q).pastHead := by grind
  refine ⟨h.tagged, h.landed, ?_, ?_, ?_, ?_, h.uniform, h.begun, ?_⟩
  · grind [InGroup, h.collecting]
  · intro q past
    exact h.closed q (by rwa [pastHead q] at past)
  · intro q there
    have := h.cleared
    grind
  · intro q op there
    have := h.current
    grind
  · intro q op there
    have := h.numbered
    grind [State.goto]

theorem history_beginOp (c : Control s active committer) (h : History s) (taken : step s (.beginOp p) = some t) :
    History t := by
  obtain ⟨free, rfl | ⟨log, ⟨idle, -, rfl⟩, rfl⟩⟩ := step_beginOp taken
  · exact h.goto rfl (by rcases free with free | free <;> simp [free, Pc.pastHead]) (by simp) (by simp)
  · have nobody : committer = none := by
      have := c.flagged
      cases committer <;> simp_all
    have quiet := c.not_pastHead nobody
    refine ⟨h.tagged, h.landed, fun _ => h.collecting quiet, ?_, ?_, ?_, h.uniform, ?_, ?_⟩
    · grind [Pc.pastHead]
    · have := h.cleared
      grind
    · have := h.begun
      have := h.current
      grind
    · have := h.begun
      grind
    · have := h.numbered
      grind

theorem history_logWrite (c : Control s active committer) (h : History s) (taken : step s (.logWrite p b) = some t) :
    History t := by
  obtain ⟨op, inside, ⟨-, rfl⟩ | ⟨-, -, ⟨-, rfl⟩ | rfl⟩⟩ := step_logWrite taken
  · exact { h with }
  · exact { h with }
  have quiet := c.not_pastHead (c.not_committing inside)
  obtain ⟨distinct, members⟩ := h.collecting quiet
  refine ⟨?_, ?_, fun _ => ⟨nodup_recordBlock b distinct, ?_⟩, ?_, ?_, ?_, ?_, ?_, h.numbered⟩
  · have := h.tagged
    grind
  · have := h.landed
    grind
  · intro x
    simp only [mem_recordBlock, members, InGroup, List.mem_cons, exists_eq_or_imp, true_and]
    grind
  · grind
  · intro q there
    have past : (s.pc q).pastHead = true := by
      rcases there with there | there <;> exact (congrArg Pc.pastHead there).trans rfl
    simp [quiet q] at past
  · have := h.current
    grind
  · have := h.uniform
    have := h.current p op inside
    grind
  · have := h.begun
    have := h.numbered p op inside
    grind

theorem history_endOp (h : History s) (taken : step s (.endOp p) = some t) : History t := by
  obtain ⟨op, inside, ⟨-, rfl⟩ | ⟨-, -, rfl⟩ | ⟨-, -, rfl⟩⟩ := step_endOp taken
  · exact { h with }
  · exact h.goto rfl (by simp [inside, Pc.pastHead]) (by simp) (by simp)
  · exact h.goto rfl (by simp [inside, Pc.pastHead]) (by simp) (by simp)

theorem history_writeHead (c : Control s active committer) (h : History s) (here : s.pc p = .commit .writeHead) :
    History (commitStep s p .writeHead) := by
  have who : committer = some p := (c.committing p).mpr (by simp [here])
  have noOp : ∀ q op, s.pc q ≠ .inOp op := by grind [c.not_committing]
  have quiet : ∀ q, (s.pc q).pastHead = false := by
    intro q
    have := c.committing q
    by_cases same : q = p
    · simp [same, here, Pc.pastHead]
    · cases place : s.pc q <;> simp_all [Pc.pastHead]
  obtain ⟨-, members⟩ := h.collecting quiet
  have tagged := h.tagged
  simp only [commitStep]
  refine ⟨?_, ?_, ?_, ?_, ?_, ?_, h.uniform, h.begun, ?_⟩
  · grind
  · intro w member tx found
    -- the transaction just closed is `lh`; the older ones are where they were
    rcases Nat.lt_or_ge w.tx s.committed.length with old | new
    · grind [h.landed]
    · have last : w.tx = s.committed.length := by
        have := tagged w member
        omega
      have : s.log.lh = tx := by simpa [last] using found
      rw [← this, members]
      exact ⟨w, member, last, rfl⟩
  · intro none
    simpa [Pc.pastHead] using none p
  · grind
  · have := h.cleared
    grind
  · grind
  · grind

theorem History.settled (h : History s) {pc : Pc} {log : Log} {header : List Nat}
    (others : ∀ q, q ≠ p → (s.pc q).isOp = false ∧ (s.pc q).isCommit = false)
    (landed : ∀ w ∈ s.writes, w.tx < s.committed.length) (outside : ∀ op, pc ≠ .inOp op)
    (reset : pc.pastHead = false ∨ pc = .commit .eraseHead ∨ pc = .commit .finish → log.lh = []) :
    History { s.goto p pc with log := log, header := header } := by
  refine ⟨h.tagged, h.landed, ?_, fun _ _ => landed, ?_, ?_, h.uniform, h.begun, ?_⟩
  · intro quiet
    have empty : log.lh = [] := reset (.inl (by simpa using quiet p))
    refine ⟨by simp [empty], fun b => ?_⟩
    simp only [empty, List.not_mem_nil, InGroup, goto_writes, goto_committed, false_iff]
    rintro ⟨w, member, last, -⟩
    have := landed w member
    omega
  all_goals
    intro q
    by_cases same : q = p
    · grind
    · cases there : s.pc q <;> grind [Pc.isOp, Pc.isCommit]

theorem history_commit (c : Control s active committer) (h : History s) (taken : step s (.commit p) = some t) :
    History t := by
  obtain ⟨place, here, rfl⟩ := step_commit taken
  have who : committer = some p := (c.committing p).mpr (by simp [here])
  have others : ∀ q, q ≠ p → (s.pc q).isOp = false ∧ (s.pc q).isCommit = false := by
    intro q other
    have idle := c.quiet (by simp [who])
    have operating := c.operating q
    have committing := c.committing q
    grind
  cases place with
  | start =>
    simp only [commitStep]
    split_ifs with some
    · exact h.goto rfl (by simp [here, Pc.pastHead]) (by simp) (by simp)
    · have empty : s.log.lh = [] := by simpa using some
      have quiet : ∀ q, (s.pc q).pastHead = false := by
        intro q
        by_cases same : q = p
        · simp [same, here, Pc.pastHead]
        · have := others q same
          cases there : s.pc q <;> simp_all [Pc.pastHead]
      refine h.settled others ?_ (by simp) (fun _ => empty)
      intro w member
      have notYet : ¬ InGroup s w.block := by
        rw [← (h.collecting quiet).2]
        simp [empty]
      have := h.tagged w member
      have : w.tx ≠ s.committed.length := fun last => notYet ⟨w, member, last, rfl⟩
      omega
  | writeLog tail | install tail =>
    simp only [commitStep]
    split_ifs
    all_goals exact h.goto rfl (by simp [here, Pc.pastHead]) (by simp) (by simp)
  | writeHead => exact history_writeHead c h here
  | clear =>
    exact h.settled others (h.closed p (by simp [here, Pc.pastHead])) (by simp) (fun _ => rfl)
  | eraseHead =>
    exact h.settled others (h.closed p (by simp [here, Pc.pastHead])) (by simp) (fun _ => h.cleared p (.inl here))
  | finish =>
    exact h.settled others (h.closed p (by simp [here, Pc.pastHead])) (by simp) (fun _ => h.cleared p (.inr here))

/-! ## Every interleaving -/

theorem bracketed_step (c : Control s active committer) (unpanicked : s.panicked = none)
    (taken : step s e = some t) : t.panicked ≠ some .committing ∧ t.panicked ≠ some .outsideTrans := by
  cases e with
  | beginOp p =>
    obtain ⟨-, rfl | ⟨log, -, rfl⟩⟩ := step_beginOp taken <;> simp [unpanicked]
  | logWrite p b => grind [step_logWrite, c.outstanding_pos]
  | endOp p =>
    obtain ⟨op, inside, ⟨busy, rfl⟩ | ⟨-, -, rfl⟩ | ⟨-, -, rfl⟩⟩ := step_endOp taken
    · rw [c.flagged, c.not_committing inside] at busy
      simp at busy
    · simp [unpanicked]
    · simp [unpanicked]
  | commit p =>
    obtain ⟨place, -, rfl⟩ := step_commit taken
    cases place <;> simp only [commitStep] <;> (try split_ifs) <;> simp [unpanicked]

theorem size_step (taken : step s e = some t) : t.log.size = s.log.size := by
  cases e with
  | beginOp p =>
    obtain ⟨-, rfl | ⟨log, ⟨-, -, rfl⟩, rfl⟩⟩ := step_beginOp taken <;> rfl
  | logWrite p b =>
    obtain ⟨op, -, ⟨-, rfl⟩ | ⟨-, -, ⟨-, rfl⟩ | rfl⟩⟩ := step_logWrite taken <;> rfl
  | endOp p =>
    obtain ⟨op, -, ⟨-, rfl⟩ | ⟨-, -, rfl⟩ | ⟨-, -, rfl⟩⟩ := step_endOp taken <;> rfl
  | commit p =>
    obtain ⟨place, -, rfl⟩ := step_commit taken
    cases place <;> simp only [commitStep] <;> (try split_ifs) <;> rfl

theorem inv_step (taken : step s e = some t) (inv : Inv size s) : Inv size t := by
  obtain ⟨active, committer, c⟩ := inv.control
  refine ⟨control_step taken inv.control, ?_, bracketed_step c (step_unpanicked taken) taken,
    (size_step taken).trans inv.sized⟩
  cases e with
  | beginOp p => exact history_beginOp c inv.history taken
  | logWrite p b => exact history_logWrite c inv.history taken
  | endOp p => exact history_endOp inv.history taken
  | commit p => exact history_commit c inv.history taken

theorem inv_run (reached : run step (initial ι size) es = some s) : Inv size s :=
  run_inductive (fun _ _ _ taken inv => inv_step taken inv) (inv_initial size) reached

theorem group_commit_never_splits {size : Int} {es : List (Event ι)} (reached : run step (initial ι size) es = some s) :
    (∀ p place, s.pc p = .commit place → ∀ q op, s.pc q ≠ .inOp op) ∧
    (∀ p q a b, s.pc p = .commit a → s.pc q = .commit b → p = q) ∧
    (∃ active : Finset ι, (∀ p, p ∈ active ↔ ∃ op, s.pc p = .inOp op) ∧ s.log.outstanding = active.card) ∧
    s.panicked ≠ some .committing ∧ s.panicked ≠ some .outsideTrans ∧
    ∀ op, ∃ tx, ∀ w ∈ s.writes, w.op = op → w.tx = tx ∧
      match s.committed[tx]? with
      | some blocks => w.block ∈ blocks
      | none => w.block ∈ s.log.lh := by
  have inv := inv_run reached
  obtain ⟨active, committer, c⟩ := inv.control
  have committing {p : ι} {place : CommitPc} (h : s.pc p = .commit place) : committer = some p :=
    (c.committing p).mpr (by simp [h])
  refine ⟨?_, ?_, ⟨active, ?_, c.counted⟩, inv.bracketed.1, inv.bracketed.2, inv.history.one_transaction⟩
  · grind [c.not_committing]
  · grind
  · intro p
    rw [c.operating p]
    cases s.pc p <;> simp

def sharedRun : List (Event Bool) :=
  [.beginOp false, .logWrite false 40, .beginOp true, .logWrite true 41, .endOp false,
    .logWrite true 40, .endOp true, .commit true, .beginOp false] ++
  List.replicate 10 (.commit true) ++ [.beginOp false, .logWrite false 42]

theorem sharedRun_never_splits :
    ∃ s, run step (initial Bool LOGSIZE) sharedRun = some s ∧
      s.committed = [[40, 41]] ∧ s.log.lh = [42] ∧
      (∀ p place, s.pc p = .commit place → ∀ q op, s.pc q ≠ .inOp op) ∧
      ∃ tx, ∀ w ∈ s.writes, w.op = 1 → w.tx = tx ∧
        match s.committed[tx]? with
        | some blocks => w.block ∈ blocks
        | none => w.block ∈ s.log.lh := by
  refine ⟨_, rfl, rfl, rfl, ?_⟩
  have all := group_commit_never_splits (rfl : run step (initial Bool LOGSIZE) sharedRun = some _)
  exact ⟨all.1, all.2.2.2.2.2 1⟩

def Room (s : State ι) : Event ι → Prop
  | .logWrite _ _ => (groupBlocks s).card ≤ LOGSIZE - 2
  | _ => True

theorem tooBig_step_iff (inv : Inv LOGSIZE s) (taken : step s e = some t) : t.panicked = some .tooBig ↔ ¬ Room s e := by
  have unpanicked := step_unpanicked taken
  cases e with
  | beginOp p =>
    obtain ⟨-, rfl | ⟨log, -, rfl⟩⟩ := step_beginOp taken <;> simp [unpanicked, Room]
  | logWrite p b =>
    obtain ⟨op, inside, outcome⟩ := step_logWrite taken
    have length := inv.length_lh inside
    have size := inv.sized
    have capacity : LOGSIZE = 30 := rfl
    simp only [Room]
    rcases outcome with ⟨big, rfl⟩ | ⟨fits, below, ⟨-, rfl⟩ | rfl⟩ <;> simp [unpanicked] <;> omega
  | endOp p =>
    obtain ⟨op, inside, ⟨-, rfl⟩ | ⟨-, -, rfl⟩ | ⟨-, -, rfl⟩⟩ := step_endOp taken <;>
      simp [unpanicked, Room]
  | commit p =>
    obtain ⟨place, -, rfl⟩ := step_commit taken
    cases place <;> simp only [commitStep] <;> (try split_ifs) <;> simp [unpanicked, Room]

theorem run_of_panicked {s t : State ι} (panicked : s.panicked.isSome) (taken : run step s es = some t) :
    es = [] ∧ t = s := by
  cases es with
  | nil => exact ⟨rfl, by simpa using taken.symm⟩
  | cons e es =>
    obtain ⟨u, first, -⟩ := Option.bind_eq_some_iff.mp taken
    simp [step_unpanicked first] at panicked

theorem tooBig_run_iff (inv : Inv LOGSIZE s) (fine : s.panicked ≠ some .tooBig) (taken : run step s es = some t) :
    t.panicked ≠ some .tooBig ↔ Meets step Room s es := by
  induction es generalizing s with
  | nil =>
    obtain rfl : s = t := by simpa using taken
    simp [Meets, fine]
  | cons e es ih =>
    obtain ⟨u, first, rest⟩ := Option.bind_eq_some_iff.mp taken
    have next := inv_step first inv
    have panics := tooBig_step_iff inv first
    by_cases room : Room s e
    · rw [ih next (by simp [panics, room]) rest]
      simp [Meets, room, first]
    · -- the panic stops the run, so it is still there at the end
      have panicked : u.panicked = some .tooBig := panics.mpr room
      obtain ⟨-, rfl⟩ := run_of_panicked (by simp [panicked]) rest
      simp [Meets, room, panicked]

/-- The panic "too big a transaction" is avoided in exactly the runs whose commit groups never call
`log_write` beyond 28 distinct blocks. -/
theorem log_reservation_iff (reached : run step (initial ι LOGSIZE) es = some s) :
    s.panicked ≠ some .tooBig ↔ Meets step Room (initial ι LOGSIZE) es :=
  tooBig_run_iff (inv_initial LOGSIZE) (by simp) reached

def fullOps (n : Nat) : List (Event (Fin 3)) :=
  [.beginOp 0, .beginOp 1, .beginOp 2] ++ (List.range n).map fun i => .logWrite (Fin.ofNat 3 (i / MAXOPBLOCKS)) (100 + i)

def blocksOf (es : List (Event (Fin 3))) (p : Fin 3) : List Nat :=
  es.filterMap fun
    | .logWrite q b => if q = p then some b else none
    | _ => none

theorem log_reservation_iff_run :
    ∃ s, run step (initial (Fin 3) LOGSIZE) (fullOps 29) = some s ∧
      (s.panicked ≠ some .tooBig ↔ Meets step Room (initial (Fin 3) LOGSIZE) (fullOps 29)) :=
  ⟨_, rfl, log_reservation_iff rfl⟩

/-- Three operations of ten blocks each are all admitted and the last `log_write` panics. -/
theorem log_reservation_too_small :
    (∀ p, (blocksOf (fullOps 30) p).Nodup ∧ (blocksOf (fullOps 30) p).length ≤ MAXOPBLOCKS) ∧
      ∃ s, run step (initial (Fin 3) LOGSIZE) (fullOps 30) = some s ∧ s.panicked = some .tooBig :=
  ⟨by decide, _, rfl, rfl⟩

end Xv6.GroupCommit
