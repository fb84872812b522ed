import Xv6.Log.Commit

namespace Xv6.Commit
open Lib Function

/-! ## Crashes and recoveries -/

def crash (d : Disk) (k : Kernel) (n : Nat) : Disk := applyWrites d (k.out.take n)

def recovered (l : Layout) (d : Disk) : Disk := applyWrites d (recoverFromLog l d).out

def recoveries (l : Layout) (d : Disk) (cuts : List Nat) : Disk :=
  cuts.foldl (fun d n => crash d (recoverFromLog l d) n) d

structure Tx (l : Layout) (d : Disk) where
  lh : List Word
  cache : Nat → Block
  fits : Fits l lh
  clean : ∀ b, (∀ x ∈ lh, x.toNat ≠ b) → cache b = d b

def Tx.kernel {l : Layout} {d : Disk} (tx : Tx l d) : Kernel := ⟨tx.lh, tx.cache, []⟩

/-- The disks on which a running kernel can call `commit()`: `initlog` has recovered whatever disk
it found, and since then transactions have committed, or crashed and been recovered. -/
inductive Running (l : Layout) : Disk → Prop
  | boot (d : Disk) (cuts : List Nat) : headN (d l.start) ≤ LOGSIZE →
      Running l (recovered l (recoveries l d cuts))
  | commit {d : Disk} (tx : Tx l d) : Running l d →
      Running l (applyWrites d (commit l tx.kernel).out)
  | crash {d : Disk} (tx : Tx l d) (n : Nat) (cuts : List Nat) : Running l d →
      Running l (recovered l (recoveries l (crash d (commit l tx.kernel) n) cuts))

/-! ## Header blocks -/

variable {lh : List Word}

theorem headN_storeHead (b : Block) (small : lh.length ≤ LOGSIZE) : headN (storeHead b lh) = lh.length := by
  have bound : lh.length ≤ 30 := small
  have small : lh.length % 2 ^ 32 = lh.length := Nat.mod_eq_of_lt (by omega)
  simp only [headN, storeHead, Fin.coe_ofNat_eq_mod, Nat.zero_mod, ↓reduceIte]
  rw [BitVec.toInt_eq_toNat_of_lt] <;> simp only [BitVec.toNat_ofNat, small]
  omega

theorem headBlocks_storeHead (b : Block) (small : lh.length ≤ LOGSIZE) : headBlocks (storeHead b lh) = lh := by
  have bound : lh.length ≤ 30 := small
  unfold headBlocks
  rw [headN_storeHead b small]
  apply List.ext_getElem
  · simp
  · intro i _ below
    have : (i + 1) % 256 = i + 1 := Nat.mod_eq_of_lt (by omega)
    simp [storeHead, this, below]

theorem headBlocks_of_empty {b : Block} (empty : headN b = 0) : headBlocks b = [] := by
  simp [headBlocks, empty]

/-! ## The two states a crash can leave -/

structure Idle (l : Layout) (home d : Disk) : Prop where
  empty : headN (d l.start) = 0
  same : ∀ b, ¬ l.InLog b → d b = home b

structure Committed (l : Layout) (lh : List Word) (after d : Disk) : Prop where
  head : headBlocks (d l.start) = lh
  logged : ∀ tail < lh.length, d (l.start + tail + 1) = after (lh.getD tail 0).toNat
  rest : ∀ b, ¬ l.InLog b → (∀ x ∈ lh, x.toNat ≠ b) → d b = after b

def installs (lh : List Word) (after : Disk) : List (Nat × Block) :=
  (List.range lh.length).map fun tail => ((lh.getD tail 0).toNat, after (lh.getD tail 0).toNat)

section
variable {l : Layout} {lh : List Word} {d home after before : Disk} {w : Nat × Block}

theorem mem_installs : w ∈ installs lh after ↔ ∃ x ∈ lh, w = (x.toNat, after x.toNat) := by
  constructor
  · intro member
    obtain ⟨tail, below, rfl⟩ := List.mem_map.mp member
    have below := List.mem_range.mp below
    exact ⟨lh[tail], List.getElem_mem below, by simp [below]⟩
  · rintro ⟨x, member, rfl⟩
    obtain ⟨tail, below, rfl⟩ := List.getElem_of_mem member
    exact List.mem_map.mpr ⟨tail, List.mem_range.mpr below, by simp [below]⟩

theorem start_inLog (room : lh.length < l.size) : l.InLog l.start :=
  ⟨le_rfl, by omega⟩

theorem Layout.InLog.ne {a b : Nat} (inside : l.InLog a) (outside : ¬ l.InLog b) : a ≠ b := by
  rintro rfl
  exact outside inside

section

variable (fits : Fits l lh) (c : Committed l lh after d)

include fits c

theorem Committed.install (member : w ∈ installs lh after) : Committed l lh after (update d w.1 w.2) := by
  obtain ⟨x, listed, rfl⟩ := mem_installs.mp member
  have outside := fits.outside x listed
  refine ⟨?_, ?_, ?_⟩
  · rw [update_of_ne ((start_inLog fits.room).ne outside)]
    exact c.head
  · grind [fits.slot_inLog, c.logged]
  · grind [c.rest]

theorem Committed.finish (x : Block) :
    Idle l after (update (applyWrites d (installs lh after)) l.start (storeHead x [])) := by
  constructor
  · rw [update_self]
    exact headN_storeHead x (by simp)
  · intro b notLog
    rw [update_of_ne ((start_inLog fits.room).ne notLog).symm]
    by_cases listed : ∃ y ∈ lh, y.toNat = b
    · obtain ⟨y, member, rfl⟩ := listed
      apply applyWrites_of_mem ⟨_, mem_installs.mpr ⟨y, member, rfl⟩, rfl⟩
      intro w written same
      obtain ⟨z, -, rfl⟩ := mem_installs.mp written
      simp only at same
      rw [same]
    · grind [applyWrites_of_not_mem, c.rest, mem_installs.mp]

theorem Committed.crash (x : Block) (n : Nat) :
    Committed l lh after (applyWrites d ((installs lh after ++ [(l.start, storeHead x [])]).take n)) ∨
      Idle l after (applyWrites d ((installs lh after ++ [(l.start, storeHead x [])]).take n)) := by
  have installing (j : Nat) : Committed l lh after (applyWrites d ((installs lh after).take j)) :=
    applyWrites_take_invariant (fun _ _ member c => c.install fits member) c j
  rcases applyWrites_take_append d (installs lh after) [(l.start, storeHead x [])] n with
    ⟨j, cut⟩ | ⟨j, cut⟩
  · exact .inl (cut ▸ installing j)
  · rw [cut]
    cases j with
    | zero => exact .inl (by simpa using installing (installs lh after).length)
    | succ j => exact .inr (by simpa using c.finish fits x)

end

/-! ## What recovery writes -/

theorem recoverFromLog_out (l : Layout) (d : Disk) : ∃ ws x,
    (recoverFromLog l d).out = ws ++ [(l.start, storeHead x [])] ∧
      ws = (installTrans l ⟨headBlocks (d l.start), d, []⟩).out := by
  refine ⟨_, (installTrans l ⟨headBlocks (d l.start), d, []⟩).cache l.start, ?_, rfl⟩
  simp [recoverFromLog, readHead, writeHead, Kernel.fill, Kernel.bwrite]

theorem Committed.recover_out (fits : Fits l lh) (c : Committed l lh after d) :
    ∃ x, (recoverFromLog l d).out = installs lh after ++ [(l.start, storeHead x [])] := by
  obtain ⟨ws, x, whole, installed⟩ := recoverFromLog_out l d
  refine ⟨x, ?_⟩
  rw [whole, installed, c.head, installTrans_eq fits]
  simp only [List.nil_append, homeWrites, installs, Kernel.home]
  congr 1
  apply List.map_congr_left
  intro tail below
  rw [c.logged tail (List.mem_range.mp below)]

theorem Idle.recover_out (i : Idle l home d) : ∃ x, (recoverFromLog l d).out = [(l.start, storeHead x [])] := by
  obtain ⟨ws, x, whole, installed⟩ := recoverFromLog_out l d
  refine ⟨x, ?_⟩
  rw [whole, installed, headBlocks_of_empty i.empty]
  rfl

theorem Idle.erase (i : Idle l home d) (room : l.InLog l.start) (x : Block) :
    Idle l home (update d l.start (storeHead x [])) := by
  constructor
  · rw [update_self]
    exact headN_storeHead x (by simp)
  · grind [i.same]

/-! ## Crash states -/

def AfterCrash (l : Layout) (lh : List Word) (before after d : Disk) : Prop :=
  Idle l before d ∨ Committed l lh after d ∨ Idle l after d

section

variable (fits : Fits l lh) (a : AfterCrash l lh before after d)

include fits a

theorem AfterCrash.recover_cut (n : Nat) : AfterCrash l lh before after (crash d (recoverFromLog l d) n) := by
  have inLog := start_inLog fits.room
  have idle {home : Disk} (i : Idle l home d) : Idle l home (crash d (recoverFromLog l d) n) := by
    obtain ⟨x, out⟩ := i.recover_out
    rw [crash, out]
    exact applyWrites_take_invariant (fun d w member i => by rw [List.mem_singleton.mp member]; exact i.erase inLog x) i n
  rcases a with i | c | i
  · exact .inl (idle i)
  · obtain ⟨x, out⟩ := c.recover_out fits
    rw [crash, out]
    exact .inr (c.crash fits x n)
  · exact .inr (.inr (idle i))

theorem AfterCrash.recoveries (cuts : List Nat) : AfterCrash l lh before after (recoveries l d cuts) := by
  induction cuts generalizing d with
  | nil => exact a
  | cons n cuts ih => exact ih (a.recover_cut fits n)

theorem AfterCrash.recovered : Idle l before (recovered l d) ∨ Idle l after (recovered l d) := by
  have inLog := start_inLog fits.room
  have idle {home : Disk} (i : Idle l home d) : Idle l home (Commit.recovered l d) := by
    obtain ⟨x, out⟩ := i.recover_out
    rw [Commit.recovered, out]
    exact i.erase inLog x
  rcases a with i | c | i
  · exact .inl (idle i)
  · obtain ⟨x, out⟩ := c.recover_out fits
    rw [Commit.recovered, out, applyWrites_append]
    exact .inr (c.finish fits x)
  · exact .inr (idle i)

end

/-! ## What a commit writes -/

theorem applyWrites_logWrites {k : Kernel} {tail : Nat} (below : tail < k.lh.length) :
    applyWrites d (logWrites l k) (l.start + tail + 1) = k.cache (k.home tail) := by
  apply applyWrites_of_mem
  · exact ⟨_, List.mem_map.mpr ⟨tail, List.mem_range.mpr below, rfl⟩, rfl⟩
  · intro w member same
    obtain ⟨i, -, rfl⟩ := List.mem_map.mp member
    obtain rfl : i = tail := by simpa using same
    rfl

theorem commit_out (tx : Tx l d) (nonempty : tx.lh ≠ []) : ∃ x y,
    (commit l tx.kernel).out = logWrites l tx.kernel ++
      ((l.start, storeHead x tx.lh) :: (installs tx.lh tx.cache ++ [(l.start, storeHead y [])])) := by
  have fits : Fits l tx.kernel.lh := tx.fits
  have positive : tx.kernel.lh.length > 0 := List.length_pos_iff.mpr nonempty
  let logged := applyWrites tx.cache (logWrites l tx.kernel)
  let headed := update logged l.start (storeHead (logged l.start) tx.lh)
  have slot (tail : Nat) (below : tail < tx.lh.length) :
      headed (l.start + tail + 1) = tx.cache (tx.lh.getD tail 0).toNat := by
    rw [show headed (l.start + tail + 1) = logged (l.start + tail + 1) from
      update_of_ne (by omega) _ _]
    exact applyWrites_logWrites below
  refine ⟨logged l.start, applyWrites headed (installs tx.lh tx.cache) l.start, ?_⟩
  have moved : homeWrites l ⟨tx.lh, headed, logWrites l tx.kernel ++
      [(l.start, storeHead (logged l.start) tx.lh)]⟩ = installs tx.lh tx.cache := by
    apply List.map_congr_left
    intro tail below
    simp only [Kernel.home, slot tail (List.mem_range.mp below)]
  have head : writeHead l (writeLog l tx.kernel) = ⟨tx.lh, headed, logWrites l tx.kernel ++
      [(l.start, storeHead (logged l.start) tx.lh)]⟩ := by
    rw [writeLog_eq fits]
    simp [writeHead, Kernel.fill, Kernel.bwrite, Tx.kernel, headed, logged]
  simp only [commit, positive, ↓reduceIte]
  rw [head, installTrans_eq tx.fits, moved]
  simp [writeHead, Kernel.fill, Kernel.bwrite]

theorem commit_crash (idle : headN (d l.start) = 0) (tx : Tx l d) (n : Nat) :
    AfterCrash l tx.lh d tx.cache (crash d (commit l tx.kernel) n) := by
  have inLog := start_inLog tx.fits.room
  have start : Idle l d d := ⟨idle, fun _ _ => rfl⟩
  by_cases none : tx.lh = []
  · exact .inl (by simpa [crash, commit, Tx.kernel, none] using start)
  obtain ⟨x, y, out⟩ := commit_out tx none
  have logging (j : Nat) : Idle l d (applyWrites d ((logWrites l tx.kernel).take j)) := by
    apply applyWrites_take_invariant _ start j
    intro d' w member i
    obtain ⟨tail, below, rfl⟩ := List.mem_map.mp member
    have slot := tx.fits.slot_inLog (List.mem_range.mp below)
    constructor
    · rw [update_of_ne (by omega)]
      exact i.empty
    · grind [i.same]
  have headed : Committed l tx.lh tx.cache (update
      (applyWrites d (logWrites l tx.kernel)) l.start (storeHead x tx.lh)) := by
    refine ⟨?_, ?_, ?_⟩
    · rw [update_self, headBlocks_storeHead x tx.fits.bounded]
    · intro tail below
      rw [update_of_ne (by omega)]
      exact applyWrites_logWrites below
    · intro b notLog other
      rw [update_of_ne (inLog.ne notLog).symm, tx.clean b other]
      have := (logging (logWrites l tx.kernel).length).same b notLog
      simpa using this
  rw [crash, out]
  rcases applyWrites_take_append d (logWrites l tx.kernel) _ n with ⟨j, cut⟩ | ⟨j, cut⟩
  · exact .inl (cut ▸ logging j)
  · rw [cut]
    cases j with
    | zero => exact .inl (by simpa using logging (logWrites l tx.kernel).length)
    | succ j => exact .inr (by simpa using headed.crash tx.fits y j)

/-! ## Every history of transactions and crashes -/

theorem recovered_empty (l : Layout) (d : Disk) : headN (recovered l d l.start) = 0 := by
  obtain ⟨ws, x, whole, -⟩ := recoverFromLog_out l d
  rw [recovered, whole, applyWrites_append, applyWrites_cons, applyWrites_nil, update_self]
  exact headN_storeHead x (by simp)

theorem Running.empty (running : Running l d) : headN (d l.start) = 0 := by
  induction running with
  | boot d cuts | crash tx n cuts => exact recovered_empty l _
  | commit tx _ ih =>
    by_cases none : tx.lh = []
    · simpa [Commit.commit, Tx.kernel, none] using ih
    · obtain ⟨x, y, out⟩ := commit_out tx none
      rw [out, applyWrites_append, applyWrites_cons, applyWrites_append, applyWrites_cons, applyWrites_nil, update_self]
      exact headN_storeHead y (by simp)

/-- Whatever write of `commit()` the crash cuts off, and however often recovery is cut off after
that, the recovered disk shows the whole transaction or nothing of it, and an empty log. -/
theorem commit_crash_atomic (running : Running l d) (tx : Tx l d) (n : Nat) (cuts : List Nat) :
    let final := recovered l (recoveries l (crash d (commit l tx.kernel) n) cuts)
    ((∀ b, ¬ l.InLog b → final b = d b) ∨ (∀ b, ¬ l.InLog b → final b = tx.cache b)) ∧ headN (final l.start) = 0 := by
  have crashed := (commit_crash running.empty tx n).recoveries tx.fits cuts
  rcases crashed.recovered tx.fits with i | i
  · exact ⟨.inl i.same, i.empty⟩
  · exact ⟨.inr i.same, i.empty⟩

end

def sampleLayout : Layout := ⟨2, LOGSIZE⟩

def sampleDisk : Disk := recovered sampleLayout (recoveries sampleLayout (fun _ _ => 0) [])

def sampleTx : Tx sampleLayout sampleDisk where
  lh := [50, 60]
  cache b := if b = 50 then fun _ => 7 else if b = 60 then fun _ => 9 else sampleDisk b
  fits := ⟨by simp [Layout.InLog, sampleLayout, LOGSIZE, MAXOPBLOCKS],
    by simp [sampleLayout, LOGSIZE, MAXOPBLOCKS], by simp [LOGSIZE, MAXOPBLOCKS]⟩
  clean b other := by
    have first : b ≠ 50 := fun same => other 50 (by simp) (by simp [same])
    have second : b ≠ 60 := fun same => other 60 (by simp) (by simp [same])
    simp [first, second]

/-- Cut off after the first home write, then twice during recovery. -/
theorem sampleTx_crash_atomic :
    let final := recovered sampleLayout
      (recoveries sampleLayout (crash sampleDisk (commit sampleLayout sampleTx.kernel) 4) [1, 0])
    final 60 0 = 9 ∧
      ((∀ b, ¬ sampleLayout.InLog b → final b = sampleDisk b) ∨
        (∀ b, ¬ sampleLayout.InLog b → final b = sampleTx.cache b)) ∧
      headN (final sampleLayout.start) = 0 :=
  ⟨by decide +kernel, commit_crash_atomic (.boot (fun _ _ => 0) [] (by decide)) sampleTx 4 [1, 0]⟩

/-! ## The log as a store -/

/-- A transaction; if it is cut off, after how many writes, and then those of each recovery. -/
structure Attempt (l : Layout) where
  lh : List Word
  data : Disk
  fits : Fits l lh
  cut : Option (Nat × List Nat)

section
variable {l : Layout} {d : Disk}

def Attempt.apply (home : Disk) (t : Attempt l) : Disk := fun b => if ∃ x ∈ t.lh, x.toNat = b then t.data b else home b

def Attempt.tx (d : Disk) (t : Attempt l) : Tx l d :=
  ⟨t.lh, t.apply d, t.fits, fun b other => if_neg (by simpa using other)⟩

def Attempt.exec (d : Disk) (t : Attempt l) : Disk :=
  let k := commit l (t.tx d).kernel
  match t.cut with
  | none => applyWrites d k.out
  | some (n, cuts) => recovered l (recoveries l (crash d k n) cuts)

theorem Tx.complete (tx : Tx l d) (idle : headN (d l.start) = 0) :
    Idle l tx.cache (applyWrites d (commit l tx.kernel).out) := by
  by_cases none : tx.lh = []
  · refine ⟨by simpa [commit, Tx.kernel, none] using idle, fun b _ => ?_⟩
    simp [commit, Tx.kernel, none, tx.clean b]
  · obtain ⟨x, y, out⟩ := commit_out tx none
    -- a crash right after the header finds it full
    have headed := commit_crash idle tx ((logWrites l tx.kernel).length + 1)
    simp only [crash, out, List.take_length_add_append, List.take_succ_cons, List.take_zero, applyWrites_append,
      applyWrites_cons, applyWrites_nil] at headed ⊢
    rcases headed with i | c | i
    · simpa [headN_storeHead, tx.fits.bounded, none] using i.empty
    · exact c.finish tx.fits y
    · simpa [headN_storeHead, tx.fits.bounded, none] using i.empty

/-- Whatever is cut off, the disk holds what the transactions that finished, and some of the others, have
written: each as a whole, in their order. -/
theorem log_is_store (d : Disk) (ts : List (Attempt l)) : let start := recovered l d
    ∃ done, done.Sublist ts ∧ (ts.filter (·.cut.isNone)).Sublist done ∧
      Idle l (done.foldl Attempt.apply start) (ts.foldl Attempt.exec start) := by
  intro start
  induction ts using List.reverseRecOn with
  | nil => exact ⟨[], .slnil, .slnil, recovered_empty l d, fun _ _ => rfl⟩
  | append_singleton ts t ih =>
    obtain ⟨done, among, all, idle⟩ := ih
    rw [List.foldl_concat, List.filter_append]
    set d := ts.foldl Attempt.exec start
    have outcome : Idle l (t.apply d) (t.exec d) ∨ t.cut ≠ none ∧ Idle l d (t.exec d) := by
      unfold Attempt.exec
      cases t.cut with
      | none => exact .inl ((t.tx d).complete idle.empty)
      | some crashes =>
        have crashed := (commit_crash idle.empty (t.tx d) crashes.1).recoveries t.fits crashes.2
        exact (crashed.recovered t.fits).symm.imp_right fun i => ⟨by simp, i⟩
    rcases outcome with i | ⟨cut, i⟩
    · refine ⟨done ++ [t], among.append_right [t], all.append List.filter_sublist, ?_⟩
      rw [List.foldl_concat]
      exact ⟨i.empty, fun b notLog => (i.same b notLog).trans (by simp only [Attempt.apply, idle.same b notLog])⟩
    · refine ⟨done, among.trans (List.sublist_append_left ts [t]), by simpa [cut] using all, ?_⟩
      exact ⟨i.empty, fun b notLog => (i.same b notLog).trans (idle.same b notLog)⟩

end

end Xv6.Commit
