import Xv6.Fs.Holdings

namespace Xv6.Fs
open Lib

/-! ## What the functions of `fs.c` and `sysfile.c` take and give back -/

section
variable {α β : Type} {h : Held} {d : α → Balance} {r : Req}

theorem Held.add_add (h : Held) (a b : Balance) : (h.add a).add b = h.add (a + b) := by
  simp only [Held.add, add_assoc]

theorem Held.add_none (h : Held) : h.add 0 = h := by
  simp [Held.add]

theorem safe_ask {Q : Answer r → Held → Prop} (runs : h.proc.status = .runnable) (asked : pre h r)
    (next : ∀ x h', post r h x h' → Q x h') : Safe contract Q (ask r) h := ⟨⟨runs, asked⟩, next⟩

/-- Whatever the answers, the program returns with its balance changed by `d` of the result and with
nothing else changed. -/
def Costs (m : Op α) (d : α → Balance) : Prop :=
  ∀ (Q : α → Held → Prop) (h : Held), h.proc.status = .runnable → (∀ a, Q a (h.add (d a))) → Safe contract Q m h

theorem Costs.pure {a : α} (even : d a = 0) : Costs (Pure.pure a) d := by
  intro Q h _ next
  have := next a
  rw [even, Held.add_none] at this
  exact this

theorem Costs.bind {m : Op α} {f : α → Op β} {d' : β → Balance} (first : Costs m d)
    (rest : ∀ a, Costs (f a) fun b => d' b - d a) : Costs (m >>= f) d' := by
  intro Q h runs next
  rw [safe_bind]
  refine first _ h runs fun a => rest a _ _ runs fun b => ?_
  rw [Held.add_add, add_sub_cancel]
  exact next b

theorem Costs.congr {m : Op α} {d' : α → Balance} (costs : Costs m d) (same : ∀ a, d' a = d a) : Costs m d' := by
  rwa [show d' = d from funext same]

theorem Costs.panic (why : Panic) : Costs (panic (α := α) why) d := by
  intro Q h runs _
  exact ⟨⟨runs, trivial⟩, nofun⟩

theorem Costs.ask {d : Answer r → Balance} (free : ∀ h, pre h r)
    (moves : ∀ h x h', post r h x h' → h' = h.add (d x)) : Costs (ask r) d := by
  intro Q h runs next
  refine safe_ask runs (free h) fun x h' kept => ?_
  rw [moves h x h' kept]
  exact next x

/-- The requests that no account speaks of. -/
def Req.quiet : Req → Bool
  | .fill _ | .inode _ | .inum _ | .store .. | .iupdate _ | .itrunc _ | .invalidate _ | .readDirent .. | .writeDirent ..
  | .ninodes | .tryAlloc .. => true
  | _ => false

theorem safe_quiet {Q : Answer r → Held → Prop} (quiet : r.quiet = true) (runs : h.proc.status = .runnable)
    (next : ∀ x, Q x h) : Safe contract Q (ask r) h := by
  refine safe_ask runs ?_ fun x h' kept => ?_
  · cases r <;> trivial
  · have same : h' = h := by cases r <;> first | exact kept | cases quiet
    exact same ▸ next x

theorem Costs.quiet (quiet : r.quiet = true) : Costs (Fs.ask r) fun _ => 0 :=
  fun _ h runs next => safe_quiet quiet runs fun x => h.add_none ▸ next x

theorem Costs.look {f : Answer r → Op α} (quiet : r.quiet = true) (rest : ∀ x, Costs (f x) d) : Costs (Fs.ask r >>= f) d :=
  fun Q h runs next => safe_quiet quiet runs fun x => rest x Q h runs next

theorem costs_beginOp : Costs (ask .beginOp) fun _ => op := .ask (fun _ => trivial) fun _ _ _ kept => kept

theorem costs_endOp : Costs (ask .endOp) fun _ => -op := .ask (fun _ => trivial) fun _ _ _ kept => kept

theorem costs_iget (inum : Nat) (made : Bool) : Costs (ask (.iget inum made)) reference :=
  .ask (fun _ => trivial) fun _ _ _ kept => kept

variable (ip : Entry)

theorem costs_idup : Costs (ask (.idup ip)) fun _ => reference ip :=
  .ask (fun _ => trivial) fun _ _ _ kept => kept

variable (dp : Entry)

/-! ### `fs.c` -/

theorem costs_ilock : Costs (ilock ip) fun _ => locked ip := by
  refine .bind (.ask (d := fun _ => locked ip) (fun _ => trivial) fun _ _ _ kept => kept) fun _ => ?_
  refine (Costs.quiet rfl).congr fun _ => ?_
  abel

theorem costs_iunlock : Costs (iunlock ip) fun _ => -locked ip :=
  .ask (fun _ => trivial) fun _ _ _ kept => kept

theorem costs_iput : Costs (iput ip) fun _ => -reference ip := by
  intro Q h runs next
  refine safe_ask runs trivial fun last h' kept => ?_
  cases last with
  | false =>
    rw [show h' = h.add (-reference ip) from kept]
    exact next ()
  | true =>
    obtain ⟨free, rfl⟩ := kept
    have mine : (h.add (locked ip)).locks ip = 1 := by
      simp only [Held.locks, Held.add, locked, Prod.snd_add, Prod.fst_add, Pi.add_apply, Pi.single_eq_same]
      rw [Held.locks] at free
      omega
    refine safe_quiet rfl runs fun _ => safe_quiet rfl runs fun v => safe_quiet rfl runs fun _ => ?_
    refine safe_quiet rfl runs fun _ => safe_quiet rfl runs fun _ => ?_
    refine safe_ask runs mine fun _ h' kept => ?_
    rw [show h' = (h.add (locked ip)).add (-locked ip) from kept, Held.add_add, add_neg_cancel, Held.add_none]
    refine safe_ask runs trivial fun _ h' kept => ?_
    rw [show h' = h.add (-reference ip) from kept]
    exact next ()

theorem costs_iunlockput : Costs (iunlockput ip) fun _ => -locked ip - reference ip := by
  refine .bind (costs_iunlock ip) fun _ => ?_
  refine (costs_iput ip).congr fun _ => ?_
  abel

theorem costs_iallocFrom (type : Int) (n inum : Nat) : Costs (iallocFrom type n inum) reference := by
  induction n generalizing inum with
  | zero => exact .panic _
  | succ n ih =>
    refine .look rfl fun found => ?_
    cases found with
    | true => exact costs_iget inum _
    | false => exact ih (inum + 1)

theorem costs_ialloc (type : Int) : Costs (ialloc type) reference := by
  refine .look rfl fun n => ?_
  exact costs_iallocFrom type (n - 1) 1

def refOf {γ : Type} : Option (Entry × γ) → Balance
  | none => 0
  | some found => reference found.1

attribute [local simp] refOf

variable (name : Name)

theorem costs_scanFrom (short : Panic) (wanted : Dirent → Bool) (n off : Nat) :
    Costs (scanFrom dp short wanted n off) fun _ => 0 := by
  induction n generalizing off with
  | zero => exact .pure rfl
  | succ n ih =>
    refine .look rfl fun read => ?_
    cases read with
    | none => exact .panic _
    | some de =>
      change Costs (if wanted de = true then _ else _) _
      split_ifs with found
      · exact .pure rfl
      · exact ih _

theorem costs_dirlookup : Costs (dirlookup dp name) refOf := by
  refine .look rfl fun v => ?_
  split_ifs with file
  · exact .panic _
  · refine .bind (costs_scanFrom dp _ _ _ _) fun found => ?_
    obtain ⟨_ | de, off⟩ := found
    · exact .pure (by simp)
    · refine .bind (costs_iget de.inum _) fun ip => .pure ?_
      simp

theorem costs_dirlink (inum : Nat) : Costs (dirlink dp name inum) fun _ => 0 := by
  refine .bind (costs_dirlookup dp name) fun found => ?_
  cases found with
  | some found =>
    refine .bind (costs_iput found.1) fun _ => .pure ?_
    simp
  | none =>
    refine .look rfl fun v => .bind (costs_scanFrom dp _ _ _ _) fun _ => ?_
    refine .look rfl fun written => ?_
    cases written with
    | true => exact .pure (by simp)
    | false => exact .panic _

theorem costs_namexFrom (parent : Bool) (ip : Entry) (name : Name) (path : List Name) :
    Costs (namexFrom parent ip name path) fun found => refOf found - reference ip := by
  induction path generalizing ip name with
  | nil =>
    unfold namexFrom
    split_ifs with early
    · refine .bind (costs_iput ip) fun _ => .pure ?_
      simp
    · refine .pure ?_
      simp
  | cons elem rest ih =>
    refine .bind (costs_ilock ip) fun _ => .look rfl fun v => ?_
    split_ifs with file early
    · refine .bind (costs_iunlockput ip) fun _ => .pure ?_
      abel
    · refine .bind (costs_iunlock ip) fun _ => .pure ?_
      simp only [refOf]
      abel
    · refine .bind (costs_dirlookup ip elem) fun found => ?_
      cases found with
      | none =>
        refine .bind (costs_iunlockput ip) fun _ => .pure ?_
        abel
      | some found =>
        refine .bind (costs_iunlockput ip) fun _ => ?_
        refine (ih found.1 elem).congr fun result => ?_
        abel

theorem costs_cwd : Costs (ask .cwd) fun _ => 0 :=
  .ask (fun _ => trivial) fun h _ _ kept => kept.2.trans h.add_none.symm

variable (path : Path)

theorem costs_namex (parent : Bool) : Costs (namex path parent) refOf := by
  unfold namex
  split_ifs with absolute
  · exact .bind (costs_iget ROOTINO _) fun ip => costs_namexFrom parent ip [] _
  · refine .bind costs_cwd fun ip => .bind (costs_idup ip) fun _ => ?_
    refine (costs_namexFrom parent ip [] _).congr fun found => ?_
    abel

def entryRef : Option Entry → Balance
  | none => 0
  | some ip => reference ip

theorem costs_namei : Costs (namei path) entryRef := by
  refine .bind (costs_namex path false) fun found => .pure ?_
  cases found <;> simp [entryRef]

theorem costs_nameiparent : Costs (nameiparent path) refOf := costs_namex path true

/-! ### `sysfile.c` -/

theorem costs_leave :
    Costs (do iunlockput ip; ask .endOp; Pure.pure (-1 : Int)) fun _ => -locked ip - reference ip - op := by
  refine .bind (costs_iunlockput ip) fun _ => .bind costs_endOp fun _ => .pure ?_
  abel

theorem costs_fail : Costs (do ask .endOp; Pure.pure (-1 : Int)) fun _ => -op := by
  refine .bind costs_endOp fun _ => .pure ?_
  abel

theorem costs_addLinks (n : Int) : Costs (addLinks ip n) fun _ => 0 := by
  refine .look rfl fun v => .look rfl fun _ => .quiet rfl

theorem costs_linkBad : Costs (linkBad ip) fun _ => -reference ip - op := by
  refine .bind (costs_ilock ip) fun _ => .bind (costs_addLinks ip (-1)) fun _ => ?_
  refine .bind (costs_iunlockput ip) fun _ => .bind costs_endOp fun _ => .pure ?_
  abel

theorem costs_link (old new : Path) : Costs (link old new) fun _ => 0 := by
  refine .bind costs_beginOp fun _ => .bind (costs_namei old) fun found => ?_
  cases found with
  | none =>
    exact costs_fail.congr fun _ => by abel
  | some ip =>
    refine .bind (costs_ilock ip) fun _ => .look rfl fun v => ?_
    split_ifs with directory
    · refine .bind (costs_iunlockput ip) fun _ => .bind costs_endOp fun _ => .pure ?_
      simp only [entryRef]
      abel
    · refine .bind (costs_addLinks ip 1) fun _ => .bind (costs_iunlock ip) fun _ => ?_
      refine .bind (costs_nameiparent new) fun found => ?_
      cases found with
      | none =>
        refine (costs_linkBad ip).congr fun _ => ?_
        abel
      | some found =>
        obtain ⟨dp, name⟩ := found
        refine .bind (costs_ilock dp) fun _ => .look rfl fun inum => ?_
        refine .bind (costs_dirlink dp name inum) fun result => ?_
        split_ifs with failed
        · refine .bind (costs_iunlockput dp) fun _ => (costs_linkBad ip).congr fun _ => ?_
          simp only [entryRef, refOf]
          abel
        · refine .bind (costs_iunlockput dp) fun _ => .bind (costs_iput ip) fun _ => ?_
          refine .bind costs_endOp fun _ => .pure ?_
          simp only [entryRef, refOf]
          abel

theorem costs_isdirempty : Costs (isdirempty dp) fun _ => 0 := by
  refine .look rfl fun v => .bind (costs_scanFrom dp _ _ _ _) fun _ => .pure ?_
  simp

theorem costs_fullDirectory : Costs (fullDirectory ip) fun _ => 0 := by
  refine .look rfl fun v => ?_
  split_ifs with directory
  · refine .bind (costs_isdirempty ip) fun empty => .pure ?_
    simp
  · exact .pure rfl

theorem costs_unlinkBad : Costs (unlinkBad dp) fun _ => -locked dp - reference dp - op := costs_leave dp

theorem costs_unlinkDots (ip : Entry) : Costs (unlinkDots dp ip) fun _ => 0 := by
  refine .look rfl fun v => ?_
  split_ifs with directory
  · exact costs_addLinks dp (-1)
  · exact .pure rfl

theorem costs_unlinkEntry (ip : Entry) (off : Nat) : Costs (unlinkEntry dp ip off)
    fun _ => -locked dp - reference dp - locked ip - reference ip - op := by
  refine .look rfl fun written => ?_
  split_ifs with done
  · refine .bind (costs_unlinkDots dp ip) fun _ => .bind (costs_iunlockput dp) fun _ => ?_
    refine .bind (costs_addLinks ip (-1)) fun _ => .bind (costs_iunlockput ip) fun _ => ?_
    refine .bind costs_endOp fun _ => .pure ?_
    abel
  · exact .panic _

theorem costs_unlink : Costs (unlink path) fun _ => 0 := by
  refine .bind costs_beginOp fun _ => .bind (costs_nameiparent path) fun found => ?_
  cases found with
  | none =>
    exact costs_fail.congr fun _ => by abel
  | some found =>
    obtain ⟨dp, name⟩ := found
    refine .bind (costs_ilock dp) fun _ => ?_
    split_ifs with dots
    · refine (costs_unlinkBad dp).congr fun _ => ?_
      simp only [refOf]
      abel
    · refine .bind (costs_dirlookup dp name) fun entry => ?_
      cases entry with
      | none =>
        refine (costs_unlinkBad dp).congr fun _ => ?_
        simp only [refOf]
        abel
      | some entry =>
        obtain ⟨ip, off⟩ := entry
        refine .bind (costs_ilock ip) fun _ => .look rfl fun v => ?_
        split_ifs with low
        · exact .panic _
        · refine .bind (costs_fullDirectory ip) fun full => ?_
          split_ifs with some_entry
          · refine .bind (costs_iunlockput ip) fun _ => (costs_unlinkBad dp).congr fun _ => ?_
            simp only [refOf]
            abel
          · refine (costs_unlinkEntry dp ip off).congr fun _ => ?_
            simp only [refOf]
            abel

theorem costs_createDots (ip : Entry) : Costs (createDots dp ip) fun _ => 0 := by
  refine .bind (costs_addLinks dp 1) fun _ => .look rfl fun inum => ?_
  refine .bind (costs_dirlink ip dot inum) fun first => ?_
  split_ifs with failed
  · exact .panic _
  · refine .look rfl fun up => .bind (costs_dirlink ip dotdot up) fun second => ?_
    split_ifs with failed
    · exact .panic _
    · exact .pure (by simp)

theorem costs_createNew (type major minor : Int) :
    Costs (createNew dp name type major minor) fun ip => reference ip + locked ip - locked dp - reference dp := by
  refine .bind (costs_ialloc type) fun ip => .bind (costs_ilock ip) fun _ => .look rfl fun v => ?_
  refine .look rfl fun _ => .look rfl fun _ => ?_
  have dots : Costs (if type = T_DIR then createDots dp ip else Pure.pure ()) fun _ => 0 := by
    split_ifs with directory
    · exact costs_createDots dp ip
    · exact .pure rfl
  refine .bind dots fun _ => .look rfl fun inum => .bind (costs_dirlink dp name inum) fun result => ?_
  split_ifs with failed
  · exact .panic _
  · refine .bind (costs_iunlockput dp) fun _ => .pure ?_
    abel

def entryLocked : Option Entry → Balance
  | none => 0
  | some ip => reference ip + locked ip

theorem costs_create (type major minor : Int) : Costs (create path type major minor) entryLocked := by
  refine .bind (costs_nameiparent path) fun found => ?_
  cases found with
  | none => exact .pure (by simp [entryLocked])
  | some found =>
    obtain ⟨dp, name⟩ := found
    refine .bind (costs_ilock dp) fun _ => .bind (costs_dirlookup dp name) fun entry => ?_
    cases entry with
    | some entry =>
      obtain ⟨ip, off⟩ := entry
      refine .bind (costs_iunlockput dp) fun _ => .bind (costs_ilock ip) fun _ => .look rfl fun v => ?_
      split_ifs with opens
      · refine .pure ?_
        simp only [entryLocked, refOf]
        abel
      · refine .bind (costs_iunlockput ip) fun _ => .pure ?_
        simp only [entryLocked, refOf]
        abel
    | none =>
      refine .bind (costs_createNew dp name type major minor) fun ip => .pure ?_
      simp only [entryLocked, refOf]
      abel

theorem costs_makeNode (path : Option Path) (type major minor : Int) :
    Costs (makeNode path type major minor) fun _ => 0 := by
  refine .bind costs_beginOp fun _ => ?_
  cases path with
  | none =>
    exact costs_fail.congr fun _ => by abel
  | some path =>
    refine .bind (costs_create path type major minor) fun made => ?_
    cases made with
    | none =>
      refine .bind costs_endOp fun _ => .pure ?_
      abel
    | some ip =>
      refine .bind (costs_iunlockput ip) fun _ => .bind costs_endOp fun _ => .pure ?_
      simp only [entryLocked]
      abel

theorem costs_exec (loads commits : Bool) : Costs (exec path loads commits) fun _ => 0 := by
  refine .bind costs_beginOp fun _ => .bind (costs_namei path) fun found => ?_
  cases found with
  | none =>
    exact costs_fail.congr fun _ => by abel
  | some ip =>
    refine .bind (costs_ilock ip) fun _ => ?_
    cases loads with
    | true | false =>
      refine .bind (costs_iunlockput ip) fun _ => .bind costs_endOp fun _ => .pure ?_
      simp only [entryRef]
      abel

end

end Xv6.Fs
