import Xv6.Fs.BlockWrites

namespace Xv6.Blocks
open Lib Fs Function

attribute [local simp] State.forget State.blockAt

section
variable {W : Rules} {s t : State} {i dp : Nat}

/-! ## Directories -/

section

variable (good : Good W s)

include good

theorem ends_scanFrom (dir : W.whole (s.ip dp).type) {short : Panic} (sound : Sound short)
    (wanted : List UInt8 → Bool) (fuel off : Nat) :
    ends (scanFrom dp short wanted fuel off) Sound (fun _ t => t = s) s := by
  induction fuel generalizing off with
  | zero => exact (ends_pure ..).mpr rfl
  | succ fuel ih =>
    rw [scanFrom, ends_bind, ends_get]
    split
    next =>
      refine (ends_readi good.kept (W.allocated dir) (good.whole dp dir) (fun _ => nofun) off direntSize).bind ?_
      rintro de t ⟨rfl, -⟩
      split_ifs
      · exact (ends_throw ..).mpr sound
      · exact (ends_pure ..).mpr rfl
      · exact ih _
    next => exact (ends_pure ..).mpr rfl

theorem ends_dirlookup (name : Name) : ends (dirlookup dp name) Sound (fun _ t => t = s ∧ (s.ip dp).type = T_DIR) s := by
  rw [dirlookup, ends_bind, ends_get]
  split
  next => exact (ends_throw ..).mpr (by rintro ⟨⟩)
  next isDir =>
    have dir := not_not.mp isDir
    refine (ends_scanFrom good (dir ▸ W.dir) (by rintro ⟨⟩) _ _ 0).bind fun _ _ same => ?_
    exact (ends_pure ..).mpr ⟨same, dir⟩

theorem ends_isdirempty (dir : W.whole (s.ip dp).type) : ends (isdirempty dp) Sound (fun _ t => t = s) s := by
  rw [isdirempty, ends_bind, ends_get]
  exact (ends_scanFrom good dir (by rintro ⟨⟩) _ _ _).bind fun _ _ same => (ends_pure ..).mpr same

end

def Served (W : Rules) (i : Nat) (s t : State) : Prop := Good W t ∧ Others i s t ∧ (t.ip i).type = (s.ip i).type

theorem Served.type (served : Served W i s t) (j : Nat) : (t.ip j).type = (s.ip j).type := by
  by_cases same : j = i
  · rw [same]
    exact served.2.2
  · rw [served.2.1.ip same]

theorem ends_dirlink (good : Good W s) (name : Name) (inum : Nat) :
    ends (dirlink dp name inum) Sound (fun _ t => Served W dp s t) s := by
  rw [dirlink]
  refine (ends_dirlookup good name).bind ?_
  rintro found t ⟨rfl, dir⟩
  split
  next => exact (ends_pure ..).mpr ⟨good, .refl dp t, rfl⟩
  next =>
    rw [ends_bind, ends_get]
    refine (ends_scanFrom good (dir ▸ W.dir) (by rintro ⟨⟩) _ _ 0).bind ?_
    rintro ⟨-, off⟩ u rfl
    have allocated : (u.ip dp).type ≠ 0 := by
      rw [dir]
      decide
    refine (ends_writei_good good allocated _ off direntSize).bind fun wrote v served => ?_
    split
    next => exact (ends_pure ..).mpr served
    next => exact (ends_throw ..).mpr (by rintro ⟨⟩)

/-! ## Inodes -/

section

variable (good : Good W s)

include good

theorem ends_ilock : ends (ilock i) Sound (fun _ t => Good W t ∧ t.ip = s.ip ∧ (t.ip i).type ≠ 0) s := by
  simp only [ilock, ends_bind, ends_get]
  cases cached : s.core i with
  | some d => grind [State.ip, ends_pure, good.clean]
  | none =>
    have isIp : s.ip i = s.dinode i := by simp [State.ip, cached]
    simp only [ends_bind, ends_modify]
    split
    next => exact (ends_throw ..).mpr (by rintro ⟨⟩)
    next allocated =>
      have view : (s.setIp i (s.dinode i)).ip = s.ip := by
        rw [State.ip_setIp, ← isIp, update_eq_self]
      have blocks : (s.setIp i (s.dinode i)).blockAt = s.blockAt := State.blockAt_congr view rfl
      refine (ends_pure ..).mpr ⟨⟨⟨?_, good.kept.reserved⟩, ?_, ?_, ?_⟩, view, ?_⟩
      · rw [blocks]
        exact good.kept.owned
      · intro j d now
        by_cases same : j = i
        · subst same
          simp only [State.setIp, update_self, Option.some.injEq] at now
          subst now
          exact ⟨rfl, allocated⟩
        · simp only [State.setIp, update_of_ne same] at now
          exact good.clean j d now
      · intro j dir
        rw [view] at dir
        exact (good.whole j dir).congr (by rw [view]) blocks
      · rw [view]
        exact good.fits
      · rw [view, isIp]
        exact allocated

theorem ends_setFields (allocated : (s.ip i).type ≠ 0) (change : Dinode → Dinode)
    (keeps : ∀ d, (change d).type = d.type ∧ (change d).addrs = d.addrs ∧ (change d).size = d.size) :
    ends (do
      modify fun s => s.setIp i (change (s.ip i))
      iupdate i) Sound (fun _ t => Served W i s t) s := by
  obtain ⟨type, addrs, size⟩ := keeps (s.ip i)
  simp only [iupdate, ends_bind, ends_modify]
  obtain ⟨good', others, isIp⟩ := (good.busy allocated).finish type addrs
    (fun dir bn small below => good.whole i (type ▸ dir) bn small (size ▸ below)) (size ▸ good.fits i allocated)
  exact ⟨good', others, by rw [isIp, type]⟩

theorem ends_addLinks (allocated : (s.ip i).type ≠ 0) (n : Int) :
    ends (addLinks i n) Sound (fun _ t => Served W i s t) s :=
  ends_setFields good allocated (fun d => { d with nlink := short (d.nlink + n) }) fun _ => ⟨rfl, rfl, rfl⟩

theorem Good.forget (i : Nat) : Good W (s.forget i) ∧ Others i s (s.forget i) := by
  have view : (s.forget i).ip = s.ip := by
    funext j
    by_cases same : j = i
    · subst same
      cases cached : s.core j with
      | none => simp [State.ip, cached]
      | some d => simp [State.ip, cached, (good.clean j d cached).1]
    · simp [State.ip, same]
  have blocks : (s.forget i).blockAt = s.blockAt := State.blockAt_congr view rfl
  refine ⟨⟨⟨?_, good.kept.reserved⟩, ?_, ?_, ?_⟩, rfl, fun j other => update_of_ne other .., fun _ _ => rfl⟩
  · rw [blocks]
    exact good.kept.owned
  · intro j d now
    by_cases same : j = i
    · subst same
      simp at now
    · simp only [State.forget, update_of_ne same] at now
      exact good.clean j d now
  · intro j dir
    rw [view] at dir
    exact (good.whole j dir).congr (by rw [view]) blocks
  · rw [view]
    exact good.fits

theorem Good.of_bare {u : State} (sb : u.sb = s.sb) (bit : u.bit = s.bit) (data : u.data = s.data)
    (others : Others i s u) (uncached : u.core i = none) (before : (s.ip i).type = 0 ∨ ∀ k ≤ NDIRECT, (s.ip i).addrs k = 0)
    (after : (u.ip i).type = 0 ∨ (∀ k ≤ NDIRECT, (u.ip i).addrs k = 0) ∧ (u.ip i).size = 0) : Good W u := by
  have bare {v : State} (empty : (v.ip i).type = 0 ∨ ∀ k ≤ NDIRECT, (v.ip i).addrs k = 0) (k : Nat) :
      v.blockAt (.addr i k) = 0 ∧ v.blockAt (.slot i k) = 0 := by
    rcases empty with free | zero
    · simp [free]
    · refine ⟨?_, by simp [zero NDIRECT (Nat.le_refl _)]⟩
      by_cases small : k ≤ NDIRECT
      · simp [zero k small]
      · simp [small]
  have blocks : u.blockAt = s.blockAt := by
    funext x
    cases x with
    | addr j k =>
      by_cases same : j = i
      · grind
      · exact blockAt_of_ne (others.ip same) data (.inl ⟨k, rfl⟩)
    | slot j k =>
      by_cases same : j = i
      · grind
      · exact blockAt_of_ne (others.ip same) data (.inr ⟨k, rfl⟩)
  refine ⟨⟨?_, ?_⟩, ?_, ?_, ?_⟩
  · rw [blocks, bit, sb]
    exact good.kept.owned
  · rw [bit, sb]
    exact good.kept.reserved
  · grind [others.core, others.dinode, good.clean]
  · intro j dir
    by_cases same : j = i
    · subst same
      rcases after with free | ⟨-, size⟩
      · rw [free] at dir
        exact absurd dir W.free
      · intro bn _ below
        rw [size] at below
        exact absurd below (Nat.not_lt_zero _)
    · have isIp := others.ip same
      rw [isIp] at dir
      exact (good.whole j dir).congr (by rw [isIp]) blocks
  · intro j used
    by_cases same : j = i
    · subst same
      rcases after with free | ⟨-, size⟩
      · exact absurd free used
      · rw [size]
        exact W.small 0 (Nat.zero_le _)
    · rw [others.ip same] at used ⊢
      exact good.fits j used

theorem ends_iput (last : Bool) : ends (iput i last) Sound (fun _ t => Good W t ∧ Others i s t) s := by
  simp only [iput, ends_bind, ends_get]
  cases last with
  | false => exact (ends_pure ..).mpr ⟨good, .refl i s⟩
  | true =>
    rw [if_pos rfl, ends_bind]
    cases cached : s.core i with
    | none =>
      rw [ends_pure, ends_modify]
      exact good.forget i
    | some d =>
      have isIp : s.ip i = d := by simp [State.ip, cached]
      have allocated : (s.ip i).type ≠ 0 := by
        rw [isIp]
        exact (good.clean i d cached).2
      dsimp only
      split
      next =>
        refine (ends_itrunc good allocated).bind fun _ t after => ?_
        obtain ⟨good', others, -, zero⟩ := after
        simp only [iupdate, ends_bind, ends_modify]
        have others' : Others i t (((t.setIp i { t.ip i with type := 0 }).update i).forget i) :=
          (Others.setIp _).trans (Others.update.trans ⟨rfl, fun j other => update_of_ne other .., fun _ _ => rfl⟩)
        have gone : ((((t.setIp i { t.ip i with type := 0 }).update i).forget i).ip i).type = 0 := by
          simp [State.ip, State.update, State.setIp]
        exact ⟨good'.of_bare rfl rfl rfl others' (update_self ..) (.inr zero) (.inl gone), others.trans others'⟩
      next =>
        rw [ends_pure, ends_modify]
        exact good.forget i

theorem ends_ialloc (type : Int) :
    ends (ialloc type) Sound (fun i t => Good W t ∧ Others i s t ∧ (s.ip i).type = 0) s := by
  simp only [ialloc, ends_bind, ends_get]
  cases found : (List.range s.sb.ninodes).find? (fun i => i ≠ 0 ∧ (s.dinode i).type = 0) with
  | none => exact (ends_throw ..).mpr (by rintro ⟨⟩)
  | some i =>
    have free : (s.dinode i).type = 0 := by grind
    have uncached : s.core i = none := by
      cases cached : s.core i with
      | none => rfl
      | some d =>
        obtain ⟨isDisk, allocated⟩ := good.clean i d cached
        exact absurd (isDisk ▸ free) allocated
    have before : (s.ip i).type = 0 := by simpa [State.ip, uncached] using free
    simp only [ends_bind, ends_modify, ends_pure]
    have others : Others i s { s with dinode := update s.dinode i ⟨type, 0, 0, 0, 0, fun _ => 0⟩ } :=
      ⟨rfl, fun _ _ => rfl, fun _ other => update_of_ne other ..⟩
    refine ⟨good.of_bare rfl rfl rfl others uncached (.inl before) (.inr ?_), others, before⟩
    simp [State.ip, uncached]

end

/-! ## Creating and unlinking -/

section

variable (good : Good W s)

include good

theorem ends_createDots {ip : Nat} (allocated : (s.ip dp).type ≠ 0) :
    ends (createDots dp ip) Sound (fun _ t => Good W t) s := by
  rw [createDots]
  refine (ends_addLinks good allocated 1).bind fun _ t served => ?_
  refine (ends_dirlink served.1 dot ip).bind fun one u served => ?_
  split
  next =>
    refine (ends_dirlink served.1 dotdot dp).bind fun two v served => ?_
    split
    next => exact (ends_pure ..).mpr served.1
    next => exact (ends_throw ..).mpr nofun
  next => exact (ends_throw ..).mpr nofun

theorem ends_create (name : Name) (type major minor : Int) (last : Nat → Bool) :
    ends (create dp name type major minor last) Sound (fun _ t => Good W t) s := by
  rw [create]
  refine (ends_ilock good).bind fun _ s₁ after => ?_
  obtain ⟨good₁, -, allocated⟩ := after
  refine (ends_dirlookup good₁ name).bind ?_
  rintro found s₂ ⟨rfl, -⟩
  cases found with
  | some entry =>
    refine (ends_iput good₁ _).bind fun _ s₃ after => ?_
    refine (ends_ilock after.1).bind fun _ s₄ after => ?_
    rw [ends_bind, ends_get]
    split
    next => exact (ends_pure ..).mpr after.1
    next =>
      refine (ends_iput after.1 _).bind fun _ s₅ after => ?_
      exact (ends_pure ..).mpr after.1
  | none =>
    refine (ends_ialloc good₁ type).bind fun ip s₃ after => ?_
    obtain ⟨good₃, others, free⟩ := after
    have apart : dp ≠ ip := by
      rintro rfl
      exact allocated free
    have allocated₃ : (s₃.ip dp).type ≠ 0 := by rwa [others.ip apart]
    refine (ends_ilock good₃).bind fun _ s₄ after => ?_
    obtain ⟨good₄, view, isNew⟩ := after
    rw [← bind_assoc]
    refine (ends_setFields good₄ isNew
      (fun d => { d with major := major, minor := minor, nlink := 1 }) fun _ => ⟨rfl, rfl, rfl⟩).bind
      fun _ s₅ served => ?_
    have allocated₅ : (s₅.ip dp).type ≠ 0 := by rwa [served.type, view]
    have finish {t : State} (good : Good W t) : ends (do
        let added ← dirlink dp name ip
        if added then do
          iput dp (last dp)
          pure (some ip)
        else throw .createDirlink) Sound (fun _ t => Good W t) t := by
      refine (ends_dirlink good name ip).bind fun added u served => ?_
      split
      next =>
        refine (ends_iput served.1 _).bind fun _ v after => ?_
        exact (ends_pure ..).mpr after.1
      next => exact (ends_throw ..).mpr nofun
    rw [ends_bind]
    split
    next => exact (ends_createDots served.1 allocated₅).mono fun _ t good => finish good
    next => exact (ends_pure ..).mpr (finish served.1)

theorem ends_unlinkEntry {ip : Nat} (apart : ip ≠ dp) (ofDp : (s.ip dp).type ≠ 0)
    (ofIp : (s.ip ip).type ≠ 0) (off : Nat) (last : Nat → Bool) :
    ends (unlinkEntry dp ip off last) Sound (fun _ t => Good W t) s := by
  have finish {t : State} (good : Good W t) (ofIp : (t.ip ip).type ≠ 0) : ends (do
      iput dp (last dp)
      addLinks ip (-1)
      iput ip (last ip)
      pure true) Sound (fun _ t => Good W t) t := by
    refine (ends_iput good _).bind fun _ u after => ?_
    refine (ends_addLinks after.1 (by rwa [after.2.ip apart]) _).bind fun _ v served => ?_
    refine (ends_iput served.1 _).bind fun _ w after => ?_
    exact (ends_pure ..).mpr after.1
  rw [unlinkEntry]
  refine (ends_writei_good good ofDp _ off direntSize).bind fun wrote t served => ?_
  have served : Served W dp s t := served
  split
  next =>
    rw [ends_bind, ends_get, ends_bind]
    split
    next =>
      refine (ends_addLinks served.1 (by rwa [served.type]) _).mono fun _ u more => ?_
      exact finish more.1 (by rwa [more.type, served.type])
    next => exact (ends_pure ..).mpr (finish served.1 (by rwa [served.type]))
  next => exact (ends_throw ..).mpr nofun

theorem ends_putFalse (last : Bool) : ends (do iput i last; pure false) Sound (fun _ t => Good W t) s := by
  exact (ends_iput good last).bind fun _ t after => (ends_pure ..).mpr after.1

theorem ends_unlink (name : Name) (last : Nat → Bool) : ends (unlink dp name last) Sound (fun _ t => Good W t) s := by
  rw [unlink]
  refine (ends_ilock good).bind fun _ s₁ after => ?_
  obtain ⟨good₁, -, ofDp⟩ := after
  split
  next => exact ends_putFalse good₁ _
  next =>
    refine (ends_dirlookup good₁ name).bind ?_
    rintro found s₂ ⟨rfl, -⟩
    cases found with
    | none => exact ends_putFalse good₁ _
    | some entry =>
      obtain ⟨ip, off⟩ := entry
      rw [ends_bind]
      split
      next => exact (ends_throw ..).mpr nofun
      next apart =>
        rw [ends_pure]
        refine (ends_ilock good₁).bind fun _ s₃ after => ?_
        obtain ⟨good₃, view, ofIp⟩ := after
        rw [← view] at ofDp
        rw [ends_bind, ends_get]
        split
        next => exact (ends_throw ..).mpr nofun
        next =>
          split
          next dir =>
            refine (ends_isdirempty good₃ (dir ▸ W.dir)).bind ?_
            rintro empty s₄ rfl
            split
            next => exact ends_unlinkEntry good₃ apart ofDp ofIp off last
            next =>
              exact (ends_iput good₃ _).bind fun _ t after => ends_putFalse after.1 _
          next => exact ends_unlinkEntry good₃ apart ofDp ofIp off last

end

theorem ends_discard {α : Type} {f : Op α} {P : State → Prop} (h : ends f Sound (fun _ t => P t) s) :
    ends (discard f) Sound (fun _ t => P t) s := by
  change ends (f >>= fun _ => pure ()) Sound _ s
  rw [ends_bind]
  exact h.mono fun _ t after => (ends_pure ..).mpr after

theorem ends_call (good : Good W s) (c : Call) : ends (call c) Sound (fun _ t => Good W t) s := by
  cases c with
  | writei i src off n =>
    rw [call]
    refine (ends_ilock good).bind fun _ t after => ends_discard ?_
    exact (ends_writei_good after.1 after.2.2 src off n).mono fun _ u served => served.1
  | itrunc i =>
    rw [call]
    refine (ends_ilock good).bind fun _ t after => ?_
    exact (ends_itrunc after.1 after.2.2).mono fun _ u after => after.1
  | iput i last => exact (ends_iput good last).mono fun _ t after => after.1
  | ialloc type => exact ends_discard ((ends_ialloc good type).mono fun _ t after => after.1)
  | dirlink dp name inum =>
    rw [call]
    refine (ends_ilock good).bind fun _ t after => ends_discard ?_
    exact (ends_dirlink after.1 name inum).mono fun _ u served => served.1
  | create dp name type major minor last => exact ends_discard (ends_create good name type major minor last)
  | unlink dp name last => exact ends_discard (ends_unlink good name last)
  | recycle i => exact (ends_modify ..).mpr (good.forget i).1

end

/-! ## Runs -/

theorem Good.step {W : Rules} {s t : State} {c : Call} (taken : step s c = some t) (good : Good W s) : Good W t := by
  have ends := ends_call good c
  rw [Blocks.step] at taken
  rw [Lib.ends] at ends
  cases outcome : (call c).run s with
  | error stop => simp [outcome] at taken
  | ok result => grind

def dirRules : Rules := ⟨(· = T_DIR), fun _ => True, rfl, by decide, fun _ _ => trivial⟩

theorem blocks_owned (s t : State) (calls : List Call) (owned : s.Owned) (reserved : ∀ b < s.sb.dataStart, s.bit b = true)
    (whole : ∀ i, (s.ip i).type = T_DIR → NoHole s i) (clean : ∀ i d, s.core i = some d → d = s.dinode i ∧ d.type ≠ 0)
    (taken : run step s calls = some t) :
    t.Owned ∧ (∀ c, (call c).run t ≠ .error .freeingFreeBlock) ∧
      ∀ b u, balloc.run t = .ok (b, u) → ∀ x, t.blockAt x ≠ b := by
  have good : Good dirRules t :=
    run_inductive (fun _ _ _ taken => Good.step taken) ⟨⟨owned, reserved⟩, clean, whole, fun _ _ => trivial⟩ taken
  refine ⟨good.kept.owned, fun c fails => ?_, fun b u allocated x => ?_⟩
  · have ends := ends_call good c
    rw [Lib.ends, fails] at ends
    exact ends rfl
  · have ends := ends_balloc (E := Sound) good.kept fun _ => (by rintro ⟨⟩)
    rw [Lib.ends, allocated] at ends
    have start := t.sb.dataStart_pos
    exact good.kept.owned.not_held ends.2.1 (by omega) x

def bare (type : Int) (size : Nat) (bit : Nat → Bool) : State where
  sb := ⟨10, 5, 2, by decide, by decide⟩
  dinode := update (fun _ => ⟨0, 0, 0, 0, 0, fun _ => 0⟩) 1 ⟨type, 0, 0, 1, size, fun _ => 0⟩
  core _ := none
  bit := bit
  data _ _ := 0

theorem bare_addrs (type : Int) (size : Nat) (bit : Nat → Bool) (i k : Nat) : ((bare type size bit).ip i).addrs k = 0 := by
  by_cases one : i = 1
  · subst one
    rfl
  · simp [bare, State.ip, one]

theorem bare_blockAt (type : Int) (size : Nat) (bit : Nat → Bool) (x : Place) : (bare type size bit).blockAt x = 0 := by
  cases x <;> simp [bare_addrs]

theorem State.Owned.of_none {s : State} (none : ∀ x, s.blockAt x = 0)
    (free : ∀ b, s.sb.dataStart ≤ b → b < s.sb.size → s.bit b = false) : s.Owned where
  range x full := absurd (none x) full
  once x _ full := absurd (none x) full
  marked b low high := by
    have start := s.sb.dataStart_pos
    rw [free b low high]
    constructor
    · exact nofun
    · rintro ⟨x, holds⟩
      rw [none] at holds
      omega

theorem bare_owned (type : Int) (size : Nat) {bit : Nat → Bool} (free : ∀ b, 5 ≤ b → b < 10 → bit b = false) :
    (bare type size bit).Owned :=
  .of_none (bare_blockAt type size bit) free

theorem bare_file (size : Nat) (bit : Nat → Bool) (i : Nat) : ((bare T_FILE size bit).ip i).type ≠ T_DIR := by
  by_cases one : i = 1
  · subst one
    change T_FILE ≠ T_DIR
    decide
  · simp [bare, State.ip, one, T_DIR]

theorem blocks_owned_writeAndPut : ∃ t, run step (bare T_FILE 0 (· < 5))
        [.writei 1 (kernelBytes [7]) 0 1, .iput 1 true] = some t ∧
      t.Owned ∧ (∀ c, (call c).run t ≠ .error .freeingFreeBlock) ∧
        ∀ b u, balloc.run t = .ok (b, u) → ∀ x, t.blockAt x ≠ b := by
  refine exists_some_of (fun t => t.bit 5) (by decide +kernel) fun t taken _ =>
    blocks_owned _ t _ (bare_owned _ _ ?_) ?_ ?_ nofun taken
  · intro b low _
    simpa using low
  · intro b below
    exact decide_eq_true below
  · exact fun i dir => absurd dir (bare_file 0 _ i)

/-- Inode 1 has block 5 on disk and no block in the inode table. -/
def behind : State :=
  let empty := bare T_FILE 0 (· < 5)
  { empty with
    dinode := update empty.dinode 1 { empty.dinode 1 with addrs := fun k => if k = 0 then 5 else 0 }
    core := update (fun _ => none) 1 (some (empty.dinode 1)) }

theorem behind_ip : behind.ip = (bare T_FILE 0 (· < 5)).ip := by
  funext i
  by_cases one : i = 1
  · subst one
    rfl
  · simp [behind, bare, State.ip, one]

/-- Ownership alone is not kept. With a block before the data area unmarked, `balloc` hands it out.
With a hole in a directory, looking a name up takes a block that no dinode gets to know of. With a copy
in the inode table that differs from the disk, the dinode brings back a block that is not marked. -/
theorem owned_not_inductive :
    (∃ s t, s.Owned ∧ (∀ i, (s.ip i).type = T_DIR → NoHole s i) ∧ (∀ i, s.core i = none) ∧
      step s (.writei 1 (kernelBytes [7]) 0 1) = some t ∧ ¬ t.Owned) ∧
    (∃ s t, s.Owned ∧ (∀ b < s.sb.dataStart, s.bit b = true) ∧ (∀ i, s.core i = none) ∧
      step s (.unlink 1 [120] fun _ => true) = some t ∧ ¬ t.Owned) ∧
    ∃ s t, s.Owned ∧ (∀ b < s.sb.dataStart, s.bit b = true) ∧ (∀ i, (s.ip i).type = T_DIR → NoHole s i) ∧
      step s (.recycle 1) = some t ∧ ¬ t.Owned := by
  refine ⟨?_, ?_, ?_⟩
  · obtain ⟨t, taken, wrong⟩ := exists_some (o := step (bare T_FILE 0 (· = 0)) (.writei 1 (kernelBytes [7]) 0 1))
      (P := fun t => t.blockAt (.addr 1 0) = 1 ∧ t.sb.dataStart = 5) (by decide +kernel)
    refine ⟨_, t, bare_owned _ _ fun b low _ => ?_, fun i dir => absurd dir (bare_file 0 _ i), fun _ => rfl, taken,
      fun owned => ?_⟩
    · exact decide_eq_false (by omega)
    · have range := owned.range (.addr 1 0) (by rw [wrong.1]; decide)
      omega
  · obtain ⟨loaded, mapped, outcome⟩ : ∃ loaded mapped, (step (bare T_DIR 16 (· < 5)) (.unlink 1 [120] fun _ => true)).map
        (fun t => (t.sb, t.bit 5, t.dinode, t.core)) =
          some ((bare T_DIR 16 (· < 5)).sb, true, (bare T_DIR 16 (· < 5)).dinode,
            update (update (update (fun _ => none) 1 loaded) 1 mapped) 1 none) :=
      ⟨_, _, rfl⟩
    obtain ⟨t, taken, wrong⟩ := Option.map_eq_some_iff.mp outcome
    simp only [Prod.mk.injEq, update_idem] at wrong
    obtain ⟨sb, marked, dinode, core⟩ := wrong
    have view : t.ip = (bare T_DIR 16 (· < 5)).ip := by
      funext i
      have uncached : t.core i = none := by
        rw [core]
        by_cases one : i = 1 <;> simp [one]
      rw [State.ip, uncached, dinode]
      rfl
    refine ⟨_, t, bare_owned _ _ fun b low _ => ?_, fun b below => decide_eq_true below, fun _ => rfl, taken, ?_⟩
    · exact decide_eq_false (by omega)
    · intro owned
      obtain ⟨x, holds⟩ := (owned.marked 5 (by rw [sb]; decide) (by rw [sb]; decide)).mp marked
      cases x <;> simp [view, bare_addrs] at holds
  · have blocks (x : Place) : behind.blockAt x = 0 := by
      cases x <;> simp [behind_ip, bare_addrs]
    refine ⟨behind, _, .of_none blocks fun b low _ => ?_, fun b below => decide_eq_true below, fun i dir => ?_, rfl,
      fun owned => ?_⟩
    · have low : 5 ≤ b := low
      exact decide_eq_false (by omega)
    · rw [behind_ip] at dir
      exact absurd dir (bare_file 0 _ i)
    · have marked := (owned.marked 5 (by decide) (by decide)).mpr ⟨.addr 1 0, by decide⟩
      exact absurd marked (by decide)

end Xv6.Blocks
