import Xv6.Fs.BlockMap

namespace Xv6.Blocks
open Lib Fs Function

attribute [local simp] State.setAddr

/-! ## Giving blocks back -/

section
variable {s t : State} {i k n : Nat} {held : Place → Nat} {x : Place}

theorem Keeps.give (keeps : Keeps held s) (full : held x ≠ 0) : Keeps (update held x 0) (s.setBit (held x) false) where
  owned := keeps.owned.give full s.sb.dataStart_pos
  reserved b below := by
    have high := (keeps.owned.range x full).1
    have other : b ≠ held x := by
      change b < s.sb.dataStart at below
      omega
    simp only [State.setBit, update_of_ne other]
    exact keeps.reserved b below

theorem ends_bfree {Q : Unit → State → Prop} (keeps : Keeps held s) (full : held x ≠ 0)
    (after : Keeps (update held x 0) (s.setBit (held x) false) → Q () (s.setBit (held x) false)) :
    ends (bfree (held x)) Sound Q s := by
  simp only [bfree, ends_bind, ends_get]
  rw [if_pos (keeps.owned.used_of_held full), ends_modify]
  exact after (keeps.give full)

structure Trims (i : Nat) (s t : State) : Prop extends Remaps i s t where
  data : t.data = s.data

theorem Trims.refl (i : Nat) (s : State) : Trims i s s := ⟨.refl i s, rfl⟩

theorem Trims.trans {u : State} (one : Trims i s t) (two : Trims i t u) : Trims i s u :=
  ⟨one.toRemaps.trans two.toRemaps, two.data.trans one.data⟩

theorem ends_itruncAddr (keeps : Keeps held s) (here : held (.addr i k) = (s.ip i).addrs k) :
    ends (itruncAddr i k) Sound (fun _ t => Trims i s t ∧
      (t.ip i).addrs = update (s.ip i).addrs k 0 ∧
      Keeps (update held (.addr i k) 0) t) s := by
  simp only [itruncAddr, ends_bind, ends_get]
  by_cases empty : (s.ip i).addrs k = 0
  · rw [if_pos empty, ends_pure, ← empty, update_eq_self, ← here, update_eq_self]
    exact ⟨.refl i s, rfl, keeps⟩
  · rw [if_neg empty, ends_bind, ← here]
    refine ends_bfree keeps (here ▸ empty) fun gave => ?_
    rw [ends_modify]
    refine ⟨⟨⟨rfl, rfl, fun j other => update_of_ne other .., ?_⟩, rfl⟩, ?_, gave.owned, gave.reserved⟩
    · simp
    · simp

def cut (i n : Nat) (held : Place → Nat) : Place → Nat
  | .slot j m => if j = i ∧ m < n then 0 else held (.slot j m)
  | .addr j m => held (.addr j m)

theorem cut_zero : cut i 0 held = held := by
  funext x
  cases x <;> simp [cut]

theorem cut_succ : cut i (n + 1) held = update (cut i n held) (.slot i n) 0 := by
  funext x
  cases x with
  | addr j m => rw [update_of_ne (by simp)]; rfl
  | slot j m =>
    by_cases here : j = i ∧ m = n
    · obtain ⟨rfl, rfl⟩ := here
      simp [cut]
    · rw [update_of_ne (by simpa using here)]
      by_cases isI : j = i
      · grind [cut]
      · simp only [cut, isI, false_and, if_false]

theorem ends_itruncSlots (kept : Kept s) (allocated : (s.ip i).type ≠ 0) (table : (s.ip i).addrs NDIRECT ≠ 0) :
    ends ((List.range NINDIRECT).forM (itruncSlot ((s.ip i).addrs NDIRECT))) Sound
      (fun _ t => Keeps (cut i NINDIRECT s.blockAt) t ∧ ∃ bits, t = { s with bit := bits }) s := by
  let Left (rest : List Nat) (t : State) : Prop := ∃ n ≤ NINDIRECT, rest = List.range' n (NINDIRECT - n) ∧
    Keeps (cut i n s.blockAt) t ∧ ∃ bits, t = { s with bit := bits }
  have start : Left (List.range NINDIRECT) s :=
    ⟨0, Nat.zero_le _, List.range_eq_range', by rwa [cut_zero], s.bit, rfl⟩
  have body (m : Nat) (rest : List Nat) (t : State) (now : Left (m :: rest) t) :
      ends (itruncSlot ((s.ip i).addrs NDIRECT) m) Sound (fun _ => Left rest) t := by
    obtain ⟨n, below, isRest, keeps, bits, rfl⟩ := now
    obtain ⟨more, moreEq⟩ : ∃ more, NINDIRECT - n = more + 1 := by
      cases left : NINDIRECT - n with
      | zero =>
        rw [left] at isRest
        exact absurd isRest (by simp)
      | succ more => exact ⟨more, rfl⟩
    rw [moreEq, List.range'_succ, List.cons.injEq] at isRest
    obtain ⟨rfl, rfl⟩ := isRest
    have held : cut i m s.blockAt (.slot i m) = word (s.data ((s.ip i).addrs NDIRECT)) m := by
      simp only [cut, Nat.lt_irrefl, and_false, if_false]
      exact State.blockAt_slot allocated (by omega) table
    have next : List.range' (m + 1) more = List.range' (m + 1) (NINDIRECT - (m + 1)) := by
      congr 1
      omega
    simp only [itruncSlot, ends_bind, ends_get]
    by_cases empty : word (s.data ((s.ip i).addrs NDIRECT)) m = 0
    · rw [if_pos empty, ends_pure]
      refine ⟨m + 1, by omega, next, ?_, bits, rfl⟩
      rw [cut_succ, ← empty, ← held, update_eq_self]
      exact keeps
    · rw [if_neg empty, ← held]
      refine ends_bfree keeps (held ▸ empty) fun gave => ⟨m + 1, by omega, next, ?_, _, rfl⟩
      rw [cut_succ]
      exact gave
  refine (ends_forM body start).mono fun _ t after => ?_
  obtain ⟨n, below, done, keeps, bits⟩ := after
  have all : n = NINDIRECT := by grind
  rw [all] at keeps
  exact ⟨keeps, bits⟩

end

/-! ## What holds between operations -/

def NoHole (s : State) (i : Nat) : Prop :=
  ∀ bn < MAXFILE, bn * BSIZE < (s.ip i).size → s.blockAt (place i bn) ≠ 0

structure Rules where
  whole : Int → Prop
  fits : Nat → Prop
  dir : whole T_DIR
  free : ¬ whole 0
  small : ∀ n ≤ MAXFILE * BSIZE, fits n

structure Good (W : Rules) (s : State) : Prop where
  kept : Kept s
  clean : ∀ i d, s.core i = some d → d = s.dinode i ∧ d.type ≠ 0
  whole : ∀ i, W.whole (s.ip i).type → NoHole s i
  fits : ∀ i, (s.ip i).type ≠ 0 → W.fits (s.ip i).size

structure Busy (W : Rules) (i : Nat) (s : State) : Prop where
  kept : Kept s
  clean : ∀ j ≠ i, ∀ d, s.core j = some d → d = s.dinode j ∧ d.type ≠ 0
  whole : ∀ j ≠ i, W.whole (s.ip j).type → NoHole s j
  fits : ∀ j ≠ i, (s.ip j).type ≠ 0 → W.fits (s.ip j).size
  allocated : (s.ip i).type ≠ 0

structure Others (i : Nat) (s t : State) : Prop where
  sb : t.sb = s.sb
  core : ∀ j ≠ i, t.core j = s.core j
  dinode : ∀ j ≠ i, t.dinode j = s.dinode j

section
variable {W : Rules} {s t u : State} {i j : Nat}

theorem Others.refl (i : Nat) (s : State) : Others i s s := ⟨rfl, fun _ _ => rfl, fun _ _ => rfl⟩

theorem Others.trans (one : Others i s t) (two : Others i t u) : Others i s u where
  sb := two.sb.trans one.sb
  core j other := (two.core j other).trans (one.core j other)
  dinode j other := (two.dinode j other).trans (one.dinode j other)

theorem Others.ip (others : Others i s t) (other : j ≠ i) : t.ip j = s.ip j := by
  rw [State.ip, others.core j other, others.dinode j other, State.ip]

theorem Remaps.others (remaps : Remaps i s t) : Others i s t :=
  ⟨remaps.sb, remaps.core, fun _ _ => congrFun remaps.dinode _⟩

theorem Others.setIp (d : Dinode) : Others i s (s.setIp i d) :=
  ⟨rfl, fun _ other => update_of_ne other .., fun _ _ => rfl⟩

theorem Others.update : Others i s (s.update i) :=
  ⟨rfl, fun _ _ => rfl, fun _ other => update_of_ne other ..⟩

theorem Good.busy (good : Good W s) (allocated : (s.ip i).type ≠ 0) : Busy W i s :=
  ⟨good.kept, fun j _ => good.clean j, fun j _ => good.whole j, fun j _ => good.fits j, allocated⟩

theorem Busy.of_others (busy : Busy W i s) (kept : Kept t) (others : Others i s t) (allocated : (t.ip i).type ≠ 0)
    (blocks : ∀ j ≠ i, ∀ bn, s.blockAt (place j bn) ≠ 0 → t.blockAt (place j bn) ≠ 0) : Busy W i t where
  kept := kept
  clean j other d cached := by grind [others.core, others.dinode, busy.clean]
  whole j other dir bn small below := by
    rw [others.ip other] at dir below
    exact blocks j other bn (busy.whole j other dir bn small below)
  fits j other used := by
    rw [others.ip other] at used ⊢
    exact busy.fits j other used
  allocated := allocated

theorem Busy.extends (busy : Busy W i s) (kept : Kept t) (more : Extends i s t) : Busy W i t :=
  busy.of_others kept more.others (by rw [more.fields]; exact busy.allocated)
    fun _ _ _ full => more.blocks _ full ▸ full

theorem blockAt_of_ne {x : Place} (ips : t.ip j = s.ip j) (data : t.data = s.data)
    (ofJ : (∃ k, x = .addr j k) ∨ ∃ k, x = .slot j k) : t.blockAt x = s.blockAt x := by
  rcases ofJ with ⟨k, rfl⟩ | ⟨k, rfl⟩ <;> simp only [State.blockAt, ips, data]

theorem place_of (j bn : Nat) : (∃ k, place j bn = .addr j k) ∨ ∃ k, place j bn = .slot j k := by
  rw [place]
  split
  · exact .inl ⟨bn, rfl⟩
  · exact .inr ⟨bn - NDIRECT, rfl⟩

theorem Busy.trims (busy : Busy W i s) (kept : Kept t) (less : Trims i s t) : Busy W i t :=
  busy.of_others kept less.others (by rw [less.fields]; exact busy.allocated) fun j other bn full => by
    rwa [blockAt_of_ne (less.others.ip other) less.data (place_of j bn)]

theorem Busy.setIp (busy : Busy W i s) {d : Dinode} (type : d.type = (s.ip i).type) (addrs : d.addrs = (s.ip i).addrs) :
    Busy W i (s.setIp i d) := by
  have blocks := State.blockAt_setIp d type addrs
  refine busy.of_others ⟨?_, busy.kept.reserved⟩ (.setIp d) ?_ fun j _ bn full => by rwa [blocks]
  · rw [blocks]
    exact busy.kept.owned
  · simpa [type] using busy.allocated

theorem NoHole.congr (hole : NoHole s i) (size : (t.ip i).size = (s.ip i).size) (blocks : t.blockAt = s.blockAt) :
    NoHole t i := by
  intro bn small below
  rw [blocks]
  exact hole bn small (size ▸ below)

theorem Busy.update (busy : Busy W i s) (whole : W.whole (s.ip i).type → NoHole s i) (fits : W.fits (s.ip i).size) :
    Good W (s.update i) where
  kept := by
    refine ⟨?_, busy.kept.reserved⟩
    rw [State.blockAt_update]
    exact busy.kept.owned
  clean j d cached := by
    by_cases same : j = i
    · subst same
      have isIp : d = s.ip j := by
        simp only [State.update] at cached
        simp [State.ip, cached]
      rw [isIp]
      exact ⟨by simp [State.update], busy.allocated⟩
    · have apart : (s.update i).dinode j = s.dinode j := update_of_ne same ..
      rw [apart]
      exact busy.clean j same d cached
  whole j dir := by
    rw [State.ip_update] at dir
    have before : NoHole s j := by grind [busy.whole]
    exact before.congr (by rw [State.ip_update]) (State.blockAt_update s i)
  fits j used := by
    rw [State.ip_update] at used ⊢
    by_cases same : j = i
    · rw [same]
      exact fits
    · exact busy.fits j same used

theorem Busy.finish (busy : Busy W i s) {d : Dinode} (type : d.type = (s.ip i).type) (addrs : d.addrs = (s.ip i).addrs)
    (whole : W.whole d.type → ∀ bn < MAXFILE, bn * BSIZE < d.size → s.blockAt (place i bn) ≠ 0) (fits : W.fits d.size) :
    Good W ((s.setIp i d).update i) ∧ Others i s ((s.setIp i d).update i) ∧ ((s.setIp i d).update i).ip i = d := by
  refine ⟨(busy.setIp type addrs).update (fun dir bn small below => ?_) ?_, (Others.setIp d).trans .update, ?_⟩
  · rw [State.ip_setIp, update_self] at dir below
    rw [State.blockAt_setIp d type addrs]
    exact whole dir bn small below
  · rw [State.ip_setIp, update_self]
    exact fits
  · rw [State.ip_update, State.ip_setIp, update_self]

/-! ## Truncating -/

theorem ends_itruncDirect (busy : Busy W i s) :
    ends ((List.range NDIRECT).forM (itruncAddr i)) Sound (fun _ t => Busy W i t ∧ Trims i s t ∧
      ∀ k < NDIRECT, (t.ip i).addrs k = 0) s := by
  let Left (rest : List Nat) (t : State) : Prop := Busy W i t ∧ Trims i s t ∧ (∀ k ∈ rest, k < NDIRECT) ∧
    ∀ k < NDIRECT, k ∉ rest → (t.ip i).addrs k = 0
  have start : Left (List.range NDIRECT) s :=
    ⟨busy, .refl i s, fun k => List.mem_range.mp, fun k small outside => absurd (List.mem_range.mpr small) outside⟩
  have body (k : Nat) (rest : List Nat) (t : State) (now : Left (k :: rest) t) :
      ends (itruncAddr i k) Sound (fun _ => Left rest) t := by
    obtain ⟨busy, less, inside, done⟩ := now
    have small := inside k List.mem_cons_self
    have here := State.blockAt_addr busy.allocated (Nat.le_of_lt small)
    refine (ends_itruncAddr busy.kept here).mono fun _ u after => ?_
    obtain ⟨trims, addrs, keeps⟩ := after
    have blocks : u.blockAt = update t.blockAt (.addr i k) 0 := by
      rw [← State.blockAt_setAddr busy.allocated small]
      refine State.blockAt_congr ?_ trims.data
      funext j
      by_cases same : j = i
      · subst same
        rw [trims.fields, addrs]
        simp
      · rw [trims.others.ip same]
        simp [same]
    rw [← blocks] at keeps
    refine ⟨busy.trims keeps trims, less.trans trims, fun m member => inside m (List.mem_cons_of_mem _ member), ?_⟩
    intro m below outside
    rw [addrs]
    by_cases same : m = k
    · rw [same, update_self]
    · grind
  refine (ends_forM body start).mono fun _ t after => ?_
  obtain ⟨busy, less, -, done⟩ := after
  exact ⟨busy, less, fun k small => done k small List.not_mem_nil⟩

theorem ends_itruncIndirect (busy : Busy W i s) (table : (s.ip i).addrs NDIRECT ≠ 0) :
    ends (do
      (List.range NINDIRECT).forM (itruncSlot ((s.ip i).addrs NDIRECT))
      itruncAddr i NDIRECT) Sound
      (fun _ t => Busy W i t ∧ Trims i s t ∧ (t.ip i).addrs = update (s.ip i).addrs NDIRECT 0) s := by
  refine (ends_itruncSlots busy.kept busy.allocated table).bind fun _ t after => ?_
  obtain ⟨keeps, bits, rfl⟩ := after
  have here : cut i NINDIRECT s.blockAt (.addr i NDIRECT) = (s.ip i).addrs NDIRECT :=
    State.blockAt_addr busy.allocated (Nat.le_refl _)
  refine (ends_itruncAddr keeps here).mono fun _ u after => ?_
  obtain ⟨trims, addrs, keeps⟩ := after
  have less : Trims i s u := ⟨⟨trims.sb, trims.dinode, trims.core, trims.fields⟩, trims.data⟩
  have blocks : u.blockAt = update (cut i NINDIRECT s.blockAt) (.addr i NDIRECT) 0 := by
    funext x
    cases x with
    | addr j k =>
      by_cases isI : j = i
      · subst isI
        by_cases isK : k = NDIRECT
        · subst isK
          rw [update_self, State.blockAt, addrs, update_self, ite_self]
        · rw [update_of_ne (by simpa using isK), State.blockAt, less.fields, addrs, update_of_ne isK]
          rfl
      · rw [update_of_ne (by simp [isI])]
        exact blockAt_of_ne (less.others.ip isI) less.data (.inl ⟨k, rfl⟩)
    | slot j k =>
      by_cases isI : j = i
      · subst isI
        have none : u.blockAt (.slot j k) = 0 := by simp [State.blockAt, addrs]
        rw [none]
        by_cases inside : k < NINDIRECT
        · simp [cut, inside]
        · simp [cut, State.blockAt, inside]
      · rw [blockAt_of_ne (less.others.ip isI) less.data (.inr ⟨k, rfl⟩)]
        simp [cut, isI]
  rw [← blocks] at keeps
  exact ⟨busy.trims keeps less, less, addrs⟩

theorem ends_itrunc (good : Good W s) (allocated : (s.ip i).type ≠ 0) :
    ends (itrunc i) Sound (fun _ t => Good W t ∧ Others i s t ∧ (t.ip i).type = (s.ip i).type ∧
      ∀ k ≤ NDIRECT, (t.ip i).addrs k = 0) s := by
  have finish {t : State} (busy : Busy W i t) (less : Trims i s t) (zero : ∀ k ≤ NDIRECT, (t.ip i).addrs k = 0) :
      ends (do
        modify fun s => s.setIp i { s.ip i with size := 0 }
        iupdate i) Sound (fun _ t => Good W t ∧ Others i s t ∧ (t.ip i).type = (s.ip i).type ∧
          ∀ k ≤ NDIRECT, (t.ip i).addrs k = 0) t := by
    simp only [iupdate, ends_bind, ends_modify]
    obtain ⟨good', others, isIp⟩ := busy.finish (d := { t.ip i with size := 0 }) rfl rfl
      (fun _ bn _ below => absurd below (Nat.not_lt_zero _)) (W.small 0 (Nat.zero_le _))
    have type : (t.ip i).type = (s.ip i).type := by rw [less.fields]
    rw [isIp]
    exact ⟨good', less.others.trans others, type, zero⟩
  rw [itrunc]
  refine (ends_itruncDirect (good.busy allocated)).bind fun _ t after => ?_
  obtain ⟨busy, less, zero⟩ := after
  rw [ends_bind, ends_get, ends_bind]
  by_cases table : (t.ip i).addrs NDIRECT = 0
  · rw [if_pos table, ends_pure]
    refine finish busy less fun k small => ?_
    rcases Nat.lt_or_eq_of_le small with direct | rfl
    · exact zero k direct
    · exact table
  · rw [if_neg table]
    refine (ends_itruncIndirect busy table).mono fun _ u after => ?_
    obtain ⟨busy', less', addrs⟩ := after
    refine finish busy' (less.trans less') fun k small => ?_
    rw [addrs]
    rcases Nat.lt_or_eq_of_le small with direct | rfl
    · grind
    · exact update_self ..

end

end Xv6.Blocks
