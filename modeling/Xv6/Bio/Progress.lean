import Xv6.Bio.Invariant

namespace Xv6.BlockStore
open Lib Function
open Bio (Buf Bcache)
open Commit (Block Layout storeHead)
open GroupCommit (Log)

attribute [local simp] facts claims State.goto

/-! ## The progress of a process through its own code -/

section
variable {ι : Type} {l : Layout} {s t : State ι} {p : ι} {b : Buf} {k : Pc} {x : Nat}

theorem local_user (s : State ι) (p : ι) : Local l s p .user where
  claimed := nofun
  distinct := List.nodup_nil
  awaited := nofun
  leaving := nofun
  settled := by simp
  facts := nofun

theorem Local.same {pc : Pc} (loc : Local l s p pc) (bcache : t.bcache = s.bcache) (data : t.data = s.data)
    (lock : t.lock = s.lock) (refs : t.refs = s.refs) (dirty : t.dirty = s.dirty) (log : SameLog s t) : Local l t p pc := by
  refine loc.kept ⟨?_, ?_, ?_, ?_, ?_, ?_⟩ ?_ (fun _ => log)
  · rw [lock]
    exact fun _ => id
  · rw [dirty]
    exact fun _ _ => id
  · rw [refs]
    exact fun _ => id
  · intro b _
    rw [State.blockno, bcache]
    rfl
  · rw [bcache]
    exact fun _ _ => id
  · rw [data]
    exact fun _ _ => rfl
  · rw [lock]
    exact fun _ => id

theorem Local.told {pc : Pc} (loc : Local l s p pc) : (BlockStore.facts l pc).Forall (·.Holds l s p) :=
  List.forall_iff_forall_mem.mpr loc.facts

theorem settled_awaits (done : settled k = true) : awaits k = none := by
  cases k <;> first | rfl | cases done

theorem settled_plain {f : Fact} (done : settled k = true) (member : f ∈ facts l k) : f.plain = true := by
  induction k with
  | user => cases member
  | writeLog tail | install tail | finish =>
    revert f
    simp [Fact.plain]
  | relse b k ih => exact ih done member
  | _ => cases done

structure Steady (k : Pc) : Prop where
  awaits : awaits k = none
  relse : ∀ b k', k ≠ .relse b k'
  unref : ∀ b k', k ≠ .unref b k'

theorem Steady.local_of (steady : Steady k) (claimed : ∀ b ∈ claims k, s.lock b = some p ∧ s.dirty b = false)
    (distinct : (claims k).Nodup) (told : (facts l k).Forall (·.Holds l s p)) : Local l s p k where
  claimed := claimed
  distinct := distinct
  awaited b found := by
    rw [steady.awaits] at found
    cases found
  leaving b k' place := absurd place (steady.unref b k')
  settled b k' place := by grind [steady.relse, steady.unref]
  facts := List.forall_iff_forall_mem.mp told

theorem after_steady (r : Reader) (b : Buf) : Steady (r.after b) := by
  cases r <;> exact ⟨rfl, nofun, nofun⟩

theorem claims_after (r : Reader) (b : Buf) : claims (r.after b) ⊆ b :: r.claims ∧
    ((b :: r.claims).Nodup → (claims (r.after b)).Nodup) := by
  cases r <;> simp [Reader.after, Reader.claims]

theorem after_facts {r : Reader} (read : ∀ f ∈ facts l (.fill x b r), f.Holds l s p)
    (valid : (Fact.valid b).Holds l s p) : (facts l (r.after b)).Forall (·.Holds l s p) := by
  have block : (Fact.block b x).Holds l s p := read _ (by simp)
  replace read := List.forall_iff_forall_mem.mpr read
  cases r with
  | user => trivial
  | logTo tail | installLog tail =>
    obtain ⟨-, equal, below, logged, unpinned, room⟩ := read
    exact ⟨below, ⟨block.1, block.2.trans equal⟩, valid, logged, unpinned, room⟩
  | logFrom tail dst =>
    obtain ⟨-, index, blockDst, validDst, logged, unpinned, room⟩ := read
    refine ⟨⟨block.1, ?_⟩, valid, blockDst, validDst, logged, unpinned, room⟩
    rw [block.2]
    exact index
  | head again =>
    obtain ⟨-, equal, unpinned, room, last⟩ := read
    exact ⟨⟨block.1, block.2.trans equal⟩, valid, unpinned, room, last⟩
  | installDst tail lbuf =>
    obtain ⟨-, index, blockLog, validLog, logged, unpinned, room⟩ := read
    refine ⟨⟨block.1, ?_⟩, valid, blockLog, validLog, logged, unpinned, room⟩
    rw [block.2]
    exact index

theorem after_local {r : Reader} (claimed : ∀ b' ∈ b :: r.claims, s.lock b' = some p ∧ s.dirty b' = false)
    (distinct : (b :: r.claims).Nodup) (read : ∀ f ∈ facts l (.fill x b r), f.Holds l s p)
    (valid : (s.bcache.buf b).valid = true) : Local l s p (r.after b) :=
  (after_steady r b).local_of (fun b' member => claimed b' ((claims_after r b).1 member))
    ((claims_after r b).2 distinct) (after_facts read ⟨(claimed b (by simp)).1, valid⟩)

theorem lhBlock_eq {tail : Nat} (below : tail < s.log.lh.length) : s.log.lh[tail]? = some (lhBlock s tail) := by
  grind [lhBlock]

theorem jump_local (loc : Local l s p (s.pc p)) (logged : Logged l s) (found : code l s (s.pc p) = some (.jump k)) :
    Local l s p k := by
  cases place : s.pc p with
  | commit =>
    rw [place] at found loc
    have told := loc.told
    cases found
    split_ifs with some
    · refine Steady.local_of ⟨rfl, nofun, nofun⟩ nofun List.nodup_nil ?_
      have room : s.log.lh.length < l.size := logged.bound (List.ne_nil_of_length_pos some)
      exact ⟨fun _ _ low => absurd low (Nat.not_lt_zero _), told, Nat.zero_lt_of_lt room⟩
    · exact Steady.local_of ⟨rfl, nofun, nofun⟩ nofun List.nodup_nil loc.told
  | writeLog tail =>
    rw [place] at found loc
    obtain ⟨copied, unpinned, room⟩ := loc.told
    cases found
    split_ifs with below
    · refine Steady.local_of ⟨rfl, nofun, nofun⟩ nofun List.nodup_nil ?_
      exact ⟨rfl, below, copied, unpinned, room⟩
    · refine Steady.local_of ⟨rfl, nofun, nofun⟩ nofun List.nodup_nil ?_
      refine ⟨rfl, unpinned, room, ?_⟩
      intro i x entry
      obtain ⟨inside, -⟩ := List.getElem?_eq_some_iff.mp entry
      exact copied i x (by omega) entry
  | logRead tail dst | installRead tail lbuf =>
    rw [place] at found loc
    obtain ⟨below, rest⟩ := loc.told
    cases found
    refine Steady.local_of ⟨rfl, nofun, nofun⟩ loc.claimed loc.distinct ?_
    exact ⟨lhBlock_eq below, rest⟩
  | install tail =>
    rw [place] at found loc
    obtain ⟨copied, unpinned, room⟩ := loc.told
    cases found
    split_ifs with below
    · refine Steady.local_of ⟨rfl, nofun, nofun⟩ nofun List.nodup_nil ?_
      exact ⟨rfl, below, copied, unpinned, room⟩
    · refine Steady.local_of ⟨rfl, nofun, nofun⟩ nofun List.nodup_nil ?_
      refine ⟨?_, room⟩
      change s.unpinned = s.log.lh
      rw [show s.unpinned = s.log.lh.take tail from unpinned, List.take_of_length_le (by omega)]
  | _ =>
    rw [place] at found
    cases found

theorem held_store (inv : Inv l s) {i : Nat} (claimed : b ∈ claims (s.pc p)) (entry : (Fact.entry b i).Holds l s p)
    (valid : (Fact.valid b).Holds l s p) (index : s.log.lh[i]? = some x) : s.data b = s.store x := by
  obtain rfl : s.blockno b = x := Option.some.inj (entry.2.symm.trans index)
  exact inv.buffers b (inv.device p b entry.1) valid.2 (inv.homes _ (List.mem_of_getElem? index))
    ((inv.places p).claimed b claimed).2

theorem Logged.inLog (logged : Logged l s) {i : Nat} (index : s.log.lh[i]? = some x) : ¬ Home l (l.start + i + 1) := by
  obtain ⟨below, -⟩ := List.getElem?_eq_some_iff.mp index
  have bound := logged.bound (List.ne_nil_of_length_pos (Nat.zero_lt_of_lt below))
  simp only [Home, Layout.InLog]
  omega

theorem relse_local (claimed : ∀ b' ∈ claims (.relse b k), s.lock b' = some p ∧ s.dirty b' = false)
    (distinct : (claims (.relse b k)).Nodup) (done : settled k = true) (told : (facts l k).Forall (·.Holds l s p)) :
    Local l s p (.relse b k) where
  claimed := claimed
  distinct := distinct
  awaited := nofun
  leaving := nofun
  settled b' k' place := by grind
  facts := List.forall_iff_forall_mem.mp told

variable [DecidableEq ι]

theorem copy_local {v : Block} (inv : Inv l s) (found : code l s (s.pc p) = some (.copy b v k)) :
    Local l ({ s with data := update s.data b v }.goto p k) p k := by
  have loc := inv.places p
  cases place : s.pc p with
  | logCopy tail dst src =>
    rw [place] at found loc
    cases found
    obtain ⟨entry, validSrc, blockDst, validDst, rest⟩ := loc.told
    refine Steady.local_of ⟨rfl, nofun, nofun⟩ loc.claimed loc.distinct ?_
    refine ⟨(List.getElem?_eq_some_iff.mp entry.2).1, blockDst, ⟨validDst.1, ?_⟩, rest⟩
    intro x index
    change update s.data b (s.data src) b = s.store x
    rw [update_self]
    exact held_store inv (by simp [place]) entry validSrc index
  | head again b' =>
    rw [place] at found loc
    cases found
    have told := loc.told
    refine Steady.local_of ⟨rfl, nofun, nofun⟩ loc.claimed loc.distinct ?_
    cases again <;> exact told
  | installCopy tail lbuf dbuf =>
    rw [place] at found loc
    cases found
    obtain ⟨entry, valid, -, -, rest⟩ := loc.told
    refine Steady.local_of ⟨rfl, nofun, nofun⟩ loc.claimed loc.distinct ?_
    exact ⟨entry, valid, rest⟩
  | _ =>
    rw [place] at found
    cases found

theorem bwrite_local (inv : Inv l s) (found : code l s (s.pc p) = some (.bwrite b k)) :
    Local l ({ s with disk := update s.disk (s.blockno b) (s.data b) }.goto p k) p k := by
  have loc := inv.places p
  cases place : s.pc p with
  | logBwrite tail dst src =>
    rw [place] at found loc
    cases found
    obtain ⟨-, block, copied, logged, rest⟩ := loc.told
    refine relse_local loc.claimed loc.distinct rfl ?_
    refine ⟨?_, rest⟩
    intro i x low index
    change update s.disk (s.blockno b) (s.data b) (l.start + i + 1) = s.store x
    rw [block.2]
    by_cases last : i = tail
    · subst last
      rw [update_self]
      exact copied.2 x index
    · rw [update_of_ne (by omega)]
      exact logged i x (by omega) index
  | headBwrite again b' =>
    rw [place] at found loc
    cases found
    obtain ⟨block, -, unpinned, room, last⟩ := loc.told
    cases again with
    | true =>
      refine relse_local loc.claimed loc.distinct rfl ?_
      exact unpinned
    | false =>
      refine relse_local loc.claimed loc.distinct rfl ?_
      refine ⟨?_, unpinned, room⟩
      intro i x index
      change update s.disk (s.blockno b) (s.data b) (l.start + i + 1) = s.store x
      rw [block.2, update_of_ne (by omega)]
      exact last i x index
  | installBwrite tail lbuf dbuf =>
    rw [place] at found loc
    cases found
    obtain ⟨entry, valid, logged, rest⟩ := loc.told
    refine Steady.local_of ⟨rfl, nofun, nofun⟩ loc.claimed loc.distinct ?_
    refine ⟨entry, valid, ?_, ?_, rest⟩
    · intro x index
      change update s.disk (s.blockno b) (s.data b) x = s.store x
      obtain rfl : s.blockno b = x := Option.some.inj (entry.2.symm.trans index)
      rw [update_self]
      exact held_store inv (by simp [place]) entry valid index
    · intro i x index
      change update s.disk (s.blockno b) (s.data b) (l.start + i + 1) = s.store x
      have other : l.start + i + 1 ≠ s.blockno b := by
        intro same
        have home := inv.homes _ (List.mem_of_getElem? entry.2)
        rw [← same] at home
        exact inv.inLog index home
      rw [update_of_ne other]
      exact logged i x index
  | _ =>
    rw [place] at found
    cases found

theorem effect_own (inv : Inv l s) (effect : Effect l s p t) : Local l t p (t.pc p) := by
  have loc := inv.places p
  have moved {t : State ι} (k : Pc) (own : Local l (t.goto p k) p k) : Local l (t.goto p k) p ((t.goto p k).pc p) := by
    rw [show (t.goto p k).pc p = k from update_self ..]
    exact own
  have user {t : State ι} (place : t.pc p = .user) : Local l t p (t.pc p) := by
    rw [place]
    exact local_user t p
  cases effect with
  | stop why => exact loc.same rfl rfl rfl rfl rfl ⟨rfl, rfl, rfl, rfl⟩
  | jump k found =>
    exact moved k ((jump_local loc inv.toLogged found).same rfl rfl rfl rfl rfl ⟨rfl, rfl, rfl, rfl⟩)
  | hit x r b place found =>
    rw [place] at loc
    have kept := hit_undisturbed (s := s) (b := b) (p := p) (x := x) (r := r) p
    refine moved _ ⟨?_, loc.distinct, ?_, (by simp), by simp, ?_⟩
    · exact loc.claimed
    · intro b' same
      cases same
      exact List.mem_cons_self
    · intro f member
      rcases List.mem_cons.mp member with rfl | old
      · exact ⟨List.mem_cons_self, (update_blockno s.bcache b b (by rfl)).trans found.2⟩
      · exact (loc.facts f old).kept kept ⟨rfl, rfl, rfl, rfl⟩
  | recycle x r b place absent unused =>
    rw [place] at loc
    refine moved _ ⟨?_, loc.distinct, ?_, (by simp), by simp, ?_⟩
    · exact loc.claimed
    · intro b' same
      cases same
      exact List.mem_cons_self
    · intro f member
      rcases List.mem_cons.mp member with rfl | old
      · exact ⟨List.mem_cons_self, by simp [State.blockno, Bcache.setBuf]⟩
      · exact (loc.facts f old).kept (inv.recycle_undisturbed unused p) ⟨rfl, rfl, rfl, rfl⟩
  | acquire x b r place free =>
    rw [place] at loc
    have kept := acquire_undisturbed (p := p) (k := .fill x b r) free p
    refine moved _ (Steady.local_of ⟨rfl, (by simp), (by simp)⟩ ?_ ?_ ?_)
    · intro b' member
      rcases List.mem_cons.mp member with rfl | old
      · refine ⟨by simp, ?_⟩
        by_contra dirty
        exact inv.dirty b' (by simpa using dirty) free
      · exact ⟨kept.lock b' (loc.claimed b' old).1, (loc.claimed b' old).2⟩
    · refine List.nodup_cons.mpr ⟨?_, loc.distinct⟩
      intro member
      have held := (loc.claimed b member).1
      rw [free] at held
      cases held
    · refine List.forall_iff_forall_mem.mpr fun f member => ?_
      exact (loc.facts f member).kept kept ⟨rfl, rfl, rfl, rfl⟩
  | filled x b r place valid =>
    rw [place] at loc
    exact moved _ ((after_local loc.claimed loc.distinct loc.facts valid).same rfl rfl rfl rfl rfl ⟨rfl, rfl, rfl, rfl⟩)
  | fill x b r place invalid =>
    rw [place] at loc
    refine moved _ (after_local (x := x) loc.claimed loc.distinct ?_ (by simp [Bcache.setBuf]))
    intro f member
    have holds := loc.facts f member
    cases f with
    | block b' x' => exact ⟨holds.1, (update_blockno s.bcache b b' (by rfl)).trans holds.2⟩
    | valid b' => exact ⟨holds.1, update_valid s.bcache b b' (fun _ => rfl) holds.2⟩
    | entry b' i => exact ⟨holds.1, holds.2.trans (congrArg some (update_blockno s.bcache b b' (by rfl)).symm)⟩
    | copied b' i =>
      cases r with
      | head again => cases again <;> simp [Reader.facts] at member
      | _ => simp [Reader.facts] at member
    | _ => exact holds
  | copy b v k found => exact moved k (copy_local inv found)
  | bwrite b k found => exact moved k (bwrite_local inv found)
  | release b k place held =>
    rw [place] at loc
    have done := loc.settled b k (.inl rfl)
    refine moved _ ⟨?_, (List.nodup_cons.mp loc.distinct).2, ?_, ?_, ?_, ?_⟩
    · intro b' member
      have other : b' ≠ b := by
        rintro rfl
        exact (List.nodup_cons.mp loc.distinct).1 member
      obtain ⟨mine, clean⟩ := loc.claimed b' (List.mem_cons_of_mem _ member)
      exact ⟨by simpa [other] using mine, clean⟩
    · intro b' same
      cases same
      exact inv.locked p b held
    · simp
    · grind
    · intro f member
      refine Fact.Holds.plain_kept (settled_plain done member) ?_ (loc.facts f member)
      exact ⟨rfl, rfl, rfl, rfl⟩
  | unref b k place =>
    rw [place] at loc
    have done := loc.settled b k (.inr rfl)
    refine moved k ⟨loc.claimed, loc.distinct, ?_, ?_, ?_, ?_⟩
    · grind [settled_awaits]
    · rintro b' k' rfl
      cases done
    · rintro b' k' (rfl | rfl)
      · exact done
      · cases done
    · intro f member
      refine Fact.Holds.plain_kept (settled_plain done member) ?_ (loc.facts f member)
      exact ⟨rfl, rfl, rfl, rfl⟩
  | unpin tail lbuf dbuf place =>
    rw [place] at loc
    obtain ⟨entry, valid, -, logged, unpinned, room⟩ := loc.told
    refine moved _ (relse_local ?_ ?_ rfl ?_)
    · intro b' member
      exact loc.claimed b' (by simpa [or_comm] using member)
    · have distinct := loc.distinct
      simp only [claims, List.nodup_cons, List.mem_singleton, List.not_mem_nil, not_false_eq_true, List.nodup_nil,
        and_true] at distinct ⊢
      exact Ne.symm distinct
    · refine ⟨logged, ?_, room⟩
      change s.unpinned ++ [s.blockno dbuf] = s.log.lh.take (tail + 1)
      rw [List.take_add_one, entry.2, show s.unpinned = s.log.lh.take tail from unpinned]
      rfl
  | clear place =>
    rw [place] at loc
    have told := loc.told
    refine moved _ (Steady.local_of ⟨rfl, (by simp), (by simp)⟩ (by rintro _ ⟨⟩) List.nodup_nil ?_)
    exact ⟨rfl, rfl, told.2, rfl⟩
  | finish place => exact moved _ (local_user _ p)
  | beginOp place => exact user place
  | endOp place => exact user place
  | commit place inside idle last =>
    refine moved _ (Steady.local_of ⟨rfl, (by simp), (by simp)⟩ (by simp) List.nodup_nil ?_)
    exact inv.rest idle
  | bread x place => exact moved _ (Steady.local_of ⟨rfl, (by simp), (by simp)⟩ (by rintro _ ⟨⟩) List.nodup_nil trivial)
  | change b v place => exact user place
  | logWrite b place => exact user place
  | brelse b place held clean =>
    refine moved _ (relse_local ?_ (by simp) rfl trivial)
    intro b' member
    obtain rfl : b' = b := by simpa using member
    exact ⟨held, clean⟩

end

end Xv6.BlockStore
