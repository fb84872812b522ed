import Xv6.Virtio.Disk

namespace Xv6.Virtio
open Lib Function

section
variable {T B : Type} {Q : Unit → State T B → Prop} {c : Chain} {s : State T B}

/-! ## Descriptors come and go -/

theorem ends_allocDesc (s : State T B) :
    ends (allocDesc : Op T B _) Fine (fun found u => match found with
      | some i => i < NUM ∧ s.free i = true ∧ u = { s with free := update s.free i false }
      | none => u = s) s := by
  simp only [allocDesc, ends_bind, ends_get]
  cases found : (List.range NUM).find? s.free with
  | none => exact (ends_pure ..).mpr rfl
  | some i => grind [ends_bind, ends_modify, ends_pure]

def State.freed (s : State T B) (i : Nat) : State T B :=
  { s with
    desc := update s.desc i ⟨.null, 0, 0, 0⟩
    free := update s.free i true }

attribute [local simp] State.freed

theorem ends_freeDesc {i : Nat} (small : i < NUM) (taken : s.free i = false)
    (after : Q () (s.freed i)) : ends (freeDesc i) Fine Q s := by
  simp only [freeDesc, ends_bind, ends_get]
  rw [if_neg (Nat.not_le.mpr small), taken]
  exact (ends_modify ..).mpr after

structure Undone (s u : State T B) : Prop where
  free : u.free = s.free
  desc : ∀ i, s.free i = false → u.desc i = s.desc i
  rest : u = { s with desc := u.desc, free := u.free }

theorem ends_alloc3Desc (s : State T B) :
    ends (alloc3Desc : Op T B _) Fine (fun found u => match found with
      | some c => c.descs.Nodup ∧ (∀ i ∈ c.descs, i < NUM ∧ s.free i = true) ∧
          u = { s with free := fun i => if i ∈ c.descs then false else s.free i }
      | none => Undone s u) s := by
  rw [alloc3Desc]
  refine (ends_allocDesc s).bind fun one s₁ first => ?_
  cases one with
  | none =>
    obtain rfl : s₁ = s := first
    exact (ends_pure ..).mpr ⟨rfl, fun _ _ => rfl, rfl⟩
  | some i =>
    obtain ⟨smallI, freeI, rfl⟩ := first
    refine (ends_allocDesc _).bind fun two s₂ second => ?_
    cases two with
    | none =>
      obtain rfl : s₂ = _ := second
      rw [ends_bind]
      refine ends_freeDesc smallI (update_self ..) ((ends_pure ..).mpr ⟨?_, ?_, rfl⟩)
      · simp only [State.freed, update_idem, ← freeI, update_eq_self]
      · intro m taken
        refine update_of_ne ?_ ..
        rintro rfl
        simp [freeI] at taken
    | some j =>
      obtain ⟨smallJ, freeJ, rfl⟩ := second
      have distinct : j ≠ i := by
        rintro rfl
        simp at freeJ
      replace freeJ : s.free j = true := by simpa [distinct] using freeJ
      refine (ends_allocDesc _).bind fun three s₃ third => ?_
      cases three with
      | none =>
        obtain rfl : s₃ = _ := third
        rw [ends_bind]
        refine ends_freeDesc smallI (by simp [Ne.symm distinct]) ?_
        rw [ends_bind]
        refine ends_freeDesc smallJ (by simp [distinct]) ((ends_pure ..).mpr ⟨?_, ?_, rfl⟩)
        · funext m
          by_cases isJ : m = j
          · subst isJ
            simp [freeJ]
          · by_cases isI : m = i
            · subst isI
              simp [isJ, freeI]
            · simp [isJ, isI]
        · intro m taken
          have notI : m ≠ i := by
            rintro rfl
            simp [freeI] at taken
          have notJ : m ≠ j := by
            rintro rfl
            simp [freeJ] at taken
          simp [notI, notJ]
      | some k =>
        obtain ⟨smallK, freeK, rfl⟩ := third
        have notJ : k ≠ j := by
          rintro rfl
          simp at freeK
        have notI : k ≠ i := by
          rintro rfl
          simp [notJ] at freeK
        replace freeK : s.free k = true := by simpa [notI, notJ] using freeK
        refine (ends_pure ..).mpr ⟨?_, ?_, ?_⟩
        · simp [Chain.descs, Ne.symm distinct, Ne.symm notI, Ne.symm notJ]
        · simp [Chain.descs, smallI, smallJ, smallK, freeI, freeJ, freeK]
        · congr 1
          funext m
          simp only [update_apply, Chain.descs, List.mem_cons, List.not_mem_nil, or_false]
          by_cases isK : m = k <;> by_cases isJ : m = j <;> by_cases isI : m = i <;> simp [isK, isJ, isI]

theorem ends_freeChain (linked : Linked s.desc c)
    (taken : ∀ i ∈ c.descs, s.free i = false) (after : Q () (((s.freed c.head).freed c.body).freed c.last)) :
    ends (freeChain c.head) Fine Q s := by
  obtain ⟨nodup, small, ⟨headFlag, headNext⟩, ⟨bodyFlag, bodyNext⟩, lastFlag⟩ := linked
  simp only [Chain.descs, List.nodup_cons, List.mem_cons, List.not_mem_nil, or_false, not_or, not_false_eq_true,
    List.nodup_nil, and_true, forall_eq_or_imp, forall_eq] at nodup small taken
  obtain ⟨⟨notBody, notLast⟩, bodyLast⟩ := nodup
  simp only [freeChain, freeChainFrom, ends_bind, ends_get]
  refine ends_freeDesc small.1 taken.1 ?_
  rw [if_pos headFlag, headNext, ends_bind, ends_get, ends_bind]
  have bodyDesc : (s.freed c.head).desc c.body = s.desc c.body := update_of_ne (Ne.symm notBody) ..
  refine ends_freeDesc small.2.1 (by simpa [Ne.symm notBody] using taken.2.1) ?_
  rw [bodyDesc, if_pos bodyFlag, bodyNext, ends_bind, ends_get, ends_bind]
  have lastDesc : ((s.freed c.head).freed c.body).desc c.last = s.desc c.last := by
    simp [Ne.symm notLast, Ne.symm bodyLast]
  refine ends_freeDesc small.2.2 (by simpa [Ne.symm notLast, Ne.symm bodyLast] using taken.2.2) ?_
  rw [lastDesc, if_neg (not_not.mpr lastFlag)]
  exact (ends_pure ..).mpr after

/-! ## Moves that leave the requests -/

variable [DecidableEq T] {t : T} {p start : Pc B}

theorem Inv.lock_acquire (inv : Inv s) (unlocked : s.lock = none) (locks : p.locks = true) (v : T) :
    some t = some v ↔ (update s.pc t p v).locks = true := by
  by_cases same : v = t
  · subst same
    simp [locks]
  · have idle : (s.pc v).locks = false := by
      cases theirs : (s.pc v).locks with
      | false => rfl
      | true =>
        have held := (inv.lock v).mpr theirs
        rw [unlocked] at held
        exact nomatch held
    simp [same, Ne.symm same, idle]

theorem Inv.lock_release (inv : Inv s) (place : s.pc t = start) (locked : start.locks = true) (unlocks : p.locks = false) (v : T) :
    (none : Option T) = some v ↔ (update s.pc t p v).locks = true := by
  by_cases same : v = t
  · subst same
    simp [unlocks]
  · have held := (inv.lock t).mpr (place ▸ locked)
    have idle : (s.pc v).locks = false := by
      cases theirs : (s.pc v).locks with
      | false => rfl
      | true =>
        have theirs := (inv.lock v).mpr theirs
        rw [held] at theirs
        exact absurd (Option.some.inj theirs).symm same
    simp [same, idle]

theorem Inv.lock_stay (inv : Inv s) (place : s.pc t = start) (same : p.locks = start.locks) (v : T) :
    s.lock = some v ↔ (update s.pc t p v).locks = true := by grind [inv.lock]

theorem update_same {α : Type} (f : Pc B → α) (place : s.pc t = start) (same : f p = f start) (v : T) :
    f (update s.pc t p v) = f (s.pc v) := by grind

theorem Requests.move (asked : Requests s) (place : s.pc t = start) (request : p.request = start.request) :
    Requests { s with pc := update s.pc t p } where
  linked v := by rw [update_same Pc.request place request]; exact asked.linked v
  free i small := by
    simp only [update_same Pc.request place request]
    exact asked.free i small
  apart v u := by
    rw [update_same Pc.request place request, update_same Pc.request place request]
    exact asked.apart v u
  info v := by rw [update_same Pc.request place request]; exact asked.info v

theorem Inv.quiet (inv : Inv s) {l : Option T} (place : s.pc t = start) (request : p.request = start.request)
    (posted : p.posted = start.posted) (buf : p.buf = start.buf) (notNotify : ∀ b c, p ≠ .notify b c)
    (lock : ∀ v, l = some v ↔ (update s.pc t p v).locks = true) : Inv { s with pc := update s.pc t p, lock := l } where
  toRequests := { inv.toRequests.move place request with }
  holder v := by rw [update_same Pc.buf place buf]; exact inv.holder v
  nodup := inv.nodup
  flying h := by
    simp only [update_same Pc.posted place posted]
    exact inv.flying h
  flag v := by
    rw [update_same Pc.request place request, update_same Pc.posted place posted]
    exact inv.flag v
  lock := lock
  stored v b c place := by grind [inv.stored]

/-! ## Posting a request -/

theorem Inv.other_idle (inv : Inv s) {v : T} (locked : (s.pc t).locks = true) (other : v ≠ t) : (s.pc v).locks = false := by
  have idle := inv.lock_release (p := .out) rfl locked rfl v
  rw [update_of_ne other] at idle
  simpa using idle

theorem Inv.store (inv : Inv s) {b : B} (place : s.pc t = .store b c) :
    Inv { s.goto t (.notify b c) with
      avail.data := update s.avail.data (Fifo.cell NUM s.avail.tail) c.head } := by
  have posted := update_same Pc.posted (p := .notify b c) place rfl
  have locked : (s.pc t).locks = true := by rw [place]; rfl
  have room : s.avail.count < NUM := inv.avail_room (t := t) (b := b) (c := c) (by rw [place]; rfl) (by rw [place]; rfl)
  have flights : State.flights { s.goto t (.notify b c) with
      avail.data := update s.avail.data (Fifo.cell NUM s.avail.tail) c.head } = s.flights :=
    congrArg (· ++ (s.pending ++ s.used.contents)) (Fifo.contents_store (by decide) room)
  refine ⟨{ inv.toRequests.move (p := .notify b c) place rfl with }, fun v => ?_, ?_, fun h => ?_, fun v => ?_,
    inv.lock_stay place rfl, fun v b' c' is => ?_⟩
  · rw [State.goto, update_same Pc.buf (p := .notify b c) place rfl]
    exact inv.holder v
  · rw [flights]
    exact inv.nodup
  · rw [flights]
    simp only [State.goto, posted]
    exact inv.flying h
  · rw [State.goto, update_same Pc.request (p := .notify b c) place rfl, posted]
    exact inv.flag v
  · by_cases isT : v = t
    · subst isT
      simp only [State.goto, update_self, Pc.notify.injEq] at is
      simp [State.goto, is.2]
    · simp only [State.goto, update_of_ne isT] at is
      have idle := inv.other_idle locked isT
      rw [is] at idle
      cases idle

theorem Inv.notify (inv : Inv s) {b : B} (place : s.pc t = .notify b c) :
    Inv { s.goto t (.check b c) with avail.tail := s.avail.tail + 1 } := by
  have mine : (s.pc t).request = some (b, c) := by rw [place]; rfl
  have unposted : (s.pc t).posted = none := by rw [place]; rfl
  have locked : (s.pc t).locks = true := by rw [place]; rfl
  have raised := inv.flag t b c mine unposted
  have grounded := inv.grounded mine unposted
  have contents : ({ s.avail with tail := s.avail.tail + 1 } : Fifo Nat 16 NUM).contents = s.avail.contents ++ [c.head] := by
    rw [← Fifo.put_stored, inv.stored t b c place, Fifo.contents_put (by decide) (by decide) (inv.avail_room mine unposted)]
  have flights : State.flights { s.goto t (.check b c) with avail.tail := s.avail.tail + 1 } =
      s.avail.contents ++ c.head :: (s.pending ++ s.used.contents) :=
    (congrArg (· ++ (s.pending ++ s.used.contents)) contents).trans (List.append_assoc ..)
  refine ⟨{ inv.toRequests.move (p := .check b c) place rfl with }, fun v => ?_, ?_, fun h => ?_, fun v b' c' asks free => ?_,
    inv.lock_stay place rfl, fun v b' c' is => ?_⟩
  · rw [State.goto, update_same Pc.buf (p := .check b c) place rfl]
    exact inv.holder v
  · rw [flights, List.nodup_middle, List.nodup_cons]
    exact ⟨grounded, inv.nodup⟩
  · have flies : h ∈ s.avail.contents ++ c.head :: (s.pending ++ s.used.contents) ↔ h = c.head ∨ h ∈ s.flights := by
      rw [List.perm_middle.mem_iff, List.mem_cons, State.flights]
    rw [flights, flies, inv.flying h]
    constructor
    · rintro (rfl | ⟨v, b', c', posted, isHead, up⟩)
      · exact ⟨t, b, c, by simp [State.goto, Pc.posted], rfl, raised⟩
      · have other : v ≠ t := by grind
        exact ⟨v, b', c', by simpa [State.goto, other] using posted, isHead, up⟩
    · rintro ⟨v, b', c', posted, isHead, up⟩
      by_cases isT : v = t
      · subst isT
        simp only [State.goto, update_self, Pc.posted, Option.some.injEq, Prod.mk.injEq] at posted
        exact .inl (by rw [← isHead, posted.2])
      · simp only [State.goto, update_of_ne isT] at posted
        exact .inr ⟨v, b', c', posted, isHead, up⟩
  · by_cases isT : v = t
    · subst isT
      simp [State.goto, Pc.posted] at free
    · simp only [State.goto, update_of_ne isT] at asks free
      exact inv.flag v b' c' asks free
  · by_cases isT : v = t
    · subst isT
      simp [State.goto] at is
    · simp only [State.goto, update_of_ne isT] at is
      have idle := inv.other_idle locked isT
      rw [is] at idle
      cases idle

end

end Xv6.Virtio
