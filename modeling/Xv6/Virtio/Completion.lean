import Xv6.Virtio.Requests

namespace Xv6.Virtio
open Lib Function

attribute [local simp] State.acquire State.release State.goto Chain.descs

section
variable {T B : Type} {s u : State T B} {t : T} {c : Chain} {b : B} {write : Bool}

/-! ## Taking and giving back a chain -/

theorem Inv.disjoint (inv : Inv s) {v w : T} {b' : B} {c' : Chain} (one : (s.pc v).request = some (b, c))
    (other : (s.pc w).request = some (b', c')) (distinct : v ≠ w) {i j : Nat} (mine : i ∈ c.descs) (theirs : j ∈ c'.descs) :
    i ≠ j := by grind [inv.apart]

theorem Inv.buffers (inv : Inv s) {v w : T} {b' : B} (one : (s.pc v).buf = some b) (other : (s.pc w).buf = some b')
    (distinct : v ≠ w) : b ≠ b' := by
  rintro rfl
  have first := inv.holder v b one
  rw [inv.holder w b other] at first
  exact distinct (Option.some.inj first).symm

theorem Inv.undone (inv : Inv s) (undone : Undone s u) : Inv u := by
  obtain ⟨free, desc, rest⟩ := undone
  rw [rest, free]
  refine { inv with linked := fun v b c asks => ?_ }
  refine (inv.linked v b c asks).congr fun i member => desc i ?_
  have small := (inv.linked v b c asks).small i member
  exact (inv.free i small).mpr ⟨v, b, c, asks, member⟩

variable [DecidableEq B]

theorem linked_format (nodup : c.descs.Nodup) (small : ∀ i ∈ c.descs, i < NUM) (write : Bool) :
    Linked (format b write c s).desc c := by
  have distinct := nodup
  simp only [Chain.descs, List.nodup_cons, List.mem_cons, List.not_mem_nil, or_false, not_or, not_false_eq_true,
    List.nodup_nil, and_true] at distinct
  obtain ⟨⟨notBody, notLast⟩, bodyLast⟩ := distinct
  refine ⟨nodup, small, ?_, ?_, ?_⟩
  · simp only [format, update_of_ne notLast, update_of_ne notBody, update_self]
    decide
  · simp only [format, update_of_ne bodyLast, update_self]
    cases write <;> decide
  · simp only [format, update_self]
    decide

variable [DecidableEq T]

theorem Inv.take_chain (inv : Inv s) (place : s.pc t = .alloc b write)
    (unlocked : s.lock = none) (nodup : c.descs.Nodup) (fresh : ∀ i ∈ c.descs, i < NUM ∧ s.free i = true) :
    Inv ((format b write c { s with free := fun i => if i ∈ c.descs then false else s.free i }).acquire t (.store b c)) := by
  have posted := update_same Pc.posted (p := .store b c) place rfl
  have mine : (s.pc t).buf = some b := by rw [place]; rfl
  -- a descriptor of a request is not free
  have outside {v : T} {b' : B} {c' : Chain} (asks : (s.pc v).request = some (b', c')) {i j : Nat} (theirs : i ∈ c'.descs)
      (ours : j ∈ c.descs) : i ≠ j := by grind [inv.free]
  have notMe {v : T} {b' : B} {c' : Chain} (asks : (s.pc v).request = some (b', c')) : v ≠ t := by
    rintro rfl
    simp [place, Pc.request] at asks
  have head : c.head ∈ c.descs := by simp
  have body : c.body ∈ c.descs := by simp
  have last : c.last ∈ c.descs := by simp
  have asksNow (v : T) (b' : B) (c' : Chain) : (update s.pc t (.store b c) v).request = some (b', c') ↔
      (v = t ∧ b = b' ∧ c = c') ∨ (s.pc v).request = some (b', c') := by grind [Pc.request]
  have flagOf {v : T} {b' : B} (ofV : (s.pc v).buf = some b') (other : v ≠ t) : update s.flag b true b' = s.flag b' :=
    update_of_ne (inv.buffers ofV mine other) ..
  refine ⟨⟨fun v b' c' asks => ?_, fun i small => ?_, fun v w b₁ c₁ b₂ c₂ i first second => ?_, fun v b' c' asks => ?_⟩,
    fun v => ?_, inv.nodup, fun h => ?_, fun v b' c' asks free => ?_, inv.lock_acquire unlocked rfl, fun v b' c' is => ?_⟩
  · rcases (asksNow v b' c').mp asks with ⟨-, -, rfl⟩ | before
    · exact linked_format nodup (fun i member => (fresh i member).1) write
    · refine (inv.linked v b' c' before).congr fun i member => ?_
      simp [format, outside before member head, outside before member body, outside before member last]
  · simp only [State.acquire, State.goto, format, asksNow]
    by_cases ours : i ∈ c.descs
    · grind
    · rw [if_neg ours, inv.free i small]
      constructor
      · grind
      · grind
  · intro inFirst inSecond
    rcases (asksNow v b₁ c₁).mp first with ⟨rfl, -, rfl⟩ | one <;> rcases (asksNow w b₂ c₂).mp second with ⟨rfl, -, rfl⟩ | two
    · rfl
    · exact absurd rfl (outside two inSecond inFirst)
    · exact absurd rfl (outside one inFirst inSecond)
    · exact inv.apart v w b₁ c₁ b₂ c₂ i one two inFirst inSecond
  · rcases (asksNow v b' c').mp asks with ⟨-, rfl, rfl⟩ | before
    · simp [format]
    · have apart := outside before (i := c'.head) (by simp) head
      simpa [format, apart] using inv.info v b' c' before
  · simp only [State.acquire, State.goto, format, update_same Pc.buf (p := .store b c) place rfl]
    exact inv.holder v
  · change h ∈ s.flights ↔ _
    rw [inv.flying h]
    simp only [State.acquire, State.goto, format, posted]
    constructor
    · grind
    · grind [Pc.request_of_posted, Pc.buf_of_request]
  · simp only [State.acquire, State.goto, format, posted] at free ⊢
    rcases (asksNow v b' c').mp asks with ⟨-, rfl, -⟩ | before
    · exact update_self ..
    · grind [inv.flag]
  · by_cases isT : v = t
    · subst isT
      simp at is
    · simp only [State.acquire, State.goto, update_of_ne isT] at is
      exact inv.stored v b' c' is

theorem Inv.tryAlloc (inv : Inv s) (place : s.pc t = .alloc b write) (unlocked : s.lock = none) :
    ends (tryAlloc t b write) Fine (fun _ u => Inv u) s := by
  rw [Virtio.tryAlloc]
  refine (ends_alloc3Desc s).bind fun found u outcome => ?_
  cases found with
  | some c => grind [ends_modify, inv.take_chain]
  | none =>
    have same : u.pc = s.pc ∧ u.lock = s.lock := by
      rw [outcome.rest]
      exact ⟨rfl, rfl⟩
    have place : u.pc t = .alloc b write := by rw [same.1, place]
    refine (ends_modify ..).mpr ((inv.undone outcome).quiet place rfl rfl rfl nofun ?_)
    rw [← unlocked, ← same.2]
    exact (inv.undone outcome).lock_stay place rfl

theorem Inv.finish (inv : Inv s) (place : s.pc t = .check b c) (done : s.flag b = false) :
    ends (finish t b c) Fine (fun _ u => Inv u) s := by
  have mine : (s.pc t).request = some (b, c) := by rw [place]; rfl
  have myBuf : (s.pc t).buf = some b := by rw [place]; rfl
  have linked := inv.linked t b c mine
  have taken (i : Nat) (member : i ∈ c.descs) : s.free i = false :=
    (inv.free i (linked.small i member)).mpr ⟨t, b, c, mine, member⟩
  have head : c.head ∈ c.descs := by simp
  have body : c.body ∈ c.descs := by simp
  have last : c.last ∈ c.descs := by simp
  have asksNow (v : T) (b' : B) (c' : Chain) : (update s.pc t .out v).request = some (b', c') ↔
      v ≠ t ∧ (s.pc v).request = some (b', c') := by grind [Pc.request]
  have postedNow (v : T) (b' : B) (c' : Chain) : (update s.pc t .out v).posted = some (b', c') ↔
      v ≠ t ∧ (s.pc v).posted = some (b', c') := by grind [Pc.posted]
  simp only [Virtio.finish, ends_bind, ends_modify]
  refine ends_freeChain linked taken ((ends_modify ..).mpr ?_)
  refine ⟨⟨fun v b' c' asks => ?_, fun i small => ?_, fun v w b₁ c₁ b₂ c₂ i first second => ?_, fun v b' c' asks => ?_⟩,
    fun v b' has => ?_, inv.nodup, fun h => ?_, fun v b' c' asks free => ?_,
    inv.lock_release place rfl rfl, fun v b' c' is => ?_⟩
  · obtain ⟨other, before⟩ := (asksNow v b' c').mp asks
    refine (inv.linked v b' c' before).congr fun i member => ?_
    simp [State.freed, inv.disjoint before mine other member head, inv.disjoint before mine other member body,
      inv.disjoint before mine other member last]
  · have freeNow : (((s.freed c.head).freed c.body).freed c.last).free i = false ↔ i ∉ c.descs ∧ s.free i = false := by
      simp only [State.freed, update_apply, Chain.descs, List.mem_cons, List.not_mem_nil, or_false]
      by_cases isH : i = c.head <;> by_cases isB : i = c.body <;> by_cases isL : i = c.last <;> simp [isH, isB, isL]
    refine freeNow.trans ?_
    simp only [State.release, State.goto, State.freed, asksNow]
    rw [inv.free i small]
    constructor
    · grind
    · grind [inv.disjoint]
  · exact inv.apart v w b₁ c₁ b₂ c₂ i ((asksNow ..).mp first).2 ((asksNow ..).mp second).2
  · obtain ⟨other, before⟩ := (asksNow v b' c').mp asks
    have apart := inv.disjoint before mine other (i := c'.head) (by simp) head
    simpa [State.freed, apart] using inv.info v b' c' before
  · have other : v ≠ t := by
      rintro rfl
      simp [Pc.buf] at has
    simp only [State.release, State.goto, State.freed, update_of_ne other] at has ⊢
    rw [update_of_ne (inv.buffers has myBuf other)]
    exact inv.holder v b' has
  · change h ∈ s.flights ↔ _
    rw [inv.flying h]
    simp only [State.release, State.goto, State.freed, postedNow]
    constructor
    · grind [Pc.posted]
    · grind
  · obtain ⟨other, before⟩ := (asksNow v b' c').mp asks
    simp only [State.release, State.goto, State.freed, update_of_ne other] at free
    exact inv.flag v b' c' before free
  · have other : v ≠ t := by
      rintro rfl
      simp at is
    simp only [State.release, State.goto, State.freed, update_of_ne other] at is
    exact inv.stored v b' c' is

/-! ## Completions -/

omit [DecidableEq B] [DecidableEq T] in
theorem Inv.completed (inv : Inv s) (entries : s.used.head ≠ s.used.tail) :
    ∃ v b c, (s.pc v).posted = some (b, c) ∧ c.head = s.used.data (Fifo.cell NUM s.used.head) ∧
      s.flag b = true ∧ (s.info c.head).b = some b := by
  have contents := Fifo.contents_take (by decide) inv.used_le entries
  have flies : s.used.data (Fifo.cell NUM s.used.head) ∈ s.flights := by
    rw [State.flights, contents]
    simp
  obtain ⟨v, b, c, posted, isHead, raised⟩ := (inv.flying _).mp flies
  exact ⟨v, b, c, posted, isHead, raised, inv.info v b c (Pc.request_of_posted posted)⟩

omit [DecidableEq T] in
theorem Inv.handle (inv : Inv s) (entries : s.used.head ≠ s.used.tail) :
    ends (handle : Op T B Unit) Fine (fun _ u => Inv u) s := by
  obtain ⟨v, b, c, posted, isHead, raised, known⟩ := inv.completed entries
  have asks := Pc.request_of_posted posted
  have contents := Fifo.contents_take (by decide) inv.used_le entries
  have perm : s.flights.Perm (c.head :: (s.avail.contents ++ (s.pending ++ s.used.take.contents))) := by
    grind [State.flights]
  have unique {w : T} {b' : B} {c' : Chain} (asks' : (s.pc w).request = some (b', c')) (other : w ≠ v) :
      c'.head ≠ c.head ∧ b' ≠ b :=
    ⟨inv.disjoint asks' asks other (by simp) (by simp),
      inv.buffers (Pc.buf_of_request asks') (Pc.buf_of_request asks) other⟩
  simp only [Virtio.handle, ends_bind, ends_get]
  split
  next => exact (ends_throw ..).mpr (.inl rfl)
  next =>
    rw [← isHead, known]
    refine (ends_modify ..).mpr { inv with nodup := ?_, flying := fun h => ?_, flag := fun w b' c' asks' free => ?_ }
    · exact (List.nodup_cons.mp (perm.nodup_iff.mp inv.nodup)).2
    · have fresh := (List.nodup_cons.mp (perm.nodup_iff.mp inv.nodup)).1
      have before := inv.flying h
      rw [perm.mem_iff, List.mem_cons] at before
      change h ∈ s.avail.contents ++ (s.pending ++ s.used.take.contents) ↔
        ∃ w b' c', (s.pc w).posted = some (b', c') ∧ c'.head = h ∧ update s.flag b false b' = true
      constructor
      · intro flies
        obtain ⟨w, b', c', up, isHead', raised'⟩ := before.mp (.inr flies)
        have other : w ≠ v := by grind
        refine ⟨w, b', c', up, isHead', ?_⟩
        rw [update_of_ne (unique (Pc.request_of_posted up) other).2]
        exact raised'
      · grind [Pc.request_of_posted]
    · grind [inv.flag]

/-! ## Every step -/

omit [DecidableEq B] [DecidableEq T] in
theorem ends_needsLock {act : Op T B Unit}
    (runs : s.lock = none → ends act Fine (fun _ u => Inv u) s) : ends (needsLock act) Fine (fun _ u => Inv u) s := by
  simp only [needsLock, ends_bind, ends_get]
  split
  next unlocked => exact runs unlocked
  next => exact (ends_throw ..).mpr (.inr rfl)

theorem Inv.next (inv : Inv s) (t : T) : ends (next t) Fine (fun _ u => Inv u) s := by
  simp only [Virtio.next, ends_bind, ends_get]
  cases place : s.pc t with
  | out => exact (ends_throw ..).mpr (.inr rfl)
  | alloc b write => exact ends_needsLock fun unlocked => inv.tryAlloc place unlocked
  | store b c => exact (ends_modify ..).mpr (inv.store place)
  | notify b c => exact (ends_modify ..).mpr (inv.notify place)
  | check b c =>
    dsimp only
    split
    next =>
      refine (ends_modify ..).mpr (inv.quiet place rfl rfl rfl nofun ?_)
      exact inv.lock_release place rfl rfl
    next lowered => exact inv.finish place (Bool.eq_false_iff.mpr lowered)
  | wait b c | intr =>
    refine ends_needsLock fun unlocked => (ends_modify ..).mpr ?_
    exact inv.quiet place rfl rfl rfl nofun (inv.lock_acquire unlocked rfl)
  | loop =>
    dsimp only
    split
    next =>
      refine (ends_modify ..).mpr (inv.quiet place rfl rfl rfl nofun ?_)
      exact inv.lock_release place rfl rfl
    next entries => exact inv.handle entries

theorem Inv.rw (inv : Inv s) (write : Bool) (place : s.pc t = .out) (unheld : s.holder b = none) :
    Inv { s.goto t (.alloc b write) with holder := update s.holder b (some t) } := by
  have posted := update_same Pc.posted (p := .alloc b write) place rfl
  refine ⟨{ inv.toRequests.move (p := .alloc b write) place rfl with }, fun v b' has => ?_, inv.nodup, fun h => ?_, fun v => ?_,
    inv.lock_stay place rfl, fun v b' c is => ?_⟩
  · by_cases isT : v = t
    · subst isT
      simp only [State.goto, update_self, Pc.buf, Option.some.injEq] at has
      simp [has]
    · simp only [State.goto, update_of_ne isT] at has
      have held := inv.holder v b' has
      have other : b' ≠ b := by grind
      simpa [other] using held
  · simp only [State.goto, posted]
    exact inv.flying h
  · rw [State.goto, update_same Pc.request (p := .alloc b write) place rfl, posted]
    exact inv.flag v
  · by_cases isT : v = t
    · subst isT
      simp at is
    · simp only [State.goto, update_of_ne isT] at is
      exact inv.stored v b' c is

theorem Inv.perform (inv : Inv s) (e : Event T B) : ends (perform e) Fine (fun _ u => Inv u) s := by
  cases e with
  | rw t b write =>
    simp only [Virtio.perform, ends_bind, ends_get]
    split
    next place unheld => exact (ends_modify ..).mpr (inv.rw write place unheld)
    next => exact (ends_throw ..).mpr (.inr rfl)
  | interrupt t =>
    simp only [Virtio.perform, ends_bind, ends_get]
    split
    next place =>
      refine (ends_modify ..).mpr (inv.quiet place rfl rfl rfl (by simp) ?_)
      exact inv.lock_stay place rfl
    next => exact (ends_throw ..).mpr (.inr rfl)
  | next t => exact inv.next t
  | take => exact inv.take
  | complete h status => exact inv.complete h status

theorem Inv.step (inv : Inv s) {e : Event T B} (taken : step s e = some u) : Inv u := by
  have ends := inv.perform e
  rw [Virtio.step] at taken
  rw [Lib.ends] at ends
  cases outcome : (Virtio.perform e).run s with
  | error stop => simp [outcome] at taken
  | ok result => grind

omit [DecidableEq B] [DecidableEq T] in
theorem inv_init : Inv (init : State T B) where
  linked t b c := nofun
  free i small := ⟨nofun, fun ⟨_, _, _, asks, _⟩ => nomatch asks⟩
  apart t u b c b' c' i := nofun
  info t b c := nofun
  holder t b := nofun
  nodup := by simp [State.flights, init, Fifo.contents_of_empty]
  flying h := by simp [State.flights, init, Fifo.contents_of_empty, Pc.posted]
  flag t b c := nofun
  lock t := by simp [init, Pc.locks]
  stored t b c := nofun

theorem step_handle (place : s.pc t = .loop) (entries : s.used.head ≠ s.used.tail)
    (isHead : c.head = s.used.data (Fifo.cell NUM s.used.head)) (known : (s.info c.head).b = some b) :
    step s (.next t) =
      if (s.info c.head).status = 0 then some { s with flag := update s.flag b false, used := s.used.take } else none := by
  have outcome : ends (Virtio.perform (.next t)) (fun _ => (s.info c.head).status ≠ 0) (fun _ u =>
      (s.info c.head).status = 0 ∧ u = { s with flag := update s.flag b false, used := s.used.take }) s := by
    simp only [Virtio.perform, Virtio.next, ends_bind, ends_get, place, if_neg entries, Virtio.handle]
    rw [← isHead, known]
    split
    next bad => exact (ends_throw ..).mpr bad
    next fine => exact (ends_modify ..).mpr ⟨not_not.mp fine, rfl⟩
  rw [Virtio.step]
  cases ran : (Virtio.perform (.next t)).run s with
  | error stop => rw [if_neg (outcome.of_stop ran)]
  | ok result =>
    obtain ⟨fine, isNext⟩ := outcome.of_run ran
    rw [if_pos fine, ← isNext]

/-! ## The bookkeeping -/

def State.InFlight (s : State T B) (t : T) (b : B) (c : Chain) : Prop := (s.pc t).request = some (b, c)

def chainFrom (desc : Nat → Desc B) : (fuel i : Nat) → List Nat
  | 0, _ => []
  | fuel + 1, i => i :: if (desc i).flags &&& VRING_DESC_F_NEXT ≠ 0 then chainFrom desc fuel (desc i).next else []

omit [DecidableEq T] [DecidableEq B] in
theorem Linked.chainFrom {desc : Nat → Desc B} (linked : Linked desc c) (more : Nat) :
    Virtio.chainFrom desc (more + 3) c.head = c.descs := by
  obtain ⟨-, -, ⟨headFlag, headNext⟩, ⟨bodyFlag, bodyNext⟩, lastFlag⟩ := linked
  rw [Virtio.chainFrom, if_pos headFlag, headNext, Virtio.chainFrom, if_pos bodyFlag, bodyNext, Virtio.chainFrom,
    if_neg (not_not.mpr lastFlag)]
  rfl

structure Bookkept (s : State T B) : Prop where
  taken : s.lock = none → ∀ i < NUM, s.free i = false ↔ ∃ t b c, s.InFlight t b c ∧ i ∈ c.descs
  three : ∀ t b c, s.InFlight t b c → c.descs.Nodup ∧ ∀ fuel ≥ 3, chainFrom s.desc fuel c.head = c.descs
  disjoint : ∀ t t' b b' c c', s.InFlight t b c → s.InFlight t' b' c' → t ≠ t' → c.descs.Disjoint c'.descs
  completes : ∀ t, s.pc t = .loop → s.used.head ≠ s.used.tail →
    ∃ t' b c, s.InFlight t' b c ∧ c.head = s.used.data (Fifo.cell NUM s.used.head) ∧ (s.info c.head).b = some b ∧ s.flag b = true ∧
      step s (.next t) =
        if (s.info c.head).status = 0 then some { s with flag := update s.flag b false, used := s.used.take } else none
  avail : ∀ t b c, s.pc t = .store b c → ∀ k < s.avail.count,
    Fifo.cell NUM (s.avail.head + BitVec.ofNat 16 k) ≠ Fifo.cell NUM s.avail.tail
  panics : ∀ e stop, (perform e).run s = .error stop → stop ≠ .freeDesc1 ∧ stop ≠ .freeDesc2 ∧ stop ≠ .nullBuf

theorem virtio_bookkeeping (events : List (Event T B)) (s : State T B) (taken : run step init events = some s) :
    Bookkept s := by
  have inv : Inv s := run_inductive (fun _ _ _ taken inv => inv.step taken) inv_init taken
  refine ⟨fun _ => inv.free, fun t b c flies => ?_, fun t t' b b' c c' one other distinct i mine theirs => ?_,
    fun t place entries => ?_, fun t b c place k below => ?_, fun e stop fails => ?_⟩
  · have linked := inv.linked t b c flies
    refine ⟨linked.nodup, fun fuel enough => ?_⟩
    obtain ⟨more, rfl⟩ := Nat.exists_eq_add_of_le' enough
    exact linked.chainFrom more
  · exact distinct (inv.apart t t' b c b' c' i one other mine theirs)
  · obtain ⟨t', b, c, posted, isHead, raised, known⟩ := inv.completed entries
    exact ⟨t', b, c, Pc.request_of_posted posted, isHead, known, raised, step_handle place entries isHead known⟩
  · have room := inv.avail_room (t := t) (b := b) (c := c) (by rw [place]; rfl) (by rw [place]; rfl)
    have apart := Fifo.cell_ne (by decide) (c := s.avail.head) below room
    rwa [← Fifo.tail_eq] at apart
  · have ends := inv.perform e
    rw [Lib.ends, fails] at ends
    rcases ends with rfl | rfl <;> simp

end

theorem virtio_bookkeeping_twoRequests : ∃ s u : State Nat Nat, run step init
        [.rw 0 5 true, .next 0, .next 0, .rw 1 6 false, .next 0, .take, .next 0, .next 1, .next 1, .next 1, .next 1,
          .take, .complete 3 0, .interrupt 2, .next 2] = some s ∧ Bookkept s ∧
      step s (.next 2) = some u ∧ u.flag = update s.flag 6 false ∧ u.used = s.used.take := by
  obtain ⟨s, taken, place, entries, known, fine⟩ := exists_some (o := run step init
      [.rw 0 5 true, .next 0, .next 0, .rw 1 6 false, .next 0, .take, .next 0, .next 1, .next 1, .next 1, .next 1, .take,
        .complete 3 0, .interrupt 2, .next 2])
    (P := fun s : State Nat Nat => s.pc 2 = .loop ∧ s.used.head ≠ s.used.tail ∧
      (s.info (s.used.data (Fifo.cell NUM s.used.head))).b = some 6 ∧
      (s.info (s.used.data (Fifo.cell NUM s.used.head))).status = 0) (by decide +kernel)
  have kept := virtio_bookkeeping _ s taken
  obtain ⟨t, b, c, -, isHead, posted, -, moved⟩ := kept.completes 2 place entries
  rw [isHead, known] at posted
  cases posted
  rw [isHead, if_pos fine] at moved
  exact ⟨s, _, taken, kept, moved, rfl, rfl⟩

end Xv6.Virtio
