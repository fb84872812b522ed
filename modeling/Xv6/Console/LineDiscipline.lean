import Xv6.Console.Console

namespace Xv6.Console
open Lib

/-! ## The reference reader, one character at a time -/

section
variable {killed : Bool} {left i : Nat} {c : UInt8} {committed : List UInt8}

@[simp] theorem collect_zero : collect killed 0 i committed = (committed, [], .ret i) := by
  simp [collect, line]

@[simp] theorem collect_nil : collect killed (left + 1) i [] = ([], [], if killed then .ret (-1) else .sleep) := by
  simp [collect, line]

theorem collect_end : collect killed (left + 1) i (ctrlD :: committed) =
    (if 0 < i then ctrlD :: committed else committed, [], .ret i) := by grind [collect, line]

theorem collect_newline : collect killed (left + 1) i (newline :: committed) = (committed, [newline], .ret (i + 1)) := by
  have other : newline ≠ ctrlD := by decide
  simp [collect, line, other]

theorem collect_cons (other : c ≠ ctrlD) (inside : c ≠ newline) :
    collect killed (left + 1) i (c :: committed) =
      let rest := collect killed left (i + 1) committed
      (rest.1, c :: rest.2.1, rest.2.2) := by
  have last (l : List UInt8) : (c :: l).getLast? = some newline ↔ l.getLast? = some newline := by grind
  simp only [collect, List.take_succ_cons, line, other, inside, ↓reduceIte, List.length_cons,
    Nat.add_right_cancel_iff, last, List.drop_succ_cons]
  by_cases ends : (line (committed.take left)).length = left ∨ (line (committed.take left)).getLast? = some newline
  · grind
  · simp only [ends, ↓reduceIte]
    cases committed.drop (line (committed.take left)).length with
    | nil => rfl
    | cons d after => grind

end

/-! ## The ring as the editor sees it -/

def Cons.ring (cons : Cons) : Fifo UInt8 32 INPUT_BUF := ⟨cons.buf, cons.r, cons.e⟩

def Cons.done (cons : Cons) : Fifo UInt8 32 INPUT_BUF := ⟨cons.buf, cons.r, cons.w⟩

def Cons.committed (cons : Cons) : List UInt8 := cons.ring.contents.take cons.done.count

def Cons.pending (cons : Cons) : List UInt8 := cons.ring.contents.drop cons.done.count

structure Sound (cons : Cons) : Prop where
  bounded : cons.ring.count ≤ INPUT_BUF
  between : cons.done.count ≤ cons.ring.count
  oneLine : newline ∉ cons.pending

section
variable {cons : Cons} {c : UInt8}

theorem length_pending (cons : Cons) : cons.pending.length = cons.ring.count - cons.done.count := by
  rw [Cons.pending, List.length_drop, Fifo.length_contents]

theorem ring_contents (cons : Cons) : cons.ring.contents = cons.committed ++ cons.pending :=
  (List.take_append_drop _ _).symm

theorem edited_iff (cons : Cons) : cons.e ≠ cons.w ↔ cons.ring.count ≠ cons.done.count := by
  refine not_congr ⟨fun same => ?_, fun same => ?_⟩
  · rw [Cons.ring, Cons.done, same]
  · have reach := cons.ring.tail_eq
    rw [same] at reach
    exact reach.trans cons.done.tail_eq.symm

theorem count_e_sub_w (sound : Sound cons) : (cons.e - cons.w).toNat = cons.pending.length := by
  rw [length_pending]
  have less : cons.ring.count - cons.done.count < 2 ^ 32 := by
    have bounded := sound.bounded
    simp only [INPUT_BUF] at bounded
    omega
  have reach : cons.e = cons.w + BitVec.ofNat 32 (cons.ring.count - cons.done.count) := by
    have ends := cons.ring.tail_eq
    have middle := cons.done.tail_eq
    simp only [Cons.ring, Cons.done] at ends middle ⊢
    have total : (⟨cons.buf, cons.r, cons.e⟩ : Fifo UInt8 32 INPUT_BUF).count =
        (⟨cons.buf, cons.r, cons.w⟩ : Fifo UInt8 32 INPUT_BUF).count + (cons.ring.count - cons.done.count) :=
      (Nat.add_sub_cancel' sound.between).symm
    rw [total, BitVec.ofNat_add, ← BitVec.add_assoc, ← middle] at ends
    exact ends
  exact Fifo.count_of_tail cons.buf less reach

/-! ## Editing -/

theorem back_contents (sound : Sound cons) (edited : cons.e ≠ cons.w) :
    cons.back.committed = cons.committed ∧ cons.back.pending = cons.pending.dropLast ∧
      cons.pending.getLast? = some (cons.char (cons.e - 1)) := by
  have more : cons.done.count < cons.ring.count :=
    Nat.lt_of_le_of_ne sound.between (Ne.symm ((edited_iff cons).mp edited))
  have some : cons.ring.head ≠ cons.ring.tail := fun none => by
    rw [Fifo.empty_iff.mp none] at more
    exact Nat.not_lt_zero _ more
  have last := Fifo.contents_drop some
  have length : cons.done.count ≤ cons.ring.drop.contents.length := by
    obtain ⟨k, isK⟩ := Nat.exists_eq_succ_of_ne_zero (show cons.ring.count ≠ 0 by omega)
    rw [Fifo.length_contents, Fifo.count_drop isK]
    omega
  have same : cons.back.ring = cons.ring.drop := rfl
  have pending : cons.pending = cons.back.pending ++ [cons.char (cons.e - 1)] := by
    rw [Cons.pending, Cons.pending, last, List.drop_append_of_le_length length, same]
    rfl
  refine ⟨?_, ?_, ?_⟩
  · rw [Cons.committed, Cons.committed, last, List.take_append_of_le_length length, same]
    rfl
  · rw [pending, List.dropLast_concat]
  · rw [pending, List.getLast?_concat]

theorem Sound.back (sound : Sound cons) (edited : cons.e ≠ cons.w) : Sound cons.back := by
  obtain ⟨committed, pending, -⟩ := back_contents sound edited
  have more : cons.done.count < cons.ring.count :=
    Nat.lt_of_le_of_ne sound.between (Ne.symm ((edited_iff cons).mp edited))
  obtain ⟨k, isK⟩ := Nat.exists_eq_succ_of_ne_zero (show cons.ring.count ≠ 0 by omega)
  have count : cons.back.ring.count = k := Fifo.count_drop isK
  have same : cons.back.done = cons.done := rfl
  have bounded := sound.bounded
  refine ⟨by omega, by rw [same]; omega, ?_⟩
  rw [pending]
  exact fun member => sound.oneLine (List.dropLast_subset _ member)

theorem killLoop_spec {rounds : Nat} (sound : Sound cons) (enough : cons.pending.length = rounds) :
    Sound (killLoop rounds cons) ∧ (killLoop rounds cons).committed = cons.committed ∧
      (killLoop rounds cons).pending = [] := by
  induction rounds generalizing cons with
  | zero => exact ⟨sound, rfl, List.length_eq_zero_iff.mp enough⟩
  | succ rounds ih =>
    have edited : cons.e ≠ cons.w := by grind [edited_iff, length_pending]
    obtain ⟨committed, pending, last⟩ := back_contents sound edited
    have inside : cons.char (cons.e - 1) ≠ newline := by grind [sound.oneLine]
    rw [killLoop, if_pos ⟨edited, inside⟩]
    obtain ⟨after, same, none⟩ := ih (sound.back edited) (by rw [pending, List.length_dropLast]; omega)
    exact ⟨after, same.trans committed, none⟩

/-! ## Storing a character -/

theorem push_spec (sound : Sound cons) (room : cons.ring.count < INPUT_BUF) (c : UInt8) :
    (cons.push c).ring.count = cons.ring.count + 1 ∧ (cons.push c).committed = cons.committed ∧
      (cons.push c).pending = cons.pending ++ [c] := by
  have ring : (cons.push c).ring = cons.ring.put c := rfl
  have contents := Fifo.contents_put (x := c) (by decide) (by decide) room
  have length : cons.done.count ≤ cons.ring.contents.length := by
    rw [Fifo.length_contents]
    exact sound.between
  refine ⟨?_, ?_, ?_⟩
  · rw [ring]
    exact Fifo.count_put (by decide) room
  · rw [Cons.committed, ring, contents]
    exact List.take_append_of_le_length length
  · rw [Cons.pending, ring, contents]
    exact List.drop_append_of_le_length length

theorem commit_spec (cons : Cons) : cons.commit.committed = cons.committed ++ cons.pending ∧ cons.commit.pending = [] := by
  have all : cons.commit.done.count = cons.ring.contents.length := by
    rw [Fifo.length_contents]
    rfl
  have ring : cons.commit.ring = cons.ring := rfl
  rw [← ring_contents, Cons.committed, Cons.pending, ring, all]
  exact ⟨List.take_length, List.drop_length⟩

theorem full_iff (cons : Cons) (bounded : cons.ring.count ≤ INPUT_BUF) :
    cons.e = cons.r + BitVec.ofNat 32 INPUT_BUF ↔ cons.ring.count = INPUT_BUF :=
  Fifo.full_iff (by decide) bounded

theorem ring_count_eq (cons : Cons) : cons.ring.count = cons.committed.length + cons.pending.length := by
  rw [← Fifo.length_contents, ring_contents, List.length_append]

variable {T : Type} {reader : T → Reader}

def Cons.editor (cons : Cons) (reader : T → Reader) : Editor T := ⟨cons.committed, cons.pending, reader⟩

theorem storeChar_editor (sound : Sound cons) (room : cons.ring.count < INPUT_BUF) (c : UInt8) :
    Sound (storeChar c cons) ∧ (storeChar c cons).editor reader = (cons.editor reader).accept c := by
  obtain ⟨count, committed, pending⟩ := push_spec sound room c
  have bounded : (cons.push c).ring.count ≤ INPUT_BUF := by omega
  have stored : storeChar c cons = if c = newline ∨ c = ctrlD ∨ (cons.push c).ring.count = INPUT_BUF
      then (cons.push c).commit else cons.push c := by
    simp only [← full_iff (cons.push c) bounded]
    rfl
  have length : (cons.push c).ring.count = cons.committed.length + (cons.pending ++ [c]).length := by
    rw [count, ring_count_eq cons, List.length_append, List.length_singleton, Nat.add_assoc]
  simp only [stored, Editor.accept, Cons.editor, ← length]
  split_ifs with whole
  · obtain ⟨all, none⟩ := commit_spec (cons.push c)
    rw [committed, pending] at all
    refine ⟨⟨bounded, Nat.le_refl _, ?_⟩, ?_⟩
    · rw [none]
      exact List.not_mem_nil
    · rw [all, none]
  · refine ⟨⟨bounded, ?_, ?_⟩, ?_⟩
    · have between := sound.between
      have same : (cons.push c).done.count = cons.done.count := rfl
      omega
    · grind [sound.oneLine]
    · rw [committed, pending]

theorem consoleintr_editor (reader : T → Reader) (sound : Sound cons) (c : UInt8) :
    Sound (consoleintr c cons) ∧ (consoleintr c cons).editor reader = (cons.editor reader).type c := by
  have room : (cons.e - cons.r).toNat = (cons.editor reader).committed.length + (cons.editor reader).pending.length :=
    ring_count_eq cons
  simp only [consoleintr, Editor.type, ← room]
  generalize (if c = carriageReturn then newline else c) = stored
  split_ifs with list kill erase edited accepted
  · exact ⟨sound, rfl⟩
  · grind [count_e_sub_w, killLoop_spec, Cons.editor]
  · grind [back_contents, sound.back, Cons.editor]
  · have nothing : cons.pending = [] := by
      rw [← List.length_eq_zero_iff, ← count_e_sub_w sound, not_ne_iff.mp edited, BitVec.sub_self]
      rfl
    refine ⟨sound, ?_⟩
    simp only [Cons.editor, nothing, List.dropLast_nil]
  · exact storeChar_editor sound accepted.2 _
  · exact ⟨sound, rfl⟩

/-! ## Reading -/

theorem unread_next (cons : Cons) : cons.next.unread = cons := by
  simp only [Cons.unread, Cons.next, BitVec.add_sub_cancel]

theorem ring_next (cons : Cons) : cons.next.ring = cons.ring.take := rfl

theorem done_next (cons : Cons) : cons.next.done = cons.done.take := rfl

theorem next_spec (sound : Sound cons) (some : cons.r ≠ cons.w) :
    Sound cons.next ∧ cons.committed = cons.char cons.r :: cons.next.committed ∧ cons.next.pending = cons.pending := by
  have doneBounded : cons.done.count ≤ INPUT_BUF := sound.between.trans sound.bounded
  have done : cons.next.done.count + 1 = cons.done.count := by
    rw [done_next]
    exact Fifo.count_take (by decide) doneBounded some
  have between := sound.between
  have bounded := sound.bounded
  have more : cons.ring.head ≠ cons.ring.tail := by
    intro none
    rw [Fifo.empty_iff.mp none] at between
    omega
  have ring : cons.next.ring.count + 1 = cons.ring.count := by
    rw [ring_next]
    exact Fifo.count_take (by decide) sound.bounded more
  have contents : cons.ring.contents = cons.char cons.r :: cons.next.ring.contents := by
    rw [ring_next, Fifo.contents_take (by decide) sound.bounded more]
    rfl
  have pending : cons.next.pending = cons.pending := by
    rw [Cons.pending, Cons.pending, contents, ← done, List.drop_succ_cons]
  refine ⟨⟨by omega, by omega, ?_⟩, ?_, pending⟩
  · rw [pending]
    exact sound.oneLine
  · rw [Cons.committed, Cons.committed, contents, ← done, List.take_succ_cons]

theorem committed_of_same (same : cons.r = cons.w) : cons.committed = [] := by
  have none : cons.done.count = 0 := Fifo.empty_iff.mp same
  rw [Cons.committed, none, List.take_zero]

theorem consolereadLoop_editor (killed : Bool) (left i : Nat) (sound : Sound cons) :
    let done := consolereadLoop killed (fun _ => true) left i cons
    Sound done.1 ∧ done.1.pending = cons.pending ∧
      (done.1.committed, done.2.1, done.2.2) = collect killed left i cons.committed := by
  induction left generalizing i cons with
  | zero => exact ⟨sound, rfl, collect_zero.symm⟩
  | succ left ih =>
    by_cases empty : cons.r = cons.w
    · rw [consolereadLoop, if_pos empty, committed_of_same empty, collect_nil]
      exact ⟨sound, rfl, by rw [committed_of_same empty]⟩
    obtain ⟨after, first, pending⟩ := next_spec sound empty
    simp only [consolereadLoop, if_neg empty, if_true]
    rw [first]
    by_cases fin : cons.char cons.r = ctrlD
    · rw [if_pos fin, fin, collect_end, unread_next]
      by_cases later : 0 < i
      · grind
      · grind
    rw [if_neg fin]
    by_cases whole : cons.char cons.r = newline
    · rw [if_pos whole, whole, collect_newline]
      exact ⟨after, pending, rfl⟩
    · rw [if_neg whole, collect_cons fin whole]
      obtain ⟨sound', pending', same⟩ := ih (i + 1) after
      rw [← same]
      exact ⟨sound', pending'.trans pending, rfl⟩

end

/-! ## Runs -/

def ConsEvent.Writable {T : Type} : ConsEvent T → Prop
  | .consoleread _ _ dst _ => dst = fun _ => true
  | _ => True

structure Refines {T : Type} (s : ConsState T) (ed : Editor T) : Prop where
  sound : Sound s.cons
  same : ed = s.cons.editor s.reader
  writable : ∀ t n dst got, s.reader t = .reading n dst got → dst = fun _ => true

section
variable {T : Type} {s u : ConsState T} {ed : Editor T} {ev : ConsEvent T}

theorem refines_start : Refines (consoleinit : ConsState T) Editor.empty := by
  have nothing : (consoleinit : ConsState T).cons.ring.contents = [] := Fifo.contents_of_empty rfl
  refine ⟨⟨?_, Nat.le_refl _, ?_⟩, ?_, ?_⟩
  · rw [Fifo.empty_iff.mp rfl]
    exact Nat.zero_le _
  · rw [Cons.pending, nothing, List.drop_nil]
    exact List.not_mem_nil
  · simp only [Cons.editor, Cons.committed, Cons.pending, nothing, List.take_nil, List.drop_nil]
    rfl
  · rintro t n dst got ⟨⟩

variable [DecidableEq T]

theorem Refines.read (refines : Refines s ed) (t : T) (n : Int) (got : List UInt8) (killed : Bool) :
    Refines (s.read t n (fun _ => true) got killed) (ed.read t n (fun _ => true) got killed) := by
  obtain ⟨sound, pending, same⟩ := consolereadLoop_editor killed (n.toNat - got.length) got.length refines.sound
  refine ⟨sound, ?_, ?_⟩
  · rw [refines.same]
    simp only [Editor.read, Cons.editor, ConsState.read, ← same, pending]
  · intro t' n' dst' got' reads
    simp only [ConsState.read] at reads
    by_cases here : t' = t
    · subst here
      rw [Function.update_self] at reads
      cases outcome : (consolereadLoop killed (fun _ => true) (n.toNat - got.length) got.length s.cons).2.2 with
      | ret r =>
        rw [outcome] at reads
        cases reads
      | sleep =>
        rw [outcome] at reads
        cases reads
        rfl
    · grind [refines.writable]

theorem Refines.step (refines : Refines s ed) (writable : ev.Writable) (taken : consStep s ev = some u) :
    ∃ ed', editorStep ed ev = some ed' ∧ Refines u ed' := by
  have reader : ed.reader = s.reader := by rw [refines.same]; rfl
  cases ev with
  | consoleintr c =>
    cases taken
    obtain ⟨sound, same⟩ := consoleintr_editor s.reader refines.sound c
    exact ⟨ed.type c, rfl, sound, by rw [same, refines.same], refines.writable⟩
  | consoleread t n dst killed =>
    obtain rfl : dst = fun _ => true := writable
    simp only [consStep] at taken
    split_ifs at taken with busy
    cases taken
    refine ⟨_, ?_, refines.read t n [] killed⟩
    simp only [editorStep, reader, busy, Bool.false_eq_true, ↓reduceIte]
  | wake t killed =>
    simp only [consStep] at taken
    cases place : s.reader t with
    | out => simp [place] at taken
    | returned r got => simp [place] at taken
    | reading n dst got =>
      obtain rfl := refines.writable t n dst got place
      simp only [place, Option.some.injEq] at taken
      subst taken
      refine ⟨_, ?_, refines.read t n got killed⟩
      simp only [editorStep, reader, place]

theorem Refines.run {events : List (ConsEvent T)} (refines : Refines s ed) (writable : ∀ ev ∈ events, ev.Writable)
    (taken : Lib.run consStep s events = some u) : ∃ ed', Lib.run editorStep ed events = some ed' ∧ Refines u ed' := by
  induction events generalizing s ed with
  | nil =>
    cases taken
    exact ⟨ed, rfl, refines⟩
  | cons ev events ih =>
    obtain ⟨t, first, rest⟩ := Option.bind_eq_some_iff.mp taken
    obtain ⟨ed1, edited, refines1⟩ := refines.step (writable ev (by simp)) first
    obtain ⟨ed2, ran, refines2⟩ := ih refines1 (fun ev' member => writable ev' (by simp [member])) rest
    exact ⟨ed2, by rw [run_cons, edited]; exact ran, refines2⟩

/-- Along every interleaving of input and readers with writable destinations, the indices stay in
order within the ring, the erasing characters leave what is committed, and what the readers get is what
they get from the line editor. -/
theorem console_line_discipline {events : List (ConsEvent T)} (writable : ∀ ev ∈ events, ev.Writable)
    (taken : run consStep consoleinit events = some s) :
    (s.cons.e - s.cons.r).toNat ≤ INPUT_BUF ∧
    (s.cons.w - s.cons.r).toNat ≤ (s.cons.e - s.cons.r).toNat ∧
    (∀ c, c = ctrlU ∨ c = ctrlH ∨ c = delete → (consoleintr c s.cons).committed = s.cons.committed ∧
      (consoleintr c s.cons).pending <+: s.cons.pending) ∧
    run editorStep Editor.empty events = some ⟨s.cons.committed, s.cons.pending, s.reader⟩ := by
  obtain ⟨ed, ran, refines⟩ := refines_start.run writable taken
  refine ⟨refines.sound.bounded, refines.sound.between, ?_, ?_⟩
  · intro c erases
    obtain ⟨-, same⟩ := consoleintr_editor s.reader refines.sound c
    have committed := congrArg Editor.committed same
    have pending := congrArg Editor.pending same
    simp only [Cons.editor] at committed pending
    rw [committed, pending]
    rcases erases with rfl | rfl | rfl
    · exact ⟨rfl, List.nil_prefix⟩
    · exact ⟨rfl, List.dropLast_prefix _⟩
    · exact ⟨rfl, List.dropLast_prefix _⟩
  · rw [ran, refines.same]
    rfl

end

-- "ab", backspace, "c", newline, control-D, with a reader of three bytes and one that meets the end.
def typing : List (ConsEvent Nat) :=
  [.consoleintr 97, .consoleintr 98, .consoleintr delete, .consoleintr 99, .consoleintr carriageReturn,
    .consoleintr ctrlD, .consoleread 0 8 (fun _ => true) false, .consoleread 1 8 (fun _ => true) false]

theorem console_line_discipline_typing : ∃ s, run consStep consoleinit typing = some s ∧
    (s.cons.e - s.cons.r).toNat ≤ INPUT_BUF ∧
    run editorStep Editor.empty typing = some ⟨s.cons.committed, s.cons.pending, s.reader⟩ := by
  obtain ⟨s, taken⟩ := Option.isSome_iff_exists.mp (show (run consStep consoleinit typing).isSome by decide +kernel)
  have writable : ∀ ev ∈ typing, ev.Writable := by
    simp [typing, ConsEvent.Writable]
  have all := console_line_discipline writable taken
  exact ⟨s, taken, all.1, all.2.2.2⟩

end Xv6.Console
