import Xv6.Fs.LockCalls

namespace Xv6.Fs
open Lib

/-! ## `sysfile.c` keeps to the lock order -/

section
variable {k k' : Know} {e e' dp ip : Entry} {r : Entry → Int} {l : Set Entry} {n : Int}

namespace Know.Has

variable {locks : Set Entry → Set Entry} {keep learn : Fact → Prop}

theorem go (has : k.Has r l) (moves : k.To k' id locks keep learn) : k'.Has r (locks l) := by
  refine ⟨?_, ?_⟩
  · rw [moves.refs, moves.cwd]
    exact has.1
  · rw [moves.locks, has.2]

theorem take (has : k.Has r l) (moves : k.To k' (· + mine e) locks keep learn) : k'.Has (r + mine e) (locks l) := by
  refine ⟨?_, ?_⟩
  · rw [moves.refs, moves.cwd, has.1, add_assoc]
  · rw [moves.locks, has.2]

theorem drop (has : k.Has (r + mine e) l) (moves : k.To k' (· - mine e) locks keep learn) : k'.Has r (locks l) := by
  refine ⟨?_, ?_⟩
  · rw [moves.refs, moves.cwd, has.1, ← add_assoc, add_sub_cancel_right]
  · rw [moves.locks, has.2]

theorem swap (has : k.Has (mine e + mine e') l) : k.Has (mine e' + mine e) l := by
  rw [add_comm]
  exact has

theorem one (has : k.Has (mine e) l) : k.Has (0 + mine e) l := by
  rw [zero_add]
  exact has

theorem locked (has : k.Has r l) {l' : Set Entry} (same : l = l') : k.Has r l' := same ▸ has

theorem least (has : k.Has r l) (e : Entry) : r e ≤ k.refs e := by
  have : 0 ≤ home k.cwd e := by
    cases k.cwd with
    | none => exact Int.le_refl 0
    | some c => exact mine_nonneg c e
  rw [has.1, Pi.add_apply]
  omega

theorem cwd (has : k.Has r l) (nonneg : ∀ e, 0 ≤ r e) (c : Entry) (here : k.cwd = some c) : 1 ≤ k.refs c := by
  have := nonneg c
  rw [has.1, here, Pi.add_apply, home, mine_self]
  omega

theorem first (has : k.Has (mine e) l) : 1 ≤ k.refs e := by
  have := has.least e
  rwa [mine_self] at this

theorem left (has : k.Has (mine e + mine e') l) : 1 ≤ k.refs e := by
  have least := has.least e
  have := mine_nonneg e' e
  rw [Pi.add_apply, mine_self] at least
  omega

theorem right (has : k.Has (mine e + mine e') l) : 1 ≤ k.refs e' := has.swap.left

end Know.Has

theorem order_addLinks (full : k.knows (.full e))
    (next : ∀ k', k.Changes k' e (· = .full e) → Q () k') : Obeys Q (addLinks e n) k := by
  refine order_next rfl trivial fun d k₁ ⟨typed, _, read⟩ => ?_
  have type : k₁.knows (.type e d.type) := read.learn _ ⟨full, rfl⟩
  refine order_next rfl ⟨read.keep _ full trivial, ?_⟩ fun _ k₂ stored => ?_
  · rw [if_neg (typed full).1]
    exact type
  rw [Order.post, if_neg (typed full).1] at stored
  have full₂ := stored.learn _ rfl
  refine order_ask rfl (.inl full₂) fun _ k₃ ⟨updated, _⟩ => next k₃ ?_
  exact (read.after (stored.trans (updated full₂))).mono (fun F keeps => ⟨keeps, keeps⟩) fun F here => .inl (.inl here)

theorem order_endOp (has : k.AtRest) : Rests (do ask .endOp; pure n) k := by
  exact order_next rfl trivial fun _ k₁ ended => has.go ended

theorem only_diff (e : Entry) : ({e} : Set Entry) \ {e} = ∅ := Set.sdiff_self

theorem order_leave (has : k.Has (mine e) {e}) (full : k.knows (.full e)) :
    Rests (do iunlockput e; ask .endOp; pure n) k := by
  refine follows_bind ?_
  refine order_iunlockput full has.first fun k₁ dropped => order_endOp ?_
  exact (has.one.drop dropped).locked (only_diff e)

theorem order_lockAlone {α : Type} {f : Unit → Op α} {Q : α → Know → Prop} (has : k.Has (mine e) ∅)
    (next : ∀ k', k'.Has (mine e) {e} → k'.knows (.full e) → Obeys Q (f ()) k') : Obeys Q (ilock e >>= f) k := by
  refine follows_bind ?_
  refine order_ilock (.inl has.first) (may_unlocked has.2 e) fun k₁ _ locked => next k₁ ?_ (locked.learn _ rfl)
  exact (has.go locked).locked (insert_empty_eq e)

theorem order_lockPath {rest : Entry → Op Int} (has : k.AtRest) (path : Path)
    (next : ∀ ip k', k'.Has (mine ip) {ip} → k'.knows (.full ip) → Rests (rest ip) k') :
    Rests (do
      ask .beginOp
      match ← namei path with
      | none => do
        ask .endOp
        pure (-1)
      | some ip => do
        ilock ip
        rest ip) k := by
  refine order_next rfl trivial fun _ k₁ began => ?_
  have has₁ := has.go began
  refine follows_bind ?_
  refine order_namei has₁.2 (has₁.cwd fun _ => Int.le_refl 0) (fun k₂ missing => order_endOp (has₁.go missing))
    fun ip k₂ _ found => ?_
  have has₂ : k₂.Has (mine ip) ∅ := (zero_add (mine ip)) ▸ has₁.take found
  exact order_lockAlone has₂ (next ip)

theorem order_linkBad (has : k.Has (mine e) ∅) : Rests (linkBad e) k := by
  refine order_lockAlone has fun k₁ has₁ full => ?_
  refine follows_bind ?_
  exact order_addLinks full fun k₂ changed => order_leave (has₁.go changed) (changed.learn _ rfl)

theorem order_link (has : k.AtRest) (old new : Path) : Rests (link old new) k := by
  refine order_lockPath has old fun ip k₃ has₃ locked => ?_
  refine order_next rfl trivial fun d k₄ ⟨_, _, read⟩ => ?_
  have full := read.keep _ locked trivial
  have type : k₄.knows (.type ip d.type) := read.learn _ ⟨locked, rfl⟩
  split_ifs with dir
  · exact order_leave (has₃.go read) full
  refine follows_bind ?_
  refine order_addLinks full fun k₅ changed => ?_
  refine follows_bind ?_
  refine order_iunlock (changed.learn _ rfl) fun k₆ released => ?_
  have has₆ := (((has₃.go read).go changed).go released).locked (only_diff ip)
  have type₆ := released.keep _ (changed.keep _ type (.inr trivial)) (.inr trivial)
  refine follows_bind ?_
  refine order_namex has₆.2 (has₆.cwd (mine_nonneg ip)) (fun k₇ missing => order_linkBad (has₆.go missing))
    fun dp name k₇ _ found' => ?_
  have has₇ := has₆.take found'
  have type₇ := found'.keep _ type₆ ⟨trivial, has₆.first⟩
  refine follows_bind ?_
  refine order_ilock (.inl has₇.right) (may_unlocked has₇.2 dp) fun k₈ _ locked' => ?_
  have has₈ := (has₇.go locked').locked (insert_empty_eq dp)
  refine order_next rfl trivial fun inum k₉ ⟨small, _, read'⟩ => ?_
  have held : k₈.Protects ip := .inl has₈.left
  have has₉ := has₈.go read'
  have type₉ := read'.keep _ (locked'.keep _ type₇ (.inr trivial)) trivial
  refine follows_bind ?_
  refine order_dirlink (read'.keep _ (locked'.learn _ rfl) trivial) has₉.right ?_ (small held)
    (.inr (.inr ⟨ip, d.type, dir, type₉, read'.learn _ ⟨held, rfl⟩⟩)) fun result k₁₀ linked => ?_
  · rw [Know.Tidy, has₉.2]
    rintro _ rfl
    exact has₉.right
  have has₁₀ := has₉.go linked
  split_ifs with failed
  · refine follows_bind ?_
    refine order_iunlockput (linked.learn _ rfl) has₁₀.right fun k₁₁ dropped => order_linkBad ?_
    exact (has₁₀.drop dropped).locked (only_diff dp)
  · refine follows_bind ?_
    refine order_iunlockput (linked.learn _ rfl) has₁₀.right fun k₁₁ dropped => ?_
    have has₁₁ := (has₁₀.drop dropped).locked (only_diff dp)
    refine follows_bind ?_
    refine order_iput has₁₁.first ?_ fun k₁₂ put => order_endOp (has₁₁.one.drop put)
    rw [has₁₁.2]
    exact False.elim

theorem order_fullDirectory (next : ∀ full k', (k.Learns k' fun _ => False) → Q full k') :
    Obeys Q (fullDirectory ip) k := by
  refine order_next rfl trivial fun d k₁ ⟨_, _, read⟩ => ?_
  split_ifs with dir
  · refine follows_bind ?_
    refine order_next rfl trivial fun d k₂ ⟨_, _, read'⟩ => ?_
    refine follows_bind ?_
    refine order_scanFrom _ _ fun de _ k₃ _ searched => next (!de.isNone) k₃ ?_
    exact ((read.after read').after searched).mono (fun _ => id) fun _ => False.elim
  · exact next false k₁ (read.mono (fun _ => id) fun _ => False.elim)

theorem pair_diff (other : e ≠ e') : ({e, e'} : Set Entry) \ {e} = {e'} := by
  rw [Set.insert_sdiff_self_of_notMem]
  exact other

theorem pair_diff_right (other : e ≠ e') : ({e, e'} : Set Entry) \ {e'} = {e} := by
  rw [Set.pair_comm, pair_diff (Ne.symm other)]

theorem order_unlinkDots (full : k.knows (.full dp))
    (next : ∀ k', k.Changes k' dp (· = .full dp) → Q () k') : Obeys Q (unlinkDots dp ip) k := by
  refine order_next rfl trivial fun d k₁ ⟨_, _, read⟩ => ?_
  split_ifs with dir
  · refine order_addLinks (read.keep _ full trivial) fun k₂ changed => next k₂ ?_
    exact (read.after changed).mono (fun _ => id) fun _ => .inl
  · refine next k₁ ⟨read.refs, read.cwd, read.locks, fun F known _ => read.keep F known trivial, ?_⟩
    rintro _ rfl
    exact read.keep _ full trivial

theorem order_unlinkEntry (has : k.Has (mine dp + mine ip) {ip, dp}) (other : ip ≠ dp) (off : Nat)
    (full : k.knows (.full dp)) (dir : k.knows (.type dp T_DIR)) (full' : k.knows (.full ip)) :
    Rests (unlinkEntry dp ip off) k := by
  refine order_next rfl ⟨full, dir, Nat.zero_lt_succ _, .inl rfl⟩ fun wrote k₁ written => ?_
  have has₁ := has.go written
  cases wrote with
  | false => exact order_panic _
  | true =>
    refine follows_bind ?_
    refine order_unlinkDots (written.learn _ rfl) fun k₂ changed => ?_
    have has₂ := has₁.go changed
    have full₂ := changed.keep _ (written.keep _ full' (.inl other)) (.inl other)
    refine follows_bind ?_
    refine order_iunlockput (changed.learn _ rfl) has₂.left fun k₃ dropped => ?_
    have has₃ := (has₂.swap.drop dropped).locked (pair_diff_right other)
    refine follows_bind ?_
    refine order_addLinks (dropped.keep _ full₂ (.inl other)) fun k₄ changed' => ?_
    exact order_leave (has₃.go changed') (changed'.learn _ rfl)

theorem order_unlink (has : k.AtRest) (path : Path) : Rests (unlink path) k := by
  refine order_next rfl trivial fun _ k₁ began => ?_
  have has₁ := has.go began
  refine follows_bind ?_
  refine order_namex has₁.2 (has₁.cwd fun _ => Int.le_refl 0) (fun k₂ missing => order_endOp (has₁.go missing))
    fun dp name k₂ _ found => ?_
  have has₂ : k₂.Has (mine dp) ∅ := (zero_add (mine dp)) ▸ has₁.take found
  refine order_lockAlone has₂ fun k₃ has₃ full => ?_
  split_ifs with special
  · exact order_leave has₃ full
  refine follows_bind ?_
  refine order_dirlookup full (fun k₄ missing => ?_) fun ip off inum k₄ got named => ?_
  · exact order_leave (has₃.go missing) (missing.keep _ full trivial)
  have has₄ := has₃.take named
  have dir := named.learn _ (.inl rfl)
  refine follows_bind ?_
  refine order_ilock (.inl got) ?_ fun k₅ new locked' => ?_
  · rw [Know.May, has₄.2]
    rintro _ rfl
    exact ⟨dir, inum, named.learn _ (.inr (.inl rfl)), named.learn _ (.inr (.inr ⟨special, rfl⟩))⟩
  have other : ip ≠ dp := by
    rintro rfl
    rw [has₄.2] at new
    exact new rfl
  have has₅ := has₄.go locked'
  have full₅ := locked'.keep _ (named.keep _ full trivial) (.inl (Ne.symm other))
  have dir₅ := locked'.keep _ dir (.inr trivial)
  refine order_next rfl trivial fun d k₆ ⟨_, _, read⟩ => ?_
  split_ifs with low
  · exact order_panic _
  refine follows_bind ?_
  refine order_fullDirectory fun nonempty k₇ searched => ?_
  have has₇ := (has₅.go read).go searched
  have all := read.after searched
  have full₇ := all.keep _ full₅ trivial
  have full₇' := all.keep _ (locked'.learn _ rfl) trivial
  cases nonempty with
  | false => exact order_unlinkEntry has₇ other off full₇ (all.keep _ dir₅ trivial) full₇'
  | true =>
    refine follows_bind ?_
    refine order_iunlockput full₇' has₇.right fun k₈ dropped => ?_
    refine order_leave ((has₇.drop dropped).locked (pair_diff other)) (dropped.keep _ full₇ (.inl (Ne.symm other)))

/-! ### `create` -/

def News (dp ip : Entry) (inum : Nat) (type : Int) (F : Fact) : Prop :=
  F = .inum ip inum ∨ F = .next dp inum ∨ F = .type ip type

theorem order_iallocFrom (n inum : Nat) (small : inum + n ≤ 65536) (typed : type ≠ 0) (dir : k.knows (.type dp T_DIR))
    (next : ∀ ip inum k', k.To k' (· + mine ip) id (fun _ => True) (News dp ip inum type) → Q ip k') :
    Obeys Q (iallocFrom type n inum) k := by
  induction n generalizing k inum with
  | zero => exact order_panic _
  | succ n ih =>
    refine ⟨typed, ?_⟩
    rintro free stage ⟨k₁, tried, rfl⟩
    cases free with
    | false =>
      refine ih (inum + 1) (by omega) (tried.keep _ dir trivial) fun ip inum k₂ more => next ip inum k₂ ?_
      exact (tried.after more).mono (fun _ => id) fun _ => .inl
    | true =>
      refine ⟨⟨rfl, by omega⟩, ?_⟩
      rintro ip stage ⟨k₂, ⟨_, taken⟩, known, rfl⟩
      have both := tried.after taken
      refine next ip inum k₂ ⟨both.refs, both.cwd, both.locks, both.keep, ?_⟩
      rintro F (rfl | rfl | rfl)
      · exact both.learn _ (.inl rfl)
      · exact both.learn _ (.inr ⟨⟨rfl, dp, dir, rfl⟩, trivial⟩)
      · exact known

theorem order_ialloc (typed : type ≠ 0) (dir : k.knows (.type dp T_DIR))
    (next : ∀ ip inum k', k.To k' (· + mine ip) id (fun _ => True) (News dp ip inum type) → Q ip k') :
    Obeys Q (ialloc type) k := by
  refine order_next rfl trivial fun n k₁ ⟨small, read⟩ => ?_
  refine order_iallocFrom _ _ ?_ typed (read.keep _ dir trivial) fun ip inum k₂ taken => next ip inum k₂ ?_
  · exact Nat.add_le_add_left (Nat.sub_le_sub_right small 1) 1
  · exact (read.after taken).mono (fun _ => id) fun _ => .inl

theorem Know.Has.tidy (has : k.Has (mine dp + mine ip) {ip, dp}) : k.Tidy := by
  rw [Know.Tidy, has.2]
  rintro _ (rfl | rfl)
  · exact has.right
  · exact has.left

theorem order_createDots (has : k.Has (mine dp + mine ip) {ip, dp}) (other : ip ≠ dp)
    (full : k.knows (.full dp)) (full' : k.knows (.full ip))
    (next : ∀ k', k.To k' id id (fun F => 1 ≤ k.refs F.entry ∧ F.Soft) (fun F => F = .full dp ∨ F = .full ip) →
      Q () k') : Obeys Q (createDots dp ip) k := by
  refine follows_bind ?_
  refine order_addLinks full fun k₁ changed => ?_
  have has₁ := has.go changed
  refine order_next rfl trivial fun inum k₂ ⟨small, _, read⟩ => ?_
  have has₂ := has₁.go read
  have full₂ := read.keep _ (changed.keep _ full' (.inl other)) trivial
  have full₂' := read.keep _ (changed.learn _ rfl) trivial
  refine follows_bind ?_
  refine order_dirlink full₂ has₂.right has₂.tidy (small (.inl has₁.right)) (.inl (.inl rfl)) fun result k₃ linked => ?_
  have has₃ := has₂.go linked
  split_ifs with failed
  · exact order_panic _
  refine order_next rfl trivial fun up k₄ ⟨small', _, read'⟩ => ?_
  have has₄ := has₃.go read'
  have full₄ := read'.keep _ (linked.keep _ full₂' ⟨has₂.left, .inl (Ne.symm other)⟩) trivial
  refine follows_bind ?_
  refine order_dirlink (read'.keep _ (linked.learn _ rfl) trivial) has₄.right has₄.tidy (small' (.inl has₃.left))
    (.inl (.inr rfl)) fun result' k₅ linked' => ?_
  split_ifs with failed'
  · exact order_panic _
  have refs₂ : k₂.refs = k.refs := (changed.trans read).refs
  have refs₄ : k₄.refs = k.refs := ((linked.trans read').refs).trans refs₂
  refine next k₅ ⟨linked'.refs.trans refs₄, ?_, ?_, ?_, ?_⟩
  · exact linked'.cwd.trans (read'.cwd.trans (linked.cwd.trans (read.cwd.trans changed.cwd)))
  · exact linked'.locks.trans (read'.locks.trans (linked.locks.trans (read.locks.trans changed.locks)))
  · intro F known ⟨held, soft⟩
    have known₂ := read.keep F (changed.keep F known (.inr soft)) trivial
    have known₃ := linked.keep F known₂ ⟨refs₂ ▸ held, .inr soft⟩
    exact linked'.keep F (read'.keep F known₃ trivial) ⟨refs₄ ▸ held, .inr soft⟩
  · rintro _ (rfl | rfl)
    · exact linked'.keep _ full₄ ⟨has₄.left, .inl (Ne.symm other)⟩
    · exact linked'.learn _ rfl

theorem order_createNew {name : Name} (has : k.Has (mine dp) {dp})
    (full : k.knows (.full dp)) (dir : k.knows (.type dp T_DIR)) (typed : type ≠ 0)
    (next : ∀ ip k', k'.Has (mine ip) {ip} → k'.knows (.full ip) → k'.knows (.type ip type) → Q ip k') :
    Obeys Q (createNew dp name type major minor) k := by
  refine follows_bind ?_
  refine order_ialloc typed dir fun ip inum k₁ taken => ?_
  have has₁ := has.take taken
  have number := taken.learn _ (.inl rfl)
  have younger := taken.learn _ (.inr (.inl rfl))
  have kind := taken.learn _ (.inr (.inr rfl))
  refine follows_bind ?_
  refine order_ilock (.inl has₁.right) ?_ fun k₂ new locked => ?_
  · rw [Know.May, has₁.2]
    rintro _ rfl
    exact ⟨taken.keep _ dir trivial, inum, number, younger⟩
  have other : ip ≠ dp := by
    rintro rfl
    rw [has₁.2] at new
    exact new rfl
  refine order_next rfl trivial fun d k₃ ⟨copy, _, read⟩ => ?_
  have typed := (copy (locked.learn _ rfl)).1
  refine order_next rfl ⟨read.keep _ (locked.learn _ rfl) trivial, ?_⟩ fun _ k₄ stored => ?_
  · rw [if_neg typed]
    exact read.learn _ ⟨locked.learn _ rfl, rfl⟩
  rw [Order.post, if_neg typed] at stored
  have full₄' := stored.learn _ rfl
  refine order_next rfl (.inl full₄') fun _ k₅ ⟨updated, _⟩ => ?_
  have changed := (locked.trans read).trans (stored.trans (updated full₄'))
  have has₅ := has₁.go changed
  have full₅ := changed.keep _ (taken.keep _ full trivial) ⟨⟨.inl (Ne.symm other), trivial⟩, .inl (Ne.symm other),
    .inl (Ne.symm other)⟩
  have full₅' := (updated full₄').learn _ rfl
  have number₅ := changed.keep _ number ⟨⟨.inr trivial, trivial⟩, .inr trivial, .inr trivial⟩
  have younger₅ := changed.keep _ younger ⟨⟨.inr trivial, trivial⟩, .inr trivial, .inr trivial⟩
  have kind₅ := changed.keep _ kind ⟨⟨.inr trivial, trivial⟩, .inr trivial, .inr trivial⟩
  -- The rest is the same with and without the entries of a new directory.
  have finish (k₆ : Know) (more : k₅.To k₆ id id (fun F => 1 ≤ k₅.refs F.entry ∧ F.Soft)
      fun F => F = .full dp ∨ F = .full ip) : Obeys Q (do
        let inum ← ask (.inum ip)
        if (← dirlink dp name inum) < 0 then panic .createDirlink
        else do
          iunlockput dp
          pure ip) k₆ := by
    have has₆ := has₅.go more
    refine order_next rfl trivial fun n k₇ ⟨small, equal, read'⟩ => ?_
    have same := equal inum (more.keep _ number₅ ⟨has₅.right, trivial⟩)
    have has₇ := has₆.go read'
    refine follows_bind ?_
    refine order_dirlink (read'.keep _ (more.learn _ (.inl rfl)) trivial) has₇.left has₇.tidy (small (.inl has₆.right))
      ?_ fun result k₈ linked => ?_
    · rw [same]
      exact .inr (.inl (read'.keep _ (more.keep _ younger₅ ⟨has₅.left, trivial⟩) trivial))
    have has₈ := has₇.go linked
    split_ifs with failed
    · exact order_panic _
    have full₈ := linked.keep _ (read'.keep _ (more.learn _ (.inr rfl)) trivial) ⟨has₇.right, .inl other⟩
    refine follows_bind ?_
    have kind₇ := read'.keep _ (more.keep _ kind₅ ⟨has₅.right, trivial⟩) trivial
    have kind₈ := linked.keep _ kind₇ ⟨has₇.right, .inl other⟩
    refine order_iunlockput (linked.learn _ rfl) has₈.left fun k₉ dropped => ?_
    refine next ip k₉ ?_ (dropped.keep _ full₈ (.inl other)) (dropped.keep _ kind₈ (.inl other))
    exact (has₈.swap.drop dropped).locked (pair_diff_right other)
  refine follows_bind ?_
  split_ifs with directory
  · exact order_createDots has₅ other full₅ full₅' finish
  · refine finish k₅ ⟨rfl, rfl, rfl, fun _ known _ => known, ?_⟩
    rintro _ (rfl | rfl)
    · exact full₅
    · exact full₅'

theorem order_create {path : Path} {Q : Option Entry → Know → Prop} (has : k.AtRest)
    (typed : type ≠ 0) (none : ∀ k', k'.AtRest → Q none k') (some : ∀ ip k', k'.Has (mine ip) {ip} → k'.knows (.full ip) →
      (∃ kind, k'.knows (.type ip kind) ∧ (type ≠ T_DIR → kind ≠ T_DIR)) → Q (some ip) k') :
    Obeys Q (create path type major minor) k := by
  refine follows_bind ?_
  refine order_namex has.2 (has.cwd fun _ => Int.le_refl 0) (fun k₁ missing => none k₁ (has.go missing))
    fun dp name k₁ _ found => ?_
  have has₁ : k₁.Has (mine dp) ∅ := (zero_add (mine dp)) ▸ has.take found
  refine order_lockAlone has₁ fun k₂ has₂ full => ?_
  refine follows_bind ?_
  refine order_dirlookup full (fun k₃ missing => ?_) fun ip off inum k₃ got named => ?_
  · refine follows_bind ?_
    refine order_createNew (has₂.go missing) (missing.keep _ full trivial) (missing.learn _ rfl) typed ?_
    exact fun ip k' has' full' kind => some ip k' has' full' ⟨type, kind, id⟩
  · have has₃ := has₂.take named
    refine follows_bind ?_
    refine order_iunlockput (named.keep _ full trivial) has₃.left fun k₄ dropped => ?_
    have has₄ := (has₃.swap.drop dropped).locked (only_diff dp)
    refine order_lockAlone has₄ fun k₅ has₅ full₅ => ?_
    refine order_next rfl trivial fun d k₆ ⟨_, _, read⟩ => ?_
    have full₆ := read.keep _ full₅ trivial
    split_ifs with fits
    · refine some ip k₆ (has₅.go read) full₆ ⟨d.type, read.learn _ ⟨full₅, rfl⟩, fun _ => ?_⟩
      rcases fits.2 with file | device
      · rw [file]
        decide
      · rw [device]
        decide
    · refine follows_bind ?_
      refine order_iunlockput full₆ (has₅.go read).first fun k₇ dropped' => none k₇ ?_
      exact ((has₅.go read).one.drop dropped').locked (only_diff ip)

end

end Xv6.Fs
