import Xv6.Fs.LockOrder

namespace Xv6.Fs
open Lib

/-! ## `fs.c` keeps to the lock order -/

section
variable {α : Type} {k k' k'' : Know} {e dp ip : Entry}

namespace Know.To

variable {refs refs' : (Entry → Int) → Entry → Int} {locks locks' : Set Entry → Set Entry}
  {keep keep' learn learn' : Fact → Prop}

theorem refl (k : Know) : k.Learns k fun _ => False := ⟨rfl, rfl, rfl, fun _ known _ => known, fun _ => False.elim⟩

theorem mono (moves : k.To k' refs locks keep learn) (kept : ∀ F, keep' F → keep F) (learnt : ∀ F, learn' F → learn F) :
    k.To k' refs locks keep' learn' :=
  ⟨moves.refs, moves.cwd, moves.locks, fun F known keeps => moves.keep F known (kept F keeps), fun F learns =>
    moves.learn F (learnt F learns)⟩

theorem trans (first : k.To k' refs locks keep learn) (second : k'.To k'' refs' locks' keep' learn') :
    k.To k'' (fun r => refs' (refs r)) (fun l => locks' (locks l)) (fun F => keep F ∧ keep' F)
      fun F => learn' F ∨ learn F ∧ keep' F :=
  ⟨by rw [second.refs, first.refs], second.cwd.trans first.cwd, by rw [second.locks, first.locks],
    fun F known keeps => second.keep F (first.keep F known keeps.1) keeps.2,
    fun F learns => learns.elim (second.learn F) fun both => second.keep F (first.learn F both.1) both.2⟩

theorem after (first : k.Learns k' learn) (second : k'.To k'' refs' locks' keep' learn') :
    k.To k'' refs' locks' keep' fun F => learn' F ∨ learn F ∧ keep' F :=
  (first.trans second).mono (fun _ keeps => ⟨trivial, keeps⟩) fun _ => id

theorem as (moves : k.To k' refs locks keep learn) (same : refs k.refs = refs' k.refs)
    (same' : locks k.locks = locks' k.locks) : k.To k' refs' locks' keep learn :=
  ⟨moves.refs.trans same, moves.cwd, moves.locks.trans same', moves.keep, moves.learn⟩

end Know.To

def Req.allocates : Req → Bool
  | .tryAlloc .. => true
  | _ => false

theorem after_idle (plain : r.allocates = false) (x : Answer r) : Stage.after r x k = .idle k := by
  cases r with
  | tryAlloc inum type => cases plain
  | _ => rfl

abbrev Obeys (Q : α → Know → Prop) (prog : Op α) (k : Know) : Prop := Follows Order.contract Q prog k

abbrev Rests (prog : Op α) (k : Know) : Prop := Obeys (fun _ => Know.AtRest) prog k

theorem order_ask {Q : Answer r → Know → Prop} (plain : r.allocates = false) (asked : Order.pre k r)
    (next : ∀ x k', Order.post r k x k' → Q x k') : Obeys Q (ask r) k := by
  refine ⟨asked, ?_⟩
  rintro x stage ⟨k', kept, rfl⟩
  rw [after_idle plain]
  exact next x k' kept

theorem order_next {f : Answer r → Op α} (plain : r.allocates = false)
    (asked : Order.pre k r) (next : ∀ x k', Order.post r k x k' → Obeys Q (f x) k') : Obeys Q (ask r >>= f) k :=
  follows_bind (order_ask plain asked next)

theorem order_panic (why : Panic) : Obeys Q (panic why) k := ⟨trivial, nofun⟩

def Know.May (k : Know) (e : Entry) : Prop := ∀ dp ∈ k.locks, k.knows (.type dp T_DIR) ∧
  ∃ inum, k.knows (.inum e inum) ∧ k.knows (.next dp inum)

theorem order_ilock (held : k.Protects e) (may : k.May e)
    (next : ∀ k', e ∉ k.locks → k.To k' id (insert e) (fun F => F.entry ≠ e ∨ F.Soft) (· = .full e) → Q () k') :
    Obeys Q (ilock e) k := by
  refine order_next rfl ⟨held, may⟩ fun _ k₁ ⟨free, taken⟩ => ?_
  refine order_ask rfl (taken.learn _ rfl) fun _ k₂ filled => next k₂ free ?_
  exact (taken.trans filled).mono (fun F keeps => ⟨trivial, keeps⟩) fun F learns => .inl learns

theorem order_iunlock (full : k.knows (.full e))
    (next : ∀ k', k.To k' id (· \ {e}) (fun F => F.entry ≠ e ∨ F.Soft) (fun _ => False) → Q () k') : Obeys Q (iunlock e) k :=
  order_ask rfl full fun _ k' released => next k' released

theorem order_iput (held : 1 ≤ k.refs e) (twice : e ∈ k.locks → 2 ≤ k.refs e)
    (next : ∀ k', k.To k' (· - mine e) id (fun F => F.entry ≠ e ∨ 2 ≤ k.refs e) (fun _ => False) → Q () k') :
    Obeys Q (iput e) k := by
  refine order_next rfl ⟨held, twice⟩ fun last k₁ kept => ?_
  cases last with
  | false => exact next k₁ kept
  | true =>
    obtain ⟨one, free, taken⟩ := kept
    refine order_next rfl ⟨taken.learn _ (.inl rfl), .inl (taken.learn _ (.inr rfl))⟩ fun _ k₂ emptied => ?_
    have sole := emptied.keep _ (taken.learn _ (.inr rfl)) (.inr (.inr rfl))
    refine order_next rfl trivial fun d k₃ ⟨_, unlinked, read⟩ => ?_
    have full := read.keep _ (emptied.learn _ (.inl rfl)) trivial
    have empty := read.keep _ (emptied.learn _ (.inr rfl)) trivial
    refine order_next rfl ⟨full, ?_⟩ fun _ k₄ stored => ?_
    · exact ⟨empty, read.keep _ sole trivial, unlinked sole⟩
    have gone := stored.learn _ (.inl rfl)
    refine order_next rfl (.inr ⟨gone, stored.learn _ (.inr rfl)⟩) fun _ k₅ ⟨_, updated⟩ => ?_
    replace updated := updated gone
    refine follows_bind ?_
    have freed := (((taken.trans emptied).trans read).trans stored).trans updated
    have held₅ : 1 ≤ k₅.refs e := by
      rw [freed.refs]
      exact held
    refine order_ask rfl ⟨updated.learn _ rfl, held₅⟩ fun _ k₆ invalid => ?_
    have held₆ : 1 ≤ k₆.refs e := by
      rw [invalid.refs]
      exact held₅
    refine order_next rfl ⟨invalid.learn _ rfl, held₆⟩ fun _ k₇ released => ?_
    have before := (freed.trans invalid).trans released
    have locks : k₇.locks = k.locks := before.locks.trans (Set.insert_sdiff_self_of_notMem free)
    have refs : k₇.refs = k.refs := before.refs
    refine order_ask rfl ?_ fun _ k₈ dropped => next k₈ ?_
    · simp only [Order.pre, refs, locks]
      exact ⟨held, twice⟩
    · have whole : k.To k₈ (· - mine e) id _ _ := (before.trans dropped).as rfl (Set.insert_sdiff_self_of_notMem free)
      refine whole.mono (fun F keeps => ?_) fun F => False.elim
      have other : F.entry ≠ e := by grind
      exact ⟨⟨⟨⟨⟨⟨⟨other, .inl other⟩, trivial⟩, other⟩, other⟩, other⟩, other⟩, .inl other⟩

theorem order_iunlockput (full : k.knows (.full e)) (held : 1 ≤ k.refs e)
    (next : ∀ k', k.To k' (· - mine e) (· \ {e}) (fun F => F.entry ≠ e ∨ F.Soft ∧ 2 ≤ k.refs e) (fun _ => False) →
      Q () k') : Obeys Q (iunlockput e) k := by
  refine follows_bind ?_
  refine order_iunlock full fun k₁ released => ?_
  have refs : k₁.refs = k.refs := released.refs
  refine order_iput ?_ ?_ fun k₂ dropped => next k₂ ?_
  · rw [refs]
    exact held
  · rw [released.locks]
    exact fun member => absurd rfl member.2
  · refine (released.trans dropped).mono (fun F keeps => ?_) fun F => False.elim
    rw [refs]
    rcases keeps with other | ⟨soft, many⟩
    · exact ⟨.inl other, .inl other⟩
    · exact ⟨.inr soft, .inr many⟩

/-! ### Directories -/

theorem order_readDirent {Q : Option Dirent → Know → Prop} (off : Nat)
    (next : ∀ de k', (k.knows (.type e T_DIR) → ∀ v, de = some v → v.inum < 65536) → (k.Learns k' fun F => ∃ v, de = some v ∧
      k.knows (.type e T_DIR) ∧ v.inum ≠ 0 ∧ ¬ dots v.name ∧ F = .next e v.inum) → Q de k') :
    Obeys Q (ask (.readDirent e off)) k :=
  order_ask rfl trivial fun de k' kept => next de k' kept.1 kept.2

def Names (dp ip : Entry) (name : Name) (inum : Nat) (F : Fact) : Prop :=
  F = .inum ip inum ∨ ¬ dots name ∧ F = .next dp inum

theorem order_scanFrom {short : Panic} {wanted : Dirent → Bool} {Q : Option Dirent × Nat → Know → Prop} (n off : Nat)
    (next : ∀ de off k', (∀ v, de = some v → wanted v = true ∧ (k.knows (.type dp T_DIR) → v.inum < 65536)) →
      (k.Learns k' fun F => ∃ v, de = some v ∧ k.knows (.type dp T_DIR) ∧ v.inum ≠ 0 ∧ ¬ dots v.name ∧ F = .next dp v.inum) →
      Q (de, off) k') : Obeys Q (scanFrom dp short wanted n off) k := by
  induction n generalizing k off with
  | zero => exact next none off k (by simp) ((Know.To.refl k).mono (fun _ => id) (by simp))
  | succ n ih =>
    refine follows_bind ?_
    refine order_readDirent off fun de k₁ small read => ?_
    cases de with
    | none => exact order_panic _
    | some de =>
      change Obeys Q (if wanted de = true then _ else _) k₁
      split_ifs with found
      · refine next (some de) off k₁ ?_ read
        rintro _ ⟨⟩
        exact ⟨found, fun dir => small dir de rfl⟩
      · refine ih _ fun de' off' k₂ chosen more => next de' off' k₂ (fun v here => ?_) ?_
        · exact ⟨(chosen v here).1, fun dir => (chosen v here).2 (read.keep _ dir trivial)⟩
        · refine (read.after more).mono (fun _ => id) ?_
          rintro F ⟨v, here, dir, learns⟩
          exact .inl ⟨v, here, read.keep _ dir trivial, learns⟩

theorem order_dirlookup (full : k.knows (.full dp))
    (missing : ∀ k', (k.Learns k' fun F => F = .type dp T_DIR) → Q none k')
    (found : ∀ ip off inum k', 1 ≤ k'.refs ip → k.To k' (· + mine ip) id (fun _ => True)
      (fun F => F = .type dp T_DIR ∨ Names dp ip name inum F) → Q (some (ip, off)) k') : Obeys Q (dirlookup dp name) k := by
  refine order_next rfl trivial fun d k₁ ⟨_, _, read⟩ => ?_
  split_ifs with other
  · exact order_panic _
  have type := not_not.mp other
  rw [type] at read
  have dir : k₁.knows (.type dp T_DIR) := read.learn _ ⟨full, rfl⟩
  refine follows_bind ?_
  refine order_scanFrom _ _ fun de off k₂ chosen searched => ?_
  have before := read.after searched
  cases de with
  | none => exact missing k₂ (before.mono (fun _ => id) fun F here => .inr ⟨⟨full, here⟩, trivial⟩)
  | some de =>
    obtain ⟨names, small⟩ := chosen de rfl
    obtain ⟨used, rfl⟩ := of_decide_eq_true names
    refine order_next rfl (small dir) fun ip k₃ ⟨nonneg, taken⟩ => found ip off de.inum k₃ ?_ ?_
    · rw [taken.refs, Pi.add_apply, mine_self]
      omega
    refine (before.after taken).mono (fun _ => id) ?_
    rintro F (typed | rfl | ⟨plain, rfl⟩)
    · exact .inr ⟨.inr ⟨⟨full, typed⟩, trivial⟩, trivial⟩
    · exact .inl rfl
    · exact .inr ⟨.inl ⟨de, rfl, dir, used, plain, rfl⟩, trivial⟩

def Know.Links (k : Know) (dp : Entry) (name : Name) (inum : Nat) : Prop :=
  dots name ∨ k.knows (.next dp inum) ∨ ∃ ip type, type ≠ T_DIR ∧ k.knows (.type ip type) ∧ k.knows (.inum ip inum)

theorem Know.Links.mono {inum : Nat} (links : k.Links dp name inum) (more : ∀ F, k.knows F → k'.knows F) :
    k'.Links dp name inum := by
  rcases links with plain | younger | ⟨ip, type, other, typed, numbered⟩
  · exact .inl plain
  · exact .inr (.inl (more _ younger))
  · exact .inr (.inr ⟨ip, type, other, more _ typed, more _ numbered⟩)

def Know.Tidy (k : Know) : Prop := ∀ e ∈ k.locks, 1 ≤ k.refs e

theorem Know.Tidy.twice (tidy : k.Tidy) (e : Entry) (member : e ∈ k.locks) : 2 ≤ (k.refs + mine e) e := by
  have := tidy e member
  rw [Pi.add_apply, mine_self]
  omega

theorem order_dirlink {inum : Nat} {Q : Int → Know → Prop} (full : k.knows (.full dp)) (held : 1 ≤ k.refs dp)
    (tidy : k.Tidy) (small : inum < 65536) (links : k.Links dp name inum)
    (next : ∀ r k', k.To k' id id (fun F => 1 ≤ k.refs F.entry ∧ (F.entry ≠ dp ∨ F.Soft)) (· = .full dp) → Q r k') :
    Obeys Q (dirlink dp name inum) k := by
  refine follows_bind ?_
  refine order_dirlookup full (fun k₁ missing => ?_) fun ip off inum' k₁ got found => ?_
  · refine order_next rfl trivial fun d k₂ ⟨_, _, read⟩ => ?_
    refine follows_bind ?_
    refine order_scanFrom _ _ fun _ off k₃ _ searched => ?_
    have before := (missing.after read).after searched
    refine order_next rfl ⟨before.keep _ full trivial, ?_, ?_, ?_⟩ fun wrote k₄ written => ?_
    · exact searched.keep _ (read.keep _ (missing.learn _ rfl) trivial) trivial
    · exact Nat.mod_lt _ (by decide)
    · rw [Nat.mod_eq_of_lt small]
      exact .inr (links.mono fun F known => before.keep F known trivial)
    · cases wrote with
      | true => exact next 0 k₄ ((before.after written).mono (fun _ keeps => keeps.2) fun _ => .inl)
      | false => exact order_panic _
  · refine follows_bind ?_
    have refs : k₁.refs = k.refs + mine ip := found.refs
    have locks : k₁.locks = k.locks := found.locks
    have still (F : Fact) (held : 1 ≤ k.refs F.entry) : F.entry ≠ ip ∨ 2 ≤ k₁.refs ip := by
      by_cases here : F.entry = ip
      · rw [here] at held
        rw [refs, Pi.add_apply, mine_self]
        exact .inr (by omega)
      · exact .inl here
    refine order_iput got ?_ fun k₂ dropped => next (-1) k₂ ?_
    · rw [refs, locks]
      exact tidy.twice ip
    · have whole : k.To k₂ id id _ _ := (found.trans dropped).as (add_sub_cancel_right _ _) rfl
      refine ⟨whole.refs, whole.cwd, whole.locks, fun F known keeps => ?_, ?_⟩
      · exact whole.keep F known ⟨trivial, still F keeps.1⟩
      · rintro F rfl
        exact whole.keep _ full ⟨trivial, still _ held⟩

/-! ### Paths -/

def Lasting (refs : Entry → Int) (F : Fact) : Prop := F.Soft ∧ 1 ≤ refs F.entry

theorem Lasting.survives {F : Fact} {refs refs' : Entry → Int} (lasts : Lasting (refs - mine e) F) (more : refs e ≤ refs' e) :
    F.entry ≠ e ∨ F.Soft ∧ 2 ≤ refs' e := by
  by_cases here : F.entry = e
  · have left := lasts.2
    rw [here, Pi.sub_apply, mine_self] at left
    exact .inr ⟨lasts.1, by omega⟩
  · exact .inl here

theorem may_unlocked (unlocked : k.locks = ∅) (e : Entry) : k.May e := by
  intro dp member
  rw [unlocked] at member
  exact member.elim

theorem insert_only (unlocked : k.locks = ∅) (e : Entry) : insert e k.locks \ {e} = k.locks := by grind

theorem order_namexFrom (elems : List Name) (name : Name) (held : 1 ≤ k.refs e) (unlocked : k.locks = ∅)
    (missing : ∀ k', k.To k' (· - mine e) id (Lasting (k.refs - mine e)) (fun _ => False) → Q none k')
    (found : ∀ ip name k', 1 ≤ k'.refs ip →
      k.To k' (· - mine e + mine ip) id (Lasting (k.refs - mine e)) (fun _ => False) → Q (some (ip, name)) k') :
    Obeys Q (namexFrom parent e name elems) k := by
  induction elems generalizing k e name with
  | nil =>
    unfold namexFrom
    split_ifs with wanted
    · refine follows_bind ?_
      refine order_iput held ?_ fun k₁ dropped => missing k₁ (dropped.mono (fun F lasts => ?_) fun _ => id)
      · rw [unlocked]
        exact False.elim
      · exact (lasts.survives (Int.le_refl _)).imp id And.right
    · refine found e name k held ⟨(sub_add_cancel _ _).symm, rfl, rfl, fun _ known _ => known, fun _ => False.elim⟩
  | cons elem rest ih =>
    refine follows_bind ?_
    refine order_ilock (.inl held) (may_unlocked unlocked e) fun k₁ _ locked => ?_
    refine order_next rfl trivial fun d k₂ seen => ?_
    obtain ⟨_, _, read⟩ := seen
    have so := locked.trans read
    have full : k₂.knows (.full e) := so.learn _ (.inr ⟨rfl, trivial⟩)
    have refs : k₂.refs = k.refs := so.refs
    have leave (k₃ : Know) (dropped : k₂.To k₃ (· - mine e) (· \ {e})
        (fun F => F.entry ≠ e ∨ F.Soft ∧ 2 ≤ k₂.refs e) fun _ => False) : Q none k₃ := by
      have whole : k.To k₃ (· - mine e) id _ _ := (so.trans dropped).as rfl (insert_only unlocked e)
      refine missing k₃ (whole.mono (fun F lasts => ⟨⟨.inr lasts.1, trivial⟩, ?_⟩) fun _ => False.elim)
      exact lasts.survives (Int.le_of_eq (congrFun refs.symm e))
    split_ifs with file last
    · refine follows_bind ?_
      refine order_iunlockput full ?_ leave
      rw [refs]
      exact held
    · refine follows_bind ?_
      refine order_iunlock full fun k₃ released => found e elem k₃ ?_ ?_
      · rw [released.refs, id, refs]
        exact held
      · have whole : k.To k₃ (· - mine e + mine e) id _ _ :=
          (so.trans released).as (sub_add_cancel _ _).symm (insert_only unlocked e)
        exact whole.mono (fun F lasts => ⟨⟨.inr lasts.1, trivial⟩, .inr lasts.1⟩) fun _ => False.elim
    · refine follows_bind ?_
      refine order_dirlookup full (fun k₃ nothing => ?_) fun ip off inum k₃ got named => ?_
      · refine follows_bind ?_
        refine order_iunlockput (nothing.keep _ full trivial) ?_ fun k₄ dropped => leave k₄ ?_
        · rw [nothing.refs, id, refs]
          exact held
        · refine (nothing.after dropped).mono (fun F keeps => ?_) fun _ => False.elim
          rw [nothing.refs]
          exact keeps
      · have refs₃ : k₃.refs = k.refs + mine ip := by
          rw [named.refs, refs]
        have more : k.refs e ≤ k₃.refs e := by
          rw [refs₃, Pi.add_apply]
          have := mine_nonneg ip e
          omega
        refine follows_bind ?_
        refine order_iunlockput (named.keep _ full trivial) (by omega) fun k₄ dropped => ?_
        have whole := (so.trans named).trans dropped
        have refs₄ : k₄.refs = k.refs + mine ip - mine e := whole.refs
        have locks₄ : k₄.locks = k.locks := whole.locks.trans (insert_only unlocked e)
        have base : k₄.refs - mine ip = k.refs - mine e := by
          rw [refs₄, sub_right_comm, add_sub_cancel_right]
        have kept (F : Fact) (lasts : Lasting (k.refs - mine e) F) : F.entry ≠ e ∨ F.Soft ∧ 2 ≤ k₃.refs e :=
          lasts.survives more
        refine ih elem ?_ (locks₄.trans unlocked) (fun k₅ after => missing k₅ ?_) fun ip' name' k₅ got' after =>
          found ip' name' k₅ got' ?_
        · rw [refs₃, Pi.add_apply, mine_self] at got
          rw [refs₄, Pi.sub_apply, Pi.add_apply, mine_self]
          by_cases same : ip = e
          · rw [same, mine_self]
            omega
          · rw [mine_other same]
            omega
        · rw [base] at after
          have all : k.To k₅ (· - mine e) id _ _ :=
            (whole.trans after).as ((congrArg (· - mine ip) refs₄).symm.trans base) (insert_only unlocked e)
          exact all.mono (fun F lasts => ⟨⟨⟨⟨.inr lasts.1, trivial⟩, trivial⟩, kept F lasts⟩, lasts⟩) fun _ => False.elim
        · rw [base] at after
          have refs₅ : k.refs + mine ip - mine e - mine ip + mine ip' = k.refs - mine e + mine ip' := by
            rw [← refs₄, base]
          have all : k.To k₅ (· - mine e + mine ip') id _ _ := (whole.trans after).as refs₅ (insert_only unlocked e)
          exact all.mono (fun F lasts => ⟨⟨⟨⟨.inr lasts.1, trivial⟩, trivial⟩, kept F lasts⟩, lasts⟩) fun _ => False.elim

section

variable (unlocked : k.locks = ∅) (cwd : ∀ e, k.cwd = some e → 1 ≤ k.refs e)

include unlocked cwd

variable {path : Path}

theorem order_namex (missing : ∀ k', k.To k' id id (Lasting k.refs) (fun _ => False) → Q none k')
    (found : ∀ ip name k', 1 ≤ k'.refs ip → k.To k' (· + mine ip) id (Lasting k.refs) (fun _ => False) →
      Q (some (ip, name)) k') : Obeys Q (namex path parent) k := by
  -- The first directory is held on top of what the process has.
  have walk (e : Entry) (k₁ : Know) (learn : Fact → Prop) (held : 1 ≤ k₁.refs e)
      (taken : k.To k₁ (· + mine e) id (fun _ => True) learn) :
      Obeys Q (namexFrom parent e [] (elements path)) k₁ := by
    have refs : k₁.refs = k.refs + mine e := taken.refs
    have base : k₁.refs - mine e = k.refs := by
      rw [refs, add_sub_cancel_right]
    refine order_namexFrom _ _ held (taken.locks.trans unlocked) (fun k₂ after => missing k₂ ?_)
      fun ip name k₂ got after => found ip name k₂ got ?_
    · rw [base] at after
      have all : k.To k₂ id id _ _ := (taken.trans after).as (add_sub_cancel_right _ _) rfl
      exact all.mono (fun F lasts => ⟨trivial, lasts⟩) fun _ => False.elim
    · rw [base] at after
      have all : k.To k₂ (· + mine ip) id _ _ :=
        (taken.trans after).as (congrArg (· + mine ip) (add_sub_cancel_right _ _)) rfl
      exact all.mono (fun F lasts => ⟨trivial, lasts⟩) fun _ => False.elim
  unfold namex
  split_ifs with absolute
  · refine order_next rfl (show ROOTINO < 65536 by decide) fun e k₁ ⟨nonneg, taken⟩ => walk e k₁ _ ?_ taken
    rw [taken.refs, Pi.add_apply, mine_self]
    omega
  · refine order_next rfl trivial fun e k₁ ⟨here, read⟩ => ?_
    have held := cwd e here
    have refs : k₁.refs = k.refs := read.refs
    refine order_next rfl ?_ fun _ k₂ taken => walk e k₂ _ ?_ (read.after taken)
    · rw [Order.pre, refs]
      exact held
    · rw [taken.refs, refs, Pi.add_apply, mine_self]
      omega

theorem order_namei {Q : Option Entry → Know → Prop} (missing : ∀ k', k.To k' id id (Lasting k.refs) (fun _ => False) → Q none k')
    (found : ∀ ip k', 1 ≤ k'.refs ip → k.To k' (· + mine ip) id (Lasting k.refs) (fun _ => False) → Q (some ip) k') :
    Obeys Q (namei path) k := by
  refine follows_bind ?_
  exact order_namex unlocked cwd missing fun ip _ k₁ got taken => found ip k₁ got taken

end

end

end Xv6.Fs
