import Mathlib

namespace Xv6.Lib

/-! ## Relations without cycles -/

section
variable {α β : Type*} {r : α → α → Prop}

theorem goes_on {a b : α} (reaches : Relation.TransGen r a b) (cycle : Relation.TransGen r b b) :
    ∃ c, r a c ∧ Relation.TransGen r c b := by
  obtain ⟨c, first, rest⟩ := Relation.TransGen.head'_iff.mp reaches
  exact ⟨c, first, Relation.TransGen.trans_right rest cycle⟩

theorem acyclic_of_rank [Preorder β] (rank : α → β) (grows : ∀ a b c d, r a b → r b c → r c d → rank a < rank b) (a : α) :
    ¬ Relation.TransGen r a a := by
  intro cycle
  have each {x : α} (reaches : Relation.TransGen r x a) : rank x < rank a := by
    induction reaches using Relation.TransGen.head_induction_on with
    | single last =>
      obtain ⟨c, next, rest⟩ := goes_on cycle cycle
      obtain ⟨d, after, _⟩ := goes_on rest cycle
      exact grows _ _ c d last next after
    | head first rest ih =>
      obtain ⟨c, next, rest⟩ := goes_on rest cycle
      obtain ⟨d, after, _⟩ := goes_on rest cycle
      exact lt_trans (grows _ _ c d first next after) ih
  exact lt_irrefl _ (each cycle)

end

end Xv6.Lib
