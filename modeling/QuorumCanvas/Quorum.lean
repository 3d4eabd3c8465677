import Mathlib.Data.Finset.Card

/-!
# Majorities

The one fact about majorities that every quorum argument rests on: two of them
share a member.
-/

namespace Quorum

/-- `Q` is a majority of `members`. -/
structure Majority {ι : Type*} (members Q : Finset ι) : Prop where
  subset : Q ⊆ members
  card : members.card < 2 * Q.card

namespace Majority

variable {ι : Type*} {members Q R : Finset ι}

/-- Two majorities of the same members share a member. -/
theorem exists_common [DecidableEq ι] (hQ : Majority members Q) (hR : Majority members R) :
    ∃ v, v ∈ Q ∧ v ∈ R := by
  by_contra hno
  have hdisj : Disjoint Q R := Finset.disjoint_left.mpr fun v hv hv' => hno ⟨v, hv, hv'⟩
  have hle : (Q ∪ R).card ≤ members.card :=
    Finset.card_le_card (Finset.union_subset hQ.subset hR.subset)
  rw [Finset.card_union_of_disjoint hdisj] at hle
  have := hQ.card
  have := hR.card
  omega

/-- A majority is not empty. -/
theorem nonempty (hQ : Majority members Q) : ∃ v, v ∈ Q := by
  have := hQ.card
  exact Finset.card_pos.mp (by omega)

/-- More than half of the members, counted by rounding down, is a majority. -/
theorem of_card (hsub : Q ⊆ members) (hcard : members.card / 2 + 1 ≤ Q.card) :
    Majority members Q :=
  ⟨hsub, by omega⟩

end Majority

end Quorum
