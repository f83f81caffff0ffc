import Mathlib.Data.Set.Card
import Mathlib.Logic.Function.Basic

/-!
# Slots and their owners

`owns k` is the slot that `k` has, if it has one. A table of slots is handed out right when it stays
`Exclusive`: taking a slot that nobody has keeps it so, and so does giving one back. Of `n` slots
all are taken exactly when there are `n` owners (`Exclusive.ncard_eq_iff`).
-/

namespace Acmi.Lib

variable {κ ι : Type}

/-- No two owners have the same slot. -/
def Exclusive (owns : κ → Option ι) : Prop :=
  ∀ j k i, owns j = some i → owns k = some i → j = k

/-- Those that have a slot. -/
def owners (owns : κ → Option ι) : Set κ := {k | owns k ≠ none}

theorem exclusive_none : Exclusive (fun _ : κ => (none : Option ι)) := by
  intro a b x ha
  cases ha

theorem Exclusive.take [DecidableEq κ] {owns : κ → Option ι} (h : Exclusive owns) {i : ι}
    (hfree : ∀ j, owns j ≠ some i) (k : κ) : Exclusive (Function.update owns k (some i)) := by
  intro a b x ha hb
  by_cases hak : a = k
  · rw [hak, Function.update_self, Option.some.injEq] at ha
    by_cases hbk : b = k
    · rw [hak, hbk]
    · rw [Function.update_of_ne hbk, ← ha] at hb
      exact absurd hb (hfree b)
  · rw [Function.update_of_ne hak] at ha
    by_cases hbk : b = k
    · rw [hbk, Function.update_self, Option.some.injEq] at hb
      rw [← hb] at ha
      exact absurd ha (hfree a)
    · rw [Function.update_of_ne hbk] at hb
      exact h a b x ha hb

theorem Exclusive.release [DecidableEq κ] {owns : κ → Option ι} (h : Exclusive owns) (k : κ) :
    Exclusive (Function.update owns k none) := by
  have hold : ∀ a x, Function.update owns k none a = some x → owns a = some x := by
    intro a x ha
    by_cases hak : a = k
    · rw [hak, Function.update_self] at ha
      cases ha
    · rwa [Function.update_of_ne hak] at ha
  exact fun a b x ha hb => h a b x (hold a x ha) (hold b x hb)

/-- **All slots are taken when there are as many owners.** -/
theorem Exclusive.ncard_eq_iff {owns : κ → Option Nat} (h : Exclusive owns) {n : Nat}
    (hlt : ∀ k i, owns k = some i → i < n) :
    (owners owns).ncard = n ↔ ∀ i < n, ∃ k, owns k = some i := by
  have hslot : ∀ {k}, k ∈ owners owns → owns k = some ((owns k).getD 0) := by
    intro k hk
    obtain ⟨i, hi⟩ := Option.ne_none_iff_exists'.mp hk
    rw [hi, Option.getD_some]
  have hinj : Set.InjOn (fun k => (owns k).getD 0) (owners owns) := by
    intro a ha b hb hab
    have hb' := hslot hb
    rw [← show (owns a).getD 0 = (owns b).getD 0 from hab] at hb'
    exact h a b _ (hslot ha) hb'
  have hsub : (fun k => (owns k).getD 0) '' owners owns ⊆ (Finset.range n : Set Nat) := by
    rintro i ⟨k, hk, rfl⟩
    exact Finset.mem_coe.mpr (Finset.mem_range.mpr (hlt k _ (hslot hk)))
  have hrange : (Finset.range n : Set Nat).ncard = n := by
    rw [Set.ncard_coe_finset, Finset.card_range]
  rw [← hinj.ncard_image]
  constructor
  · intro hcard i hi
    have heq := Set.eq_of_subset_of_ncard_le hsub (by rw [hrange, hcard]) (Finset.finite_toSet _)
    have hmem : i ∈ (fun k => (owns k).getD 0) '' owners owns := by
      rw [heq]
      exact Finset.mem_coe.mpr (Finset.mem_range.mpr hi)
    obtain ⟨k, hk, hki⟩ := hmem
    exact ⟨k, hki ▸ hslot hk⟩
  · intro hall
    have heq : (fun k => (owns k).getD 0) '' owners owns = (Finset.range n : Set Nat) := by
      apply Set.Subset.antisymm hsub
      intro i hi
      obtain ⟨k, hk⟩ := hall i (Finset.mem_range.mp (Finset.mem_coe.mp hi))
      refine ⟨k, ?_, ?_⟩
      · show owns k ≠ none
        rw [hk]
        exact Option.some_ne_none i
      · show (owns k).getD 0 = i
        rw [hk, Option.getD_some]
    rw [heq, hrange]

end Acmi.Lib
