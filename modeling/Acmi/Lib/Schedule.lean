import Mathlib.Data.List.Basic

/-!
# Events with times

A program that writes registers and a clocked design that reads them share nothing but time. Here
the events of the one carry the clock at which they take effect, in ascending order and no two at
the same clock. `upTo` is what has happened by a clock: it grows by at most one event with every
clock (`upTo_succ`), and between two events it stays (`upTo_split`).
-/

namespace Acmi.Lib

variable {α : Type}

/-- Later and later, and behind clock 0. -/
def Ascending (es : List (Nat × α)) : Prop := (0 :: es.map Prod.fst).Pairwise (· < ·)

/-- What has happened by clock `t`, in order. -/
def upTo (es : List (Nat × α)) (t : Nat) : List α := (es.filter fun e => e.1 ≤ t).map Prod.snd

/-- Everything has happened. -/
theorem upTo_all {es : List (Nat × α)} {t : Nat} (h : ∀ e ∈ es, e.1 ≤ t) :
    upTo es t = es.map Prod.snd := by
  rw [upTo, List.filter_eq_self.mpr fun e he => decide_eq_true (h e he)]

theorem upTo_none {es : List (Nat × α)} {t : Nat} (h : ∀ e ∈ es, t < e.1) : upTo es t = [] := by
  rw [upTo, List.filter_eq_nil_iff.mpr fun e he => by simpa using h e he, List.map_nil]

/-- The events that are past, and those that are to come. -/
theorem upTo_split {before after : List (Nat × α)} {t : Nat} (hbefore : ∀ e ∈ before, e.1 ≤ t)
    (hafter : ∀ e ∈ after, t < e.1) : upTo (before ++ after) t = before.map Prod.snd := by
  have hall := upTo_all hbefore
  have hnone := upTo_none hafter
  rw [upTo] at hall hnone ⊢
  rw [List.filter_append, List.map_append, hall, hnone, List.append_nil]

/-- There is a clock behind all events. -/
theorem exists_after (es : List (Nat × α)) : ∃ u, ∀ e ∈ es, e.1 < u := by
  induction es with
  | nil => exact ⟨0, fun e he => absurd he List.not_mem_nil⟩
  | cons a es ih =>
    obtain ⟨u, hu⟩ := ih
    refine ⟨max (a.1 + 1) u, fun e he => ?_⟩
    rcases List.mem_cons.mp he with he | he
    · rw [he]
      exact Nat.lt_of_lt_of_le (Nat.lt_succ_self _) (Nat.le_max_left ..)
    · exact Nat.lt_of_lt_of_le (hu e he) (Nat.le_max_right ..)

namespace Ascending

variable {es : List (Nat × α)}

theorem pos (h : Ascending es) {e : Nat × α} (he : e ∈ es) : 0 < e.1 :=
  (List.pairwise_cons.mp h).1 e.1 (List.mem_map_of_mem he)

/-- Around an event are the earlier ones and the later ones. -/
theorem around {before after : List (Nat × α)} {e : Nat × α}
    (h : Ascending (before ++ e :: after)) :
    (∀ x ∈ before, x.1 < e.1) ∧ ∀ x ∈ after, e.1 < x.1 := by
  have hpairs := (List.pairwise_cons.mp h).2
  rw [List.map_append, List.map_cons, List.pairwise_append, List.pairwise_cons] at hpairs
  obtain ⟨-, ⟨hafter, -⟩, hbefore⟩ := hpairs
  exact ⟨fun x hx => hbefore x.1 (List.mem_map_of_mem hx) e.1 List.mem_cons_self,
    fun x hx => hafter x.1 (List.mem_map_of_mem hx)⟩

/-- Nothing has happened before the first clock. -/
theorem upTo_zero (h : Ascending es) : upTo es 0 = [] := upTo_none fun _ he => h.pos he

/-- **One clock more** is one event more at most. -/
theorem upTo_succ (h : Ascending es) (t : Nat) :
    ((∀ e ∈ es, e.1 ≠ t + 1) ∧ upTo es (t + 1) = upTo es t) ∨
      ∃ before a after, es = before ++ (t + 1, a) :: after ∧
        upTo es t = before.map Prod.snd ∧ upTo es (t + 1) = upTo es t ++ [a] := by
  by_cases hnow : ∃ e ∈ es, e.1 = t + 1
  · obtain ⟨⟨u, a⟩, he, hu⟩ := hnow
    obtain ⟨before, after, rfl⟩ := List.append_of_mem he
    obtain rfl : u = t + 1 := hu
    obtain ⟨hbefore, hafter⟩ := h.around
    have hold : upTo (before ++ (t + 1, a) :: after) t = before.map Prod.snd := by
      refine upTo_split (fun x hx => Nat.le_of_lt_succ (hbefore x hx)) fun x hx => ?_
      rcases List.mem_cons.mp hx with hx | hx
      · rw [hx]
        exact Nat.lt_succ_self t
      · exact Nat.lt_of_succ_lt (hafter x hx)
    have hpast : ∀ x ∈ before ++ [(t + 1, a)], x.1 ≤ t + 1 := by
      intro x hx
      rcases List.mem_append.mp hx with hx | hx
      · exact Nat.le_of_lt (hbefore x hx)
      · exact Nat.le_of_eq (congrArg Prod.fst (List.mem_singleton.mp hx))
    have hnew : upTo (before ++ (t + 1, a) :: after) (t + 1) = before.map Prod.snd ++ [a] := by
      have hsplit := upTo_split hpast hafter
      rwa [List.append_assoc, List.map_append] at hsplit
    exact Or.inr ⟨before, a, after, rfl, hold, by rw [hold, hnew]⟩
  · have hnone : ∀ e ∈ es, e.1 ≠ t + 1 := fun e he hu => hnow ⟨e, he, hu⟩
    refine Or.inl ⟨hnone, ?_⟩
    rw [upTo, upTo]
    refine congrArg _ (List.filter_congr fun e he => ?_)
    rw [decide_eq_decide]
    have hne := hnone e he
    omega

end Ascending

end Acmi.Lib
