import Mathlib.Data.List.Basic

/-!
# Runs of a partial step function

A transition system given by a step function on labelled events, `none` meaning that the
event cannot happen in that state. Interleavings of several threads are lists of events, so
a statement over every list that runs is a statement over every interleaving.

`runFrom_invariant` lifts what one step preserves to whole runs; `StepsMeet` says that every
step of a run satisfies a condition on the state before it, and `runFrom_invariant_of_meets`
is the same rule for steps that preserve the invariant under such a condition. Both come
from `runFrom_history_of_meets`, whose invariant also speaks of what the run did so far.
`runFrom_project` is the rule for one system that refines another, and `history_stage_infix` for
one that goes through stages.
-/

namespace Acmi.Lib

variable {σ α : Type}

/-- Perform the events in order. -/
def runFrom (step : σ → α → Option σ) : σ → List α → Option σ
  | s, [] => some s
  | s, a :: as =>
    match step s a with
    | none => none
    | some s' => runFrom step s' as

@[simp] theorem runFrom_nil (step : σ → α → Option σ) (s : σ) : runFrom step s [] = some s := rfl

/-- The first step, and what is left of the run. -/
theorem runFrom_cons (step : σ → α → Option σ) (s : σ) (a : α) (as : List α) :
    runFrom step s (a :: as) = (step s a).bind fun t => runFrom step t as := by
  rw [runFrom]
  cases step s a with
  | none => rfl
  | some t => rfl

/-- A run of a non-empty list is a step and a run. -/
theorem runFrom_cons_iff {step : σ → α → Option σ} {s s' : σ} {a : α} {as : List α} :
    runFrom step s (a :: as) = some s' ↔ ∃ t, step s a = some t ∧ runFrom step t as = some s' := by
  rw [runFrom_cons, Option.bind_eq_some_iff]

theorem runFrom_append {step : σ → α → Option σ} {s t : σ} {as : List α}
    (h : runFrom step s as = some t) (bs : List α) :
    runFrom step s (as ++ bs) = runFrom step t bs := by
  induction as generalizing s with
  | nil =>
    rw [runFrom_nil, Option.some.injEq] at h
    rw [h, List.nil_append]
  | cons a as ih =>
    obtain ⟨u, ha, hrest⟩ := runFrom_cons_iff.mp h
    rw [List.cons_append, runFrom_cons, ha]
    exact ih hrest

/-- Every step of the run satisfies `C`, a condition on the state before it. -/
def StepsMeet (step : σ → α → Option σ) (C : σ → α → Prop) : σ → List α → Prop
  | _, [] => True
  | s, a :: as => C s a ∧ ∀ s', step s a = some s' → StepsMeet step C s' as

/-- One step that is taken, and the rest. -/
theorem StepsMeet.cons {step : σ → α → Option σ} {C : σ → α → Prop} {s t : σ} {a : α}
    {as : List α} (hC : C s a) (hs : step s a = some t) (h : StepsMeet step C t as) :
    StepsMeet step C s (a :: as) :=
  ⟨hC, fun s' hs' => by
    rw [hs, Option.some.injEq] at hs'
    exact hs' ▸ h⟩

/-- A run, and another from where it ends. -/
theorem StepsMeet.append {step : σ → α → Option σ} {C : σ → α → Prop} {s t : σ} {as bs : List α}
    (h : StepsMeet step C s as) (hrun : runFrom step s as = some t)
    (h' : StepsMeet step C t bs) : StepsMeet step C s (as ++ bs) := by
  induction as generalizing s with
  | nil =>
    rw [runFrom_nil, Option.some.injEq] at hrun
    rw [hrun]
    exact h'
  | cons a as ih =>
    obtain ⟨u, ha, hrest⟩ := runFrom_cons_iff.mp hrun
    exact .cons h.1 ha (ih (h.2 u ha) hrest)

/-- Two conditions at once. -/
theorem StepsMeet.and {step : σ → α → Option σ} {C D : σ → α → Prop} {s : σ} {as : List α}
    (hC : StepsMeet step C s as) (hD : StepsMeet step D s as) :
    StepsMeet step (fun t a => C t a ∧ D t a) s as := by
  induction as generalizing s with
  | nil => exact trivial
  | cons a as ih => exact ⟨⟨hC.1, hD.1⟩, fun t ht => ih (hC.2 t ht) (hD.2 t ht)⟩

/-- A condition that the events meet in every state. -/
theorem StepsMeet.of_forall {step : σ → α → Option σ} {C : σ → α → Prop} :
    ∀ (as : List α) (s : σ), (∀ a ∈ as, ∀ t, C t a) → StepsMeet step C s as := by
  intro as
  induction as with
  | nil =>
    intro s _
    exact trivial
  | cons a as ih =>
    intro s h
    exact ⟨h a List.mem_cons_self s, fun t _ => ih t fun b hb => h b (List.mem_cons_of_mem a hb)⟩

/-- A condition that holds wherever an invariant does. -/
theorem StepsMeet.of_invariant {step : σ → α → Option σ} {C : σ → α → Prop} {I : σ → Prop}
    (hstep : ∀ s a s', I s → step s a = some s' → I s') (hC : ∀ s a, I s → C s a) :
    ∀ (as : List α) (s : σ), I s → StepsMeet step C s as := by
  intro as
  induction as with
  | nil =>
    intro s _
    exact trivial
  | cons a as ih =>
    intro s hI
    exact ⟨hC s a hI, fun t ht => ih t (hstep s a t hI ht)⟩

/-- What `f` reads off the steps of a run, in order. -/
def history {β : Type} (step : σ → α → Option σ) (f : σ → α → List β) : σ → List α → List β
  | _, [] => []
  | s, a :: as =>
    f s a ++
      match step s a with
      | none => []
      | some s' => history step f s' as

@[simp] theorem history_nil {β : Type} (step : σ → α → Option σ) (f : σ → α → List β) (s : σ) :
    history step f s [] = [] := rfl

/-- What is read off the first step, and off those behind it if it is taken. -/
theorem history_cons_elim {β : Type} (step : σ → α → Option σ) (f : σ → α → List β) (s : σ)
    (a : α) (as : List α) :
    history step f s (a :: as) = f s a ++ (step s a).elim [] fun t => history step f t as := by
  rw [history]
  cases step s a with
  | none => rfl
  | some t => rfl

theorem history_cons {β : Type} {step : σ → α → Option σ} {f : σ → α → List β} {s s' : σ} {a : α}
    (h : step s a = some s') (as : List α) :
    history step f s (a :: as) = f s a ++ history step f s' as := by
  rw [history_cons_elim, h, Option.elim_some]

/-- What is in the history was read off an event of the run. -/
theorem exists_of_mem_history {β : Type} {step : σ → α → Option σ} {f : σ → α → List β} {b : β}
    {as : List α} {s : σ} (h : b ∈ history step f s as) : ∃ a ∈ as, ∃ t, b ∈ f t a := by
  induction as generalizing s with
  | nil => cases h
  | cons a as ih =>
    rw [history_cons_elim, List.mem_append] at h
    rcases h with h | h
    · exact ⟨a, List.mem_cons_self, s, h⟩
    · cases hs : step s a with
      | none =>
        rw [hs, Option.elim_none] at h
        cases h
      | some t =>
        rw [hs, Option.elim_some] at h
        obtain ⟨c, hc, u, hu⟩ := ih h
        exact ⟨c, List.mem_cons_of_mem a hc, u, hu⟩

/-- What the events say by themselves. -/
theorem history_events {β : Type} {step : σ → α → Option σ} {s s' : σ} (g : α → List β)
    {as : List α} (hrun : runFrom step s as = some s') :
    history step (fun _ a => g a) s as = as.flatMap g := by
  induction as generalizing s with
  | nil => rfl
  | cons a as ih =>
    obtain ⟨t, ha, hrest⟩ := runFrom_cons_iff.mp hrun
    rw [history_cons ha, ih hrest, List.flatMap_cons]

/-- Each thing that is read off, replaced by some others. -/
theorem history_flatMap {β γ : Type} {step : σ → α → Option σ} {f : σ → α → List β} (g : β → List γ)
    (as : List α) (s : σ) :
    history step (fun t a => (f t a).flatMap g) s as = (history step f s as).flatMap g := by
  induction as generalizing s with
  | nil => rfl
  | cons a as ih =>
    rw [history_cons_elim, history_cons_elim, List.flatMap_append]
    cases step s a with
    | none => rfl
    | some t => exact congrArg _ (ih t)

/-- **The rule for a refinement**: if each step of one system is, seen through `v`, a step of
another, then so are its runs, and what can be read off them is the same. -/
theorem runFrom_project {β τ : Type} {step : σ → α → Option σ} {step' : τ → α → Option τ}
    {v : τ → σ} (hstep : ∀ t a t', step' t a = some t' → step (v t) a = some (v t'))
    (f : σ → α → List β)
    {as : List α} {t t' : τ} (hrun : runFrom step' t as = some t') :
    runFrom step (v t) as = some (v t') ∧
      history step' (fun u a => f (v u) a) t as = history step f (v t) as := by
  induction as generalizing t with
  | nil =>
    rw [runFrom_nil, Option.some.injEq] at hrun
    exact ⟨congrArg (fun u => some (v u)) hrun, rfl⟩
  | cons a as ih =>
    obtain ⟨u, ha, hrest⟩ := runFrom_cons_iff.mp hrun
    obtain ⟨hrun', hhist⟩ := ih hrest
    refine ⟨runFrom_cons_iff.mpr ⟨v u, hstep t a u ha, hrun'⟩, ?_⟩
    rw [history_cons ha, history_cons (hstep t a u ha), hhist]

/-! ## Stages

A system that goes through stages one after the other, and what happens in one of them. -/

section

variable {β : Type} {step : σ → α → Option σ} {f : σ → α → List β} {stage : σ → Nat} {I : σ → Prop}
  {n : Nat}

/-- What `f` reads off in stage `n`. -/
def atStage (stage : σ → Nat) (n : Nat) (f : σ → α → List β) (s : σ) (a : α) : List β :=
  if stage s = n then f s a else []

variable (hmono : ∀ s a s', I s → step s a = some s' → I s' ∧ stage s ≤ stage s')

include hmono

/-- A stage does not come back. -/
theorem history_past {as : List α} {s s' : σ} (hI : I s) (hpast : n < stage s)
    (hrun : runFrom step s as = some s') : history step (atStage stage n f) s as = [] := by
  induction as generalizing s with
  | nil => rfl
  | cons a as ih =>
    obtain ⟨t, ha, hrest⟩ := runFrom_cons_iff.mp hrun
    obtain ⟨ht, hle⟩ := hmono s a t hI ha
    rw [history_cons ha, atStage, if_neg (Nat.ne_of_gt hpast), List.nil_append]
    exact ih ht (Nat.lt_of_lt_of_le hpast hle) hrest

/-- What happens in a stage that has been reached comes first. -/
theorem history_early {as : List α} {s s' : σ} (hI : I s) (hle : n ≤ stage s)
    (hrun : runFrom step s as = some s') :
    history step (atStage stage n f) s as <+: history step f s as := by
  induction as generalizing s with
  | nil => exact List.prefix_refl _
  | cons a as ih =>
    by_cases hnow : stage s = n
    · obtain ⟨t, ha, hrest⟩ := runFrom_cons_iff.mp hrun
      obtain ⟨ht, hstage⟩ := hmono s a t hI ha
      rw [history_cons ha, history_cons ha, atStage, if_pos hnow, List.prefix_append_right_inj]
      exact ih ht (Nat.le_trans hle hstage) hrest
    · rw [history_past hmono hI (Nat.lt_of_le_of_ne hle (Ne.symm hnow)) hrun]
      exact List.nil_prefix

/-- **The rule for a stage**: what happens in it happens in one stretch. -/
theorem history_stage_infix {as : List α} {s s' : σ} (hI : I s)
    (hrun : runFrom step s as = some s') :
    history step (atStage stage n f) s as <:+: history step f s as := by
  induction as generalizing s with
  | nil => exact List.infix_refl _
  | cons a as ih =>
    by_cases hle : n ≤ stage s
    · exact (history_early hmono hI hle hrun).isInfix
    · obtain ⟨t, ha, hrest⟩ := runFrom_cons_iff.mp hrun
      rw [history_cons ha, history_cons ha, atStage, if_neg (by omega), List.nil_append]
      exact (ih (hmono s a t hI ha).1 hrest).trans (List.suffix_append _ _).isInfix

end

/-- **The rule for a monitor**, a machine `m` that watches what the steps do: if it goes along with
every step, it goes along with every run. -/
theorem runFrom_monitor {β τ : Type} {step : σ → α → Option σ} {f : σ → α → List β}
    {m : τ → β → Option τ} {v : σ → τ}
    (hstep : ∀ s a s', step s a = some s' → runFrom m (v s) (f s a) = some (v s'))
    {as : List α} {s s' : σ} (hrun : runFrom step s as = some s') :
    runFrom m (v s) (history step f s as) = some (v s') := by
  induction as generalizing s with
  | nil =>
    rw [runFrom_nil, Option.some.injEq] at hrun
    rw [history_nil, runFrom_nil, hrun]
  | cons a as ih =>
    obtain ⟨t, ha, hrest⟩ := runFrom_cons_iff.mp hrun
    rw [history_cons ha, runFrom_append (hstep s a t ha)]
    exact ih hrest

/-- What the steps meet, the monitor's own steps meet. -/
theorem stepsMeet_monitor {β τ : Type} {step : σ → α → Option σ} {f : σ → α → List β}
    {m : τ → β → Option τ} {v : σ → τ} {C : σ → α → Prop} {D : τ → β → Prop}
    (hstep : ∀ s a s', step s a = some s' → runFrom m (v s) (f s a) = some (v s'))
    (hC : ∀ s a, C s a → StepsMeet m D (v s) (f s a)) {as : List α} {s s' : σ}
    (hmeets : StepsMeet step C s as) (hrun : runFrom step s as = some s') :
    StepsMeet m D (v s) (history step f s as) := by
  induction as generalizing s with
  | nil => exact trivial
  | cons a as ih =>
    obtain ⟨t, ha, hrest⟩ := runFrom_cons_iff.mp hrun
    rw [history_cons ha]
    exact (hC s a hmeets.1).append (hstep s a t ha) (ih (hmeets.2 t ha) hrest)

/-- **The invariant rule with a history variable.** -/
theorem runFrom_history_of_meets {β : Type} {step : σ → α → Option σ} {C : σ → α → Prop}
    {f : σ → α → List β} {I : σ → List β → Prop}
    (hstep : ∀ s a s' h, I s h → C s a → step s a = some s' → I s' (h ++ f s a)) :
    ∀ (as : List α) (s s' : σ) (h : List β), I s h → StepsMeet step C s as →
      runFrom step s as = some s' → I s' (h ++ history step f s as) := by
  intro as
  induction as with
  | nil =>
    intro s s' h hI _ hrun
    rw [runFrom_nil, Option.some.injEq] at hrun
    rw [history_nil, List.append_nil]
    exact hrun ▸ hI
  | cons a as ih =>
    intro s s' h hI hmeets hrun
    obtain ⟨t, ha, hrest⟩ := runFrom_cons_iff.mp hrun
    rw [history_cons ha, ← List.append_assoc]
    exact ih t s' (h ++ f s a) (hstep s a t h hI hmeets.1 ha) (hmeets.2 t ha) hrest

/-- **The invariant rule, under a condition on the steps.** -/
theorem runFrom_invariant_of_meets {step : σ → α → Option σ} {C : σ → α → Prop} {I : σ → Prop}
    (hstep : ∀ s a s', I s → C s a → step s a = some s' → I s') {as : List α} {s s' : σ} (hI : I s)
    (hmeets : StepsMeet step C s as) (hrun : runFrom step s as = some s') : I s' :=
  runFrom_history_of_meets (f := fun _ _ => ([] : List Unit)) (I := fun t _ => I t)
    (fun s a t _ h hC hs => hstep s a t h hC hs) as s s' [] hI hmeets hrun

/-- **The invariant rule.** -/
theorem runFrom_invariant {step : σ → α → Option σ} {I : σ → Prop}
    (hstep : ∀ s a s', I s → step s a = some s' → I s') {as : List α} {s s' : σ} (hI : I s)
    (hrun : runFrom step s as = some s') : I s' :=
  runFrom_invariant_of_meets (fun s a t h _ hs => hstep s a t h hs) hI
    (StepsMeet.of_forall (C := fun _ _ => True) as s fun _ _ _ => trivial) hrun

end Acmi.Lib
