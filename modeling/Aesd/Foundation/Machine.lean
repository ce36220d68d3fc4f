import Mathlib.Data.List.Basic

/-!
# Runs of a machine

A machine takes one event at a time, and a step either faults or gives a new state and a return
value. A run records every step it took, with the state the step was taken in, so a statement can
speak about the whole history: which events were accepted, what was returned, which states were
passed through.

Five rules carry the inductions over runs:

* `Run.invariant`, for a property of the history and the state it leads to;
* `Run.pairwise`, for what a step has to do with all steps after it;
* `Run.refines`, for a relation to an abstract state computed by folding over the history, and
  `Run.along_iff`, for two conditions on what each step does in terms of that state;
* `Run.all_states_iff`, for a property that each step keeps exactly when it meets a condition.

A machine is deterministic, so a list of events can also be evaluated: `exec` does, and
`exists_run_of_events` turns the evaluation of a concrete list into a fact about a run.
-/

namespace Aesd

/-- A deterministic machine with states `σ`, events `ε`, return values `ρ` and faults `φ`. -/
structure Machine (σ ε ρ φ : Type*) where
  /-- One step. -/
  step : σ → ε → Except φ (σ × ρ)

/-- One step of a run: the state it was taken in, its event and what it returned. -/
structure Move (σ ε ρ : Type*) where
  /-- The state before the step. -/
  pre : σ
  /-- The event. -/
  event : ε
  /-- The value returned. -/
  ret : ρ

namespace Machine

variable {σ ε ρ φ : Type*} (M : Machine σ ε ρ φ)

/-- The runs from `s₀`, with their history and the state they lead to. -/
inductive Run (s₀ : σ) : List (Move σ ε ρ) → σ → Prop
  | nil : Run s₀ [] s₀
  | snoc {tr : List (Move σ ε ρ)} {s s' : σ} {e : ε} {r : ρ} :
      Run s₀ tr s → M.step s e = .ok (s', r) → Run s₀ (tr ++ [⟨s, e, r⟩]) s'

/-- The states a run passes through, the last one included. -/
def states (tr : List (Move σ ε ρ)) (s : σ) : List σ := tr.map Move.pre ++ [s]

def exec : σ → List ε → Except φ (List (Move σ ε ρ) × σ)
  | s, [] => .ok ([], s)
  | s, e :: es =>
    match M.step s e with
    | .error f => .error f
    | .ok (s', r) =>
      match exec s' es with
      | .error f => .error f
      | .ok (tr, t) => .ok (⟨s, e, r⟩ :: tr, t)

variable {M}

/-! ## Conditions along a history -/

section Along

variable {α : Type*} (next : α → Move σ ε ρ → α)

/-- Every step of a history meets a condition that may speak about the abstract state before it. -/
def Along (C : α → Move σ ε ρ → Prop) : α → List (Move σ ε ρ) → Prop
  | _, [] => True
  | a, m :: tr => C a m ∧ Along C (next a m) tr

theorem along_concat {C : α → Move σ ε ρ → Prop} {a : α} {tr : List (Move σ ε ρ)}
    {m : Move σ ε ρ} :
    Along next C a (tr ++ [m]) ↔ Along next C a tr ∧ C (tr.foldl next a) m := by
  induction tr generalizing a with
  | nil => simp [Along]
  | cons m' tr ih => rw [List.cons_append, Along, ih, Along, List.foldl_cons, and_assoc]

instance decidableAlong {C : α → Move σ ε ρ → Prop} [∀ a m, Decidable (C a m)] :
    (a : α) → (tr : List (Move σ ε ρ)) → Decidable (Along next C a tr)
  | _, [] => isTrue trivial
  | a, m :: tr =>
    @instDecidableAnd _ _ _ (decidableAlong (next a m) tr)

theorem Along.imp {C D : α → Move σ ε ρ → Prop} (hCD : ∀ a m, C a m → D a m) {a : α}
    {tr : List (Move σ ε ρ)} (h : Along next C a tr) : Along next D a tr := by
  induction tr generalizing a with
  | nil => exact trivial
  | cons m tr ih => exact ⟨hCD a m h.1, ih h.2⟩

theorem along_and {C D : α → Move σ ε ρ → Prop} {a : α} {tr : List (Move σ ε ρ)} :
    Along next (fun a m ↦ C a m ∧ D a m) a tr ↔ Along next C a tr ∧ Along next D a tr := by
  induction tr generalizing a with
  | nil => simp [Along]
  | cons m tr ih =>
    rw [Along, ih, Along, Along]
    exact and_and_and_comm

theorem along_of_forall {C : Move σ ε ρ → Prop} {a : α} {tr : List (Move σ ε ρ)}
    (h : ∀ m ∈ tr, C m) : Along next (fun _ m ↦ C m) a tr := by
  induction tr generalizing a with
  | nil => exact trivial
  | cons m tr ih =>
    rw [List.forall_mem_cons] at h
    exact ⟨h.1, ih h.2⟩

end Along

namespace Run

theorem trans {s t u : σ} {tr tr' : List (Move σ ε ρ)} (h : M.Run s tr t) (h' : M.Run t tr' u) :
    M.Run s (tr ++ tr') u := by
  induction h' with
  | nil => rwa [List.append_nil]
  | snoc _ hstep ih => rw [← List.append_assoc]; exact ih.snoc hstep

theorem cons {s t u : σ} {e : ε} {r : ρ} {tr : List (Move σ ε ρ)}
    (hstep : M.step s e = .ok (t, r)) (h : M.Run t tr u) : M.Run s (⟨s, e, r⟩ :: tr) u :=
  (nil.snoc hstep).trans h

theorem of_mem {s t : σ} {tr : List (Move σ ε ρ)} (h : M.Run s tr t) {m : Move σ ε ρ}
    (hm : m ∈ tr) : ∃ tr' s', M.Run s tr' m.pre ∧ M.step m.pre m.event = .ok (s', m.ret) := by
  induction h with
  | nil => cases hm
  | snoc hrun hs ih =>
    rcases List.mem_append.mp hm with hm | hm
    · exact ih hm
    · rw [List.mem_singleton.mp hm]
      exact ⟨_, _, hrun, hs⟩

/-- Every state that a run passes through is reached by the steps before it. -/
theorem of_mem_states {s t u : σ} {tr : List (Move σ ε ρ)} (h : M.Run s tr t)
    (hu : u ∈ states tr t) : ∃ tr', M.Run s tr' u ∧ ∀ m ∈ tr', m ∈ tr := by
  induction h with
  | nil =>
    obtain rfl : u = s := by simpa [states] using hu
    exact ⟨[], .nil, fun _ hm ↦ hm⟩
  | @snoc tr t t' e r hrun hs ih =>
    have hcases : u ∈ states tr t ∨ u = t' := by
      simpa [states, or_assoc] using hu
    rcases hcases with hu | rfl
    · obtain ⟨tr', hrun', hsub⟩ := ih hu
      exact ⟨tr', hrun', fun m hm ↦ List.mem_append_left _ (hsub m hm)⟩
    · exact ⟨_, hrun.snoc hs, fun _ hm ↦ hm⟩

/-- What holds at the start and is kept by each step holds of every run. -/
theorem invariant {s₀ : σ} {I : List (Move σ ε ρ) → σ → Prop} (h₀ : I [] s₀)
    (hstep : ∀ {tr s e s' r}, M.Run s₀ tr s → I tr s → M.step s e = .ok (s', r) →
      I (tr ++ [⟨s, e, r⟩]) s') :
    ∀ {tr s}, M.Run s₀ tr s → I tr s := by
  intro tr s h
  induction h with
  | nil => exact h₀
  | snoc hrun hs ih => exact hstep hrun ih hs

/-- What each step establishes, every later step keeps, and then finds, relates every step of a run
to all later ones. -/
theorem pairwise {s₀ : σ} {P : Move σ ε ρ → σ → Prop} {R : Move σ ε ρ → Move σ ε ρ → Prop}
    (hafter : ∀ {s e s' r}, M.step s e = .ok (s', r) → P ⟨s, e, r⟩ s')
    (hkeep : ∀ {m s e s' r}, P m s → M.step s e = .ok (s', r) → P m s')
    (hlater : ∀ {m s e s' r}, P m s → M.step s e = .ok (s', r) → R m ⟨s, e, r⟩) :
    ∀ {tr s}, M.Run s₀ tr s → tr.Pairwise R := by
  intro tr s h
  have hall : (∀ m ∈ tr, P m s) ∧ tr.Pairwise R := by
    induction h with
    | nil => exact ⟨fun _ hm ↦ absurd hm List.not_mem_nil, .nil⟩
    | snoc _ hs ih =>
      obtain ⟨hP, hR⟩ := ih
      constructor
      · rw [List.forall_mem_append, List.forall_mem_singleton]
        exact ⟨fun m hm ↦ hkeep (hP m hm) hs, hafter hs⟩
      · rw [List.pairwise_append]
        refine ⟨hR, List.pairwise_singleton _ _, fun m hm m' hm' ↦ ?_⟩
        rw [List.mem_singleton.mp hm']
        exact hlater (hP m hm) hs
  exact hall.2

/-- **Refinement over runs.** A relation to an abstract state that each step keeps, when it meets a
condition, relates the last state of a run whose steps all meet it to the fold of the abstract
step over its history. -/
theorem refines {α : Type*} {s₀ : σ} {a₀ : α} {R : σ → α → Prop} {C : α → Move σ ε ρ → Prop}
    (next : α → Move σ ε ρ → α) (h₀ : R s₀ a₀)
    (hstep : ∀ {s a e s' r}, R s a → M.step s e = .ok (s', r) → C a ⟨s, e, r⟩ →
      R s' (next a ⟨s, e, r⟩)) :
    ∀ {tr s}, M.Run s₀ tr s → Along next C a₀ tr → R s (tr.foldl next a₀) := by
  intro tr s h
  induction h with
  | nil => intro _; exact h₀
  | snoc _ hs ih =>
    intro hC
    rw [along_concat] at hC
    rw [List.foldl_append, List.foldl_cons, List.foldl_nil]
    exact hstep (ih hC.1) hs hC.2

/-- **Two conditions along a run.** If the conditions agree on a step whenever the relation to the
abstract state holds, and the steps that meet the second one keep the relation, then one holds of
all steps of a run exactly when the other does. -/
theorem along_iff {α : Type*} {s₀ : σ} {a₀ : α} {R : σ → α → Prop} {C P Q : α → Move σ ε ρ → Prop}
    (next : α → Move σ ε ρ → α) (h₀ : R s₀ a₀)
    (hstep : ∀ {s a e s' r}, R s a → M.step s e = .ok (s', r) → C a ⟨s, e, r⟩ → Q a ⟨s, e, r⟩ →
      R s' (next a ⟨s, e, r⟩))
    (hiff : ∀ {s a e s' r}, R s a → M.step s e = .ok (s', r) → C a ⟨s, e, r⟩ →
      (P a ⟨s, e, r⟩ ↔ Q a ⟨s, e, r⟩)) :
    ∀ {tr s}, M.Run s₀ tr s → Along next C a₀ tr →
      (Along next P a₀ tr ↔ Along next Q a₀ tr) := by
  intro tr s h
  induction h with
  | nil => intro _; exact Iff.rfl
  | snoc hrun hs ih =>
    intro hC
    rw [along_concat] at hC
    rw [along_concat, along_concat, ih hC.1]
    -- the last step only matters when all steps before it met `Q`, and then the relation holds
    refine and_congr_right fun hQ ↦ hiff ?_ hs hC.2
    exact hrun.refines next h₀ (fun hR hs hCQ ↦ hstep hR hs hCQ.1 hCQ.2)
      ((along_and next).mpr ⟨hC.1, hQ⟩)

/-- **When a property holds throughout a run.** If a step out of a state with the property keeps
it exactly when the step meets a condition, then the property holds in every state of a run
exactly when every step of the run meets the condition. -/
theorem all_states_iff {s₀ : σ} {P : σ → Prop} {C : Move σ ε ρ → Prop} (h₀ : P s₀)
    (hstep : ∀ {tr s e s' r}, M.Run s₀ tr s → M.step s e = .ok (s', r) → P s →
      (P s' ↔ C ⟨s, e, r⟩)) :
    ∀ {tr s}, M.Run s₀ tr s → ((∀ t ∈ states tr s, P t) ↔ ∀ m ∈ tr, C m) := by
  intro tr s h
  induction h with
  | nil => simp [states, h₀]
  | @snoc tr s s' e r hrun hs ih =>
    have hall : (∀ t ∈ states (tr ++ [⟨s, e, r⟩]) s', P t)
        ↔ (∀ t ∈ states tr s, P t) ∧ P s' := by
      simp [states, or_imp, forall_and, and_assoc]
    rw [hall, List.forall_mem_append, List.forall_mem_singleton, ih]
    refine and_congr_right fun hC ↦ hstep hrun hs ?_
    exact ih.mpr hC s (by simp [states])

end Run

theorem run_of_exec : ∀ {es : List ε} {s t : σ} {tr : List (Move σ ε ρ)},
    M.exec s es = .ok (tr, t) → M.Run s tr t := by
  intro es
  induction es with
  | nil =>
    intro s t tr h
    obtain ⟨rfl, rfl⟩ : [] = tr ∧ s = t := by simpa [exec] using h
    exact .nil
  | cons e es ih =>
    intro s t tr h
    rw [exec] at h
    split at h
    · cases h
    · rename_i s' r hs
      split at h
      · cases h
      · rename_i tr' t' ht
        obtain ⟨rfl, rfl⟩ : ⟨s, e, r⟩ :: tr' = tr ∧ t' = t := by simpa using h
        exact .cons hs (ih ht)

theorem events_of_exec : ∀ {es : List ε} {s t : σ} {tr : List (Move σ ε ρ)},
    M.exec s es = .ok (tr, t) → tr.map Move.event = es := by
  intro es
  induction es with
  | nil =>
    intro s t tr h
    cases h
    rfl
  | cons e es ih =>
    intro s t tr h
    rw [exec] at h
    split at h
    · cases h
    · split at h
      · cases h
      · rename_i htail
        cases h
        rw [List.map_cons, ih htail]

/-- Evaluating a list of events gives a run that takes them, and a test of its history and its last
state that comes out true holds of it. -/
theorem exists_run_of_events (M : Machine σ ε ρ φ) (s : σ) (es : List ε)
    (p : List (Move σ ε ρ) → σ → Bool) (h : (match M.exec s es with
      | .ok (tr, t) => p tr t
      | .error _ => false) = true) :
    ∃ tr t, M.Run s tr t ∧ tr.map Move.event = es ∧ p tr t = true := by
  split at h
  · rename_i tr t hexec
    exact ⟨tr, t, run_of_exec hexec, events_of_exec hexec, h⟩
  · cases h

theorem exists_run_of_exec (M : Machine σ ε ρ φ) (s : σ) (es : List ε)
    (p : List (Move σ ε ρ) → σ → Bool) (h : (match M.exec s es with
      | .ok (tr, t) => p tr t
      | .error _ => false) = true) : ∃ tr t, M.Run s tr t ∧ p tr t = true := by
  obtain ⟨tr, t, hrun, -, hp⟩ := exists_run_of_events M s es p h
  exact ⟨tr, t, hrun, hp⟩

/-- A machine whose steps on admitted events keep an invariant and do not fault runs to the end
of every list of admitted events. -/
theorem exec_total {I : σ → Prop} {A : ε → Prop}
    (hstep : ∀ s e, I s → A e → ∃ s' r, M.step s e = .ok (s', r) ∧ I s') :
    ∀ {es : List ε} {s : σ}, I s → (∀ e ∈ es, A e) → ∃ tr t, M.exec s es = .ok (tr, t) := by
  intro es
  induction es with
  | nil => intro s _ _; exact ⟨[], s, rfl⟩
  | cons e es ih =>
    intro s hI hA
    obtain ⟨s', r, hs, hI'⟩ := hstep s e hI (hA e List.mem_cons_self)
    obtain ⟨tr, t, ht⟩ := ih hI' fun e' he' ↦ hA e' (List.mem_cons_of_mem e he')
    exact ⟨⟨s, e, r⟩ :: tr, t, by rw [exec, hs]; simp [ht]⟩

end Machine

end Aesd
