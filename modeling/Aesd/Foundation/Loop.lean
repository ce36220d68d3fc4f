import Mathlib.Data.List.Basic
import Mathlib.Order.Basic

/-!
# Loops that may leave early

A C loop is one pass over a state, repeated: a pass goes on with a new state, leaves with a
result, or does something undefined. `Loop.run` repeats the pass a bounded number of times and
reports the bound itself as a fault, so that *the loop ends* is a statement about it: some bound
is enough.

## Total correctness

`Loop.run_total` is the rule for total correctness. It asks for an invariant, a measure that every
continuing pass decreases, and a postcondition that is carried back over each pass, and gives
a result for every bound above the measure.

## Without a bound

`Leaves` is the same loop as a relation: it leaves with a result after some number of passes. For a
loop that need not end, such as one that waits for other threads, this is the notion that is
left; where a bound is known to be enough, the two agree (`leaves_iff_of_run`). A loop whose passes
are those of another one, state by state, leaves with the images of its results (`leaves_map_iff`).

A `for` loop over a list with a `return` in its body is the special case `foldExit`.
-/

namespace Aesd

variable {σ β φ α : Type*}

namespace Loop

/-- Repeat `pass` at most `fuel` times; `timeout` is the fault of running out. -/
def run (timeout : φ) (pass : σ → Except φ (σ ⊕ β)) : ℕ → σ → Except φ β
  | 0, _ => .error timeout
  | fuel + 1, s =>
    match pass s with
    | .error e => .error e
    | .ok (.inl s') => run timeout pass fuel s'
    | .ok (.inr r) => .ok r

variable {timeout : φ} {pass : σ → Except φ (σ ⊕ β)}

theorem run_next {s s' : σ} (h : pass s = .ok (.inl s')) (fuel : ℕ) :
    run timeout pass (fuel + 1) s = run timeout pass fuel s' := by
  rw [run, h]

theorem run_leave {s : σ} {r : β} (h : pass s = .ok (.inr r)) (fuel : ℕ) :
    run timeout pass (fuel + 1) s = .ok r := by
  rw [run, h]

/-- **Total correctness.** The invariant and the postcondition speak about a ghost value `g`, which
a pass may change along with the state. A continuing pass keeps the invariant, lowers the
measure, and carries the postcondition back over itself; a leaving pass meets it. Then every
bound above the measure is enough. -/
theorem run_total {γ : Type*} {I : γ → σ → Prop} {Q : γ → σ → β → Prop} (measure : γ → σ → ℕ)
    (hpass : ∀ g s, I g s →
      (∃ g' s', pass s = .ok (.inl s') ∧ I g' s' ∧ measure g' s' < measure g s ∧
        ∀ r, Q g' s' r → Q g s r) ∨
      ∃ r, pass s = .ok (.inr r) ∧ Q g s r) :
    ∀ {fuel : ℕ} {g : γ} {s : σ}, I g s → measure g s < fuel →
      ∃ r, run timeout pass fuel s = .ok r ∧ Q g s r := by
  intro fuel
  induction fuel with
  | zero => intro g s _ h; omega
  | succ fuel ih =>
    intro g s hI hm
    rcases hpass g s hI with ⟨g', s', hs, hI', hlt, hback⟩ | ⟨r, hs, hQ⟩
    · obtain ⟨r, hrun, hQ⟩ := ih hI' (by omega)
      exact ⟨r, by rw [run_next hs, hrun], hback r hQ⟩
    · exact ⟨r, run_leave hs fuel, hQ⟩

/-! ### The loop as a relation

A bound is a device of evaluation. What a loop does without one is a relation: `Reaches` for the
states that it comes to, `Leaves` for the results that it leaves with.
-/

/-- Continuing passes lead from one state to another. -/
inductive Reaches (pass : σ → Except φ (σ ⊕ β)) (s : σ) : σ → Prop
  | refl : Reaches pass s s
  | next {t u : σ} : Reaches pass s t → pass t = .ok (.inl u) → Reaches pass s u

/-- The loop leaves with a result, after finitely many passes. -/
inductive Leaves (pass : σ → Except φ (σ ⊕ β)) : σ → β → Prop
  | leave {s : σ} {r : β} : pass s = .ok (.inr r) → Leaves pass s r
  | next {s t : σ} {r : β} : pass s = .ok (.inl t) → Leaves pass t r → Leaves pass s r

theorem leaves_of_next {s t : σ} {r : β} (h : pass s = .ok (.inl t)) :
    Leaves pass s r ↔ Leaves pass t r := by
  constructor
  · intro hs
    cases hs with
    | leave hr => rw [h] at hr; cases hr
    | next ht hrest =>
      rw [h] at ht
      cases ht
      exact hrest
  · exact .next h

theorem leaves_of_leave {s : σ} {r r' : β} (h : pass s = .ok (.inr r)) :
    Leaves pass s r' ↔ r' = r := by
  constructor
  · intro hs
    cases hs with
    | leave hr =>
      rw [h] at hr
      cases hr
      rfl
    | next ht _ => rw [h] at ht; cases ht
  · rintro rfl
    exact .leave h

theorem not_leaves_of_error {s : σ} {r : β} {e : φ} (h : pass s = .error e) :
    ¬Leaves pass s r := by
  intro hs
  cases hs with
  | leave hr => rw [h] at hr; cases hr
  | next ht _ => rw [h] at ht; cases ht

theorem Reaches.leaves_iff {s t : σ} {r : β} (h : Reaches pass s t) :
    Leaves pass s r ↔ Leaves pass t r := by
  induction h with
  | refl => exact Iff.rfl
  | next _ hpass ih => rw [ih, leaves_of_next hpass]

theorem Reaches.eq_or_next {s t : σ} (h : Reaches pass s t) :
    t = s ∨ (∃ u, pass s = .ok (.inl u)) ∧ ∃ u, pass u = .ok (.inl t) := by
  induction h with
  | refl => exact .inl rfl
  | next _ hpass ih =>
    rcases ih with rfl | ⟨hfirst, -⟩
    · exact .inr ⟨⟨_, hpass⟩, _, hpass⟩
    · exact .inr ⟨hfirst, _, hpass⟩

/-- **Bounds do not matter.** When some bound is enough, the result for it is the one that the loop
leaves with. -/
theorem leaves_iff_of_run {s : σ} {r r' : β} {fuel : ℕ} (h : run timeout pass fuel s = .ok r) :
    Leaves pass s r' ↔ r' = r := by
  induction fuel generalizing s with
  | zero => cases h
  | succ fuel ih =>
    rw [run] at h
    split at h
    · cases h
    · rename_i t ht
      rw [leaves_of_next ht, ih h]
    · rename_i r'' hr
      cases h
      exact leaves_of_leave hr

variable (pass) in
/-- **A loop inside a loop.** When the passes of one loop are, state by state, those of another, it
leaves with the images of the other's results. -/
theorem leaves_map_iff {σ' β' φ' : Type*} (pass' : σ' → Except φ' (σ' ⊕ β')) (f : σ → σ')
    (g : β → β') (hnext : ∀ {s t}, pass s = .ok (.inl t) → pass' (f s) = .ok (.inl (f t)))
    (hleave : ∀ {s r}, pass s = .ok (.inr r) → pass' (f s) = .ok (.inr (g r)))
    (herror : ∀ {s e}, pass s = .error e → ∃ e', pass' (f s) = .error e') {s : σ} {y : β'} :
    Leaves pass' (f s) y ↔ ∃ r, Leaves pass s r ∧ y = g r := by
  constructor
  · intro h
    generalize hx : f s = x at h
    induction h generalizing s with
    | leave hpass =>
      subst hx
      cases hs : pass s with
      | error e =>
        obtain ⟨e', he'⟩ := herror hs
        rw [hpass] at he'
        cases he'
      | ok r =>
        cases r with
        | inl t => rw [hnext hs] at hpass; cases hpass
        | inr r =>
          rw [hleave hs] at hpass
          cases hpass
          exact ⟨r, .leave hs, rfl⟩
    | next hpass _ ih =>
      subst hx
      cases hs : pass s with
      | error e =>
        obtain ⟨e', he'⟩ := herror hs
        rw [hpass] at he'
        cases he'
      | ok r =>
        cases r with
        | inl t =>
          rw [hnext hs] at hpass
          cases hpass
          obtain ⟨r, hr, hy⟩ := ih rfl
          exact ⟨r, .next hs hr, hy⟩
        | inr r => rw [hleave hs] at hpass; cases hpass
  · rintro ⟨r, hr, rfl⟩
    induction hr with
    | leave hs => exact .leave (hleave hs)
    | next hs _ ih => exact .next (hnext hs) ih

end Loop

/-! ## A fold with an early exit -/

/-- Fold `f` over a list until it leaves. -/
def foldExit (f : σ → α → σ ⊕ β) : σ → List α → σ ⊕ β
  | s, [] => .inl s
  | s, a :: l =>
    match f s a with
    | .inl s' => foldExit f s' l
    | .inr r => .inr r

theorem foldExit_cons (f : σ → α → σ ⊕ β) (s : σ) (a : α) (l : List α) :
    foldExit f s (a :: l) = (f s a).elim (fun s' ↦ foldExit f s' l) .inr := by
  rw [foldExit]
  cases f s a <;> rfl

theorem foldExit_eq_foldl (g : σ → α → σ) (s : σ) (l : List α) :
    foldExit (fun s a ↦ (.inl (g s a) : σ ⊕ β)) s l = .inl (l.foldl g s) := by
  induction l generalizing s with
  | nil => rfl
  | cons a l ih => rw [foldExit_cons, Sum.elim_inl, ih, List.foldl_cons]

end Aesd
