import Mathlib.Algebra.BigOperators.Group.List.Basic
import Mathlib.Algebra.Ring.Nat
import Aesd.Foundation.Machine

/-!
# Machines that come to an end

A machine whose states have a rank that every step lowers, and where a state that has not arrived
has a step, is `Ranked`: the rank bounds the length of a run, every state leads to an arrival, and a
run that cannot go on has arrived.

The three facts say different things about a system of many threads. The bound holds whatever the
scheduler does; that an arrival can be reached says that no choice was fatal; and that a state
without steps is an arrival says that there is no deadlock. Not every event needs to lower the rank:
`Ranked` is relative to a set of admitted events, and a run that takes others is not bounded.

Where many components take steps of their own, the rank of a state is the sum of the ranks of its
components (`totalRank`), and a step of one of them lowers it.
-/

namespace Aesd

/-! ## The rank of many components -/

section Total

open Function (update update_self update_of_ne)

variable {ι τ : Type*} (rank : τ → ℕ) {f : ι → τ} {l l' : List ι} {i : ι} {t : τ}

/-- The ranks of the components `l`, taken together. -/
def totalRank (f : ι → τ) (l : List ι) : ℕ := (l.map fun i ↦ rank (f i)).sum

theorem totalRank_cons : totalRank rank f (i :: l) = rank (f i) + totalRank rank f l := by
  rw [totalRank, List.map_cons, List.sum_cons, totalRank]

theorem totalRank_perm (h : l.Perm l') : totalRank rank f l = totalRank rank f l' :=
  (h.map _).sum_eq

theorem totalRank_le {k : ℕ} (h : ∀ t, rank t ≤ k) : totalRank rank f l ≤ k * l.length := by
  induction l with
  | nil => exact Nat.zero_le _
  | cons i l ih =>
    have hi := h (f i)
    rw [totalRank_cons, List.length_cons, Nat.mul_succ]
    omega

variable [DecidableEq ι]

theorem totalRank_update_of_notMem (h : i ∉ l) :
    totalRank rank (update f i t) l = totalRank rank f l := by
  rw [totalRank, totalRank]
  congr 1
  apply List.map_congr_left
  intro j hj
  rw [update_of_ne]
  rintro rfl
  exact h hj

theorem totalRank_update_lt (hnodup : l.Nodup) (hi : i ∈ l) (hlt : rank t < rank (f i)) :
    totalRank rank (update f i t) l < totalRank rank f l := by
  have hperm := List.perm_cons_erase hi
  have hnotMem : i ∉ l.erase i := (List.nodup_cons.mp (hperm.nodup_iff.mp hnodup)).1
  rw [totalRank_perm rank hperm, totalRank_perm rank hperm, totalRank_cons, totalRank_cons,
    totalRank_update_of_notMem rank hnotMem, update_self]
  exact Nat.add_lt_add_right hlt _

end Total

/-! ## Ranked machines -/

namespace Machine

variable {σ ε ρ φ : Type*} {M : Machine σ ε ρ φ}

/-- A rank of the states of a machine. Every step on an admitted event lowers it, and a ranked state
that is not an arrival has such a step. -/
structure Ranked (M : Machine σ ε ρ φ) (A : ε → Prop) (D : σ → Prop) (R : σ → ℕ → Prop) :
    Prop where
  lowers : ∀ {s n e s' r}, R s n → A e → M.step s e = .ok (s', r) → ∃ k < n, R s' k
  advances : ∀ {s n}, R s n → ¬D s → ∃ e s' r, A e ∧ M.step s e = .ok (s', r)

namespace Ranked

variable {A : ε → Prop} {D : σ → Prop} {R : σ → ℕ → Prop} {s t : σ} {n : ℕ}

theorem length_le (h : M.Ranked A D R) {tr : List (Move σ ε ρ)} (hrun : M.Run s tr t)
    (hA : ∀ m ∈ tr, A m.event) (hR : R s n) : ∃ k, tr.length + k ≤ n ∧ R t k := by
  induction hrun with
  | nil => exact ⟨n, Nat.le_of_eq (Nat.zero_add n), hR⟩
  | snoc _ hstep ih =>
    rw [List.forall_mem_append, List.forall_mem_singleton] at hA
    obtain ⟨k, hle, hk⟩ := ih hA.1
    obtain ⟨k', hlt, hk'⟩ := h.lowers hk hA.2 hstep
    refine ⟨k', ?_, hk'⟩
    rw [List.length_append, List.length_singleton]
    omega

/-- Every ranked state leads to an arrival. -/
theorem exists_run (h : M.Ranked A D R) (hR : R s n) :
    ∃ tr t, M.Run s tr t ∧ (∀ m ∈ tr, A m.event) ∧ D t := by
  induction n using Nat.strongRecOn generalizing s with
  | _ n ih =>
    by_cases hD : D s
    · exact ⟨[], s, .nil, nofun, hD⟩
    · obtain ⟨e, s', r, he, hstep⟩ := h.advances hR hD
      obtain ⟨k, hlt, hk⟩ := h.lowers hR he hstep
      obtain ⟨tr, t, hrun, hA, ht⟩ := ih k hlt hk
      exact ⟨_, t, .cons hstep hrun, List.forall_mem_cons.mpr ⟨he, hA⟩, ht⟩

/-- A ranked state that cannot go on is an arrival. -/
theorem of_stuck (h : M.Ranked A D R) (hR : R s n)
    (hstuck : ∀ e, A e → ∃ f, M.step s e = .error f) : D s := by
  by_contra hD
  obtain ⟨e, s', r, he, hstep⟩ := h.advances hR hD
  obtain ⟨f, herror⟩ := hstuck e he
  rw [hstep] at herror
  cases herror

end Ranked

end Machine

end Aesd
