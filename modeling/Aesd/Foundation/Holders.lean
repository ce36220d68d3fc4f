import Mathlib.Logic.Function.Basic

/-!
# Things with one holder

Descriptors, blocks or tokens of which some are in use, and users that hold at most one each.
`OneHolder` says that what is in use has one holder and what is not in use has none. Three
operations keep it: a user takes a thing that is free, drops the one it holds, or passes it on.

Both directions matter. That a thing which is in use has a holder rules out a leak; that two users
never hold the same thing rules out that one of them gives back what the other still uses. A thing
that was given back may be handed out again under the same name, so neither follows from names
alone.
-/

namespace Aesd

/-- Exactly the things in use are held, and each by one user. -/
structure OneHolder {ι α : Type*} (held : ι → Option α) (used : α → Bool) : Prop where
  used_iff : ∀ x, used x = true ↔ ∃ u, held u = some x
  unique : ∀ {u v x}, held u = some x → held v = some x → u = v

namespace OneHolder

open Function (update update_self update_of_ne)

variable {ι α : Type*} [DecidableEq ι] [DecidableEq α] {held : ι → Option α} {used : α → Bool}
  {u v : ι} {x : α}

omit [DecidableEq ι] [DecidableEq α] in
theorem used_of_held (h : OneHolder held used) (hu : held u = some x) : used x = true :=
  (h.used_iff x).mpr ⟨u, hu⟩

theorem take (h : OneHolder held used) (hu : held u = none) (hx : used x = false) :
    OneHolder (update held u (some x)) (update used x true) := by
  have hfree : ∀ w, held w ≠ some x := by
    intro w hw
    rw [h.used_of_held hw] at hx
    cases hx
  constructor
  · intro y
    by_cases hy : y = x
    · subst hy
      rw [update_self]
      exact iff_of_true rfl ⟨u, update_self ..⟩
    · rw [update_of_ne hy, h.used_iff]
      refine exists_congr fun w ↦ ?_
      by_cases hw : w = u
      · subst hw
        rw [update_self, hu, Option.some.injEq]
        exact iff_of_false nofun fun heq ↦ hy heq.symm
      · rw [update_of_ne hw]
  · intro v w y hv hw
    by_cases hvu : v = u <;> by_cases hwu : w = u
    · rw [hvu, hwu]
    · subst hvu
      rw [update_self, Option.some.injEq] at hv
      rw [update_of_ne hwu, ← hv] at hw
      exact absurd hw (hfree w)
    · subst hwu
      rw [update_self, Option.some.injEq] at hw
      rw [update_of_ne hvu, ← hw] at hv
      exact absurd hv (hfree v)
    · rw [update_of_ne hvu] at hv
      rw [update_of_ne hwu] at hw
      exact h.unique hv hw

theorem drop (h : OneHolder held used) (hu : held u = some x) :
    OneHolder (update held u none) (update used x false) := by
  have hother : ∀ {w y}, update held u none w = some y → w ≠ u ∧ held w = some y := by
    intro w y hw
    by_cases hwu : w = u
    · rw [hwu, update_self] at hw
      cases hw
    · rw [update_of_ne hwu] at hw
      exact ⟨hwu, hw⟩
  constructor
  · intro y
    by_cases hy : y = x
    · subst hy
      rw [update_self]
      refine iff_of_false Bool.false_ne_true ?_
      rintro ⟨w, hw⟩
      obtain ⟨hne, hw⟩ := hother hw
      exact hne (h.unique hw hu)
    · rw [update_of_ne hy, h.used_iff]
      constructor
      · rintro ⟨w, hw⟩
        refine ⟨w, ?_⟩
        rw [update_of_ne, hw]
        rintro rfl
        rw [hu, Option.some.injEq] at hw
        exact hy hw.symm
      · rintro ⟨w, hw⟩
        exact ⟨w, (hother hw).2⟩
  · intro v w y hv hw
    exact h.unique (hother hv).2 (hother hw).2

theorem pass (h : OneHolder held used) (hu : held u = some x) (hv : held v = none) :
    OneHolder (update (update held u none) v (some x)) used := by
  have hne : v ≠ u := by
    rintro rfl
    rw [hu] at hv
    cases hv
  have htake := (h.drop hu).take (u := v) (x := x) (by rwa [update_of_ne hne]) (update_self ..)
  have hused : update used x true = used :=
    Function.update_eq_self_iff.mpr (h.used_of_held hu).symm
  rwa [Function.update_idem, hused] at htake

end OneHolder

end Aesd
