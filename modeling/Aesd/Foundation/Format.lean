import Mathlib.Data.List.Basic

/-!
# Formatted output

How a C library writes with a format. A byte of the format that is not `%` is written as it is. A
`%` starts a conversion specification, which goes on over flags, numbers and length modifiers to its
specifier. The specification `%%` writes a `%`; all others take arguments, and without one left what
happens is undefined.

## Representation

`Conversions` is what the library makes of the specifications other than `%%`. Only one fact about
it is fixed: without an argument there is no output. So the results below hold for every set of
conversions that a library offers.

Without any arguments the output is defined exactly when every `%` belongs to a `%%`
(`render_isSome_iff`), and it is the format itself exactly when there is no `%` in it
(`render_eq_self_iff`), since every `%%` makes the output shorter.
-/

namespace Aesd

def percent : UInt8 := 37

/-- The conversion specifications that take arguments, of a type `α`: what one writes, and the
arguments that are left. When there are too few of them, or when there is no such specification,
what happens is undefined. -/
structure Conversions (α : Type) where
  convert : List UInt8 → List α → Option (List UInt8 × List α)
  convert_nil : ∀ spec, convert spec [] = none

namespace Conversions

/-- The conversion `%s` alone. -/
def strings : Conversions (List UInt8) where
  convert spec args :=
    match args with
    | [] => none
    | s :: args => if spec = [115] then some (s, args) else none
  convert_nil := fun _ ↦ rfl

variable {α : Type} (C : Conversions α)

/-- The bytes that can stand between a `%` and its specifier: flags, width, precision, length. -/
def isModifier (b : UInt8) : Bool :=
  b ∈ [32, 35, 42, 43, 45, 46, 76, 104, 106, 108, 116, 122] || (48 ≤ b && b ≤ 57)

/-- What a format writes. In a specification, the part of it after its `%` that was read is given.
-/
def render : Option (List UInt8) → List α → List UInt8 → Option (List UInt8)
  | none, _, [] => some []
  | some _, _, [] => none
  | none, args, b :: format =>
    if b = percent then render (some []) args format
    else (render none args format).map (b :: ·)
  | some spec, args, b :: format =>
    if b = percent ∧ spec = [] then (render none args format).map (percent :: ·)
    else if isModifier b then render (some (spec ++ [b])) args format
    else
      match C.convert (spec ++ [b]) args with
      | none => none
      | some (out, args') => (render none args' format).map (out ++ ·)

/-- Every `%` of a format belongs to a `%%`. -/
def onlyEscapes : List UInt8 → Bool
  | [] => true
  | [b] => b ≠ percent
  | b :: b' :: format =>
    if b = percent then b' = percent && onlyEscapes format else onlyEscapes (b' :: format)

variable {C} {format out spec : List UInt8}

theorem render_of_not_mem (h : percent ∉ format) (args : List α) :
    C.render none args format = some format := by
  induction format with
  | nil => rfl
  | cons b format ih =>
    rw [List.mem_cons, not_or] at h
    rw [render, if_neg (Ne.symm h.1), ih h.2, Option.map_some]

private theorem render_spec (h : C.render (some spec) [] format = some out) :
    spec = [] ∧ ∃ format' out', format = percent :: format' ∧ out = percent :: out' ∧
      C.render none [] format' = some out' := by
  induction format generalizing spec with
  | nil => cases h
  | cons b format ih =>
    rw [render] at h
    split at h
    · rename_i hb
      obtain ⟨out', hout', rfl⟩ := Option.map_eq_some_iff.mp h
      exact ⟨hb.2, format, out', by rw [hb.1], rfl, hout'⟩
    split at h
    · obtain ⟨hnil, -⟩ := ih h
      exact absurd hnil (by simp)
    · rw [C.convert_nil] at h
      cases h

theorem render_isSome_iff :
    (C.render none [] format).isSome = true ↔ onlyEscapes format = true := by
  induction format using onlyEscapes.induct with
  | case1 => exact iff_of_true rfl rfl
  | case2 b =>
    rw [onlyEscapes, decide_eq_true_iff, render]
    by_cases hb : b = percent
    · rw [if_pos hb]
      exact iff_of_false (by rw [render]; exact Bool.false_ne_true) fun hne ↦ hne hb
    · rw [if_neg hb]
      exact iff_of_true rfl hb
  | case3 b' format ih =>
    rw [onlyEscapes, if_pos rfl, Bool.and_eq_true, decide_eq_true_iff, render, if_pos rfl]
    by_cases hb' : b' = percent
    · rw [render, if_pos ⟨hb', rfl⟩, Option.isSome_map, ih]
      exact (and_iff_right hb').symm
    · refine iff_of_false (fun hsome ↦ ?_) fun hand ↦ hb' hand.1
      obtain ⟨out, hout⟩ := Option.isSome_iff_exists.mp hsome
      obtain ⟨-, format', out', hformat, -⟩ := render_spec hout
      exact hb' (List.cons.inj hformat).1
  | case4 b b' format hb ih =>
    rw [onlyEscapes, if_neg hb, render, if_neg hb, Option.isSome_map, ih]

/-- Without arguments, every `%` makes the output shorter than the format. -/
private theorem length_render (h : C.render none [] format = some out) :
    out.length ≤ format.length ∧ (percent ∈ format → out.length < format.length) := by
  induction hlen : format.length using Nat.strongRecOn generalizing format out with
  | _ k ih =>
  subst hlen
  cases format with
  | nil =>
    cases h
    exact ⟨Nat.le_refl _, fun hmem ↦ absurd hmem List.not_mem_nil⟩
  | cons b format =>
    rw [render] at h
    split at h
    · obtain ⟨-, format', out', rfl, rfl, h'⟩ := render_spec h
      obtain ⟨hle, -⟩ := ih _ (by simp only [List.length_cons]; omega) h' rfl
      simp only [List.length_cons]
      omega
    · rename_i hb
      obtain ⟨out', h', rfl⟩ := Option.map_eq_some_iff.mp h
      obtain ⟨hle, hlt⟩ := ih _ (by simp) h' rfl
      refine ⟨Nat.succ_le_succ hle, fun hmem ↦ Nat.succ_lt_succ (hlt ?_)⟩
      exact (List.mem_cons.mp hmem).resolve_left (Ne.symm hb)

/-- **When a format is written as it is.** -/
theorem render_eq_self_iff : C.render none [] format = some format ↔ percent ∉ format := by
  constructor
  · intro h hmem
    exact Nat.lt_irrefl _ ((length_render h).2 hmem)
  · intro h
    exact render_of_not_mem h []

end Conversions

end Aesd
