import Mathlib.Algebra.BigOperators.Group.List.Basic
import Mathlib.Data.List.DropRight
import Mathlib.Data.List.TakeDrop
import Mathlib.Tactic.NormNum

/-!
# Positions in a segmented sequence

A sequence kept in segments has two addresses for each of its elements: a position in the whole,
and a pair of a segment index and an offset inside that segment. `locate` goes one way and
`position` the other, and they are inverse to each other exactly on the positions below the total
length and the pairs that point inside a segment (`locate_eq_some_iff`).

## Intervals

Reading an interval goes segment by segment. `spans` cuts the interval `[p, p + n)` at the segment
boundaries, and `slice` is its contents; both unfold along `locate`, which is the shape in which a
reader that looks up its position again after each segment meets them.

## Windows

A window that keeps the last `k` segments of a growing sequence moves over it. `behind` is the
position of its start in the whole sequence, so a position in the window is one in the whole
(`slice_window`), and the same element keeps the same position there while the window moves on.
-/

namespace Aesd.Segments

variable {α : Type*}

/-- The segment that position `p` falls in, and the offset there, for segments of the lengths
`ss`. Empty segments are skipped. -/
def locate : List ℕ → ℕ → Option (ℕ × ℕ)
  | [], _ => none
  | s :: ss, p => if p < s then some (0, p) else (locate ss (p - s)).map fun q ↦ (q.1 + 1, q.2)

/-- The position of offset `o` in segment `i`. -/
def position (ss : List ℕ) (i o : ℕ) : ℕ := (ss.take i).sum + o

theorem locate_cons_of_lt {s p : ℕ} (h : p < s) (ss : List ℕ) :
    locate (s :: ss) p = some (0, p) := by
  rw [locate, if_pos h]

theorem locate_cons_of_le {s p : ℕ} (h : s ≤ p) (ss : List ℕ) :
    locate (s :: ss) p = (locate ss (p - s)).map fun q ↦ (q.1 + 1, q.2) := by
  rw [locate, if_neg (by omega)]

@[simp] theorem position_cons_succ (s : ℕ) (ss : List ℕ) (i o : ℕ) :
    position (s :: ss) (i + 1) o = s + position ss i o := by
  rw [position, position, List.take_succ_cons, List.sum_cons, Nat.add_assoc]

@[simp] theorem position_zero (ss : List ℕ) (o : ℕ) : position ss 0 o = o := by
  rw [position, List.take_zero, List.sum_nil, Nat.zero_add]

/-! ## The two addresses are inverse -/

theorem locate_eq_none_iff {ss : List ℕ} {p : ℕ} : locate ss p = none ↔ ss.sum ≤ p := by
  induction ss generalizing p with
  | nil => simp [locate]
  | cons s ss ih =>
    rw [List.sum_cons]
    by_cases h : p < s
    · rw [locate_cons_of_lt h]
      simp
      omega
    · rw [locate_cons_of_le (by omega), Option.map_eq_none_iff, ih]
      omega

/-- **`locate` and `position` are inverse.** -/
theorem locate_eq_some_iff {ss : List ℕ} {p i o : ℕ} :
    locate ss p = some (i, o) ↔ ∃ hi : i < ss.length, o < ss[i] ∧ position ss i o = p := by
  induction ss generalizing p i with
  | nil => simp [locate]
  | cons s ss ih =>
    by_cases h : p < s
    · -- the position falls in the first segment, and every later segment starts behind it
      rw [locate_cons_of_lt h]
      constructor
      · rintro ⟨rfl, rfl⟩
        exact ⟨by simp, by simpa using h, position_zero _ _⟩
      · rintro ⟨hi, ho, hp⟩
        cases i with
        | zero => rw [position_zero] at hp; rw [hp]
        | succ i => rw [position_cons_succ] at hp; omega
    · rw [locate_cons_of_le (by omega), Option.map_eq_some_iff]
      constructor
      · rintro ⟨⟨j, o'⟩, hj, heq⟩
        obtain ⟨rfl, rfl⟩ : j + 1 = i ∧ o' = o := by simpa using heq
        obtain ⟨hi, ho, hp⟩ := ih.mp hj
        exact ⟨by simpa using hi, by simpa using ho, by rw [position_cons_succ, hp]; omega⟩
      · rintro ⟨hi, ho, hp⟩
        cases i with
        | zero =>
          rw [position_zero] at hp
          rw [List.getElem_cons_zero] at ho
          omega
        | succ i =>
          rw [position_cons_succ] at hp
          refine ⟨(i, o), ih.mpr ⟨by simpa using hi, by simpa using ho, by omega⟩, rfl⟩

theorem exists_locate {ss : List ℕ} {p : ℕ} (h : p < ss.sum) :
    ∃ i o, locate ss p = some (i, o) := by
  cases hl : locate ss p with
  | none => exact absurd (locate_eq_none_iff.mp hl) (by omega)
  | some q => exact ⟨q.1, q.2, rfl⟩

theorem position_lt_sum {ss : List ℕ} {i o : ℕ} (hi : i < ss.length) (ho : o < ss[i]) :
    position ss i o < ss.sum := by
  by_contra h
  have hnone := locate_eq_none_iff.mpr (Nat.le_of_not_lt h)
  rw [locate_eq_some_iff.mpr ⟨hi, ho, rfl⟩] at hnone
  cases hnone

theorem position_end_le_sum {ss : List ℕ} {i : ℕ} (hi : i < ss.length) :
    position ss i ss[i] ≤ ss.sum := by
  have hsplit : ss.sum = (ss.take (i + 1)).sum + (ss.drop (i + 1)).sum := by
    rw [← List.sum_append, List.take_append_drop]
  rw [position, hsplit, List.take_add_one, List.getElem?_eq_getElem hi, Option.toList_some,
    List.sum_append, List.sum_singleton]
  omega

/-! ## Cutting an interval at the boundaries -/

/-- The lengths of the pieces of `[p, p + n)`, from a lookup of `p`: one piece when the interval
ends inside the segment of `p` or at its end, and otherwise the rest of that segment first. Past
the end of the sequence there is no piece. -/
def spans : List ℕ → ℕ → ℕ → List ℕ
  | [], _, _ => []
  | s :: ss, p, n =>
    if p < s then
      if n ≤ s - p then [n] else (s - p) :: spans ss 0 (n - (s - p))
    else spans ss (p - s) n

theorem spans_cons_of_lt {s p : ℕ} (h : p < s) (ss : List ℕ) (n : ℕ) :
    spans (s :: ss) p n = if n ≤ s - p then [n] else (s - p) :: spans ss 0 (n - (s - p)) := by
  rw [spans, if_pos h]

theorem spans_cons_of_le {s p : ℕ} (h : s ≤ p) (ss : List ℕ) (n : ℕ) :
    spans (s :: ss) p n = spans ss (p - s) n := by
  rw [spans, if_neg (by omega)]

theorem spans_of_sum_le {ss : List ℕ} {p : ℕ} (n : ℕ) (h : ss.sum ≤ p) : spans ss p n = [] := by
  induction ss generalizing p with
  | nil => rfl
  | cons s ss ih =>
    rw [List.sum_cons] at h
    rw [spans_cons_of_le (by omega), ih (by omega)]

theorem spans_of_locate {ss : List ℕ} {p i o : ℕ} (n : ℕ) (h : locate ss p = some (i, o))
    (hi : i < ss.length) :
    spans ss p n = if n ≤ ss[i] - o then [n]
      else (ss[i] - o) :: spans ss (p + (ss[i] - o)) (n - (ss[i] - o)) := by
  induction ss generalizing p i with
  | nil => simp at hi
  | cons s ss ih =>
    by_cases hp : p < s
    · rw [locate_cons_of_lt hp] at h
      obtain ⟨rfl, rfl⟩ : 0 = i ∧ p = o := by simpa using h
      rw [spans_cons_of_lt hp, List.getElem_cons_zero, spans_cons_of_le (by omega),
        show p + (s - p) - s = 0 by omega]
    · rw [locate_cons_of_le (by omega), Option.map_eq_some_iff] at h
      obtain ⟨⟨j, o'⟩, hj, heq⟩ := h
      obtain ⟨rfl, rfl⟩ : j + 1 = i ∧ o' = o := by simpa using heq
      have hj' : j < ss.length := by simpa using hi
      rw [spans_cons_of_le (by omega), ih hj hj', List.getElem_cons_succ,
        spans_cons_of_le (by omega), show p + (ss[j] - o') - s = p - s + (ss[j] - o') by omega]

theorem sum_spans (ss : List ℕ) (p n : ℕ) : (spans ss p n).sum = min n (ss.sum - p) := by
  induction ss generalizing p n with
  | nil => simp [spans]
  | cons s ss ih =>
    rw [List.sum_cons]
    by_cases hp : p < s
    · rw [spans_cons_of_lt hp]
      split
      · rw [List.sum_singleton]
        omega
      · rw [List.sum_cons, ih]
        omega
    · rw [spans_cons_of_le (by omega), ih]
      omega

/-- Only the last piece of an interval can be empty. -/
theorem pos_of_mem_dropLast_spans {ss : List ℕ} {p n m : ℕ} (h : m ∈ (spans ss p n).dropLast) :
    0 < m := by
  induction ss generalizing p n with
  | nil => simp [spans] at h
  | cons s ss ih =>
    by_cases hp : p < s
    · rw [spans_cons_of_lt hp] at h
      split at h
      · simp at h
      · cases hrest : spans ss 0 (n - (s - p)) with
        | nil => simp [hrest] at h
        | cons a l =>
          rw [hrest, List.dropLast_cons_of_ne_nil (by simp), ← hrest, List.mem_cons] at h
          rcases h with rfl | h
          · omega
          · exact ih h
    · rw [spans_cons_of_le (by omega)] at h
      exact ih h

private theorem sum_eq_zero_iff_of_pos {l : List ℕ} (h : ∀ m ∈ l, 0 < m) : l.sum = 0 ↔ l = [] := by
  cases l with
  | nil => simp
  | cons m l =>
    have := h m List.mem_cons_self
    simp
    omega

theorem sum_dropLast_spans_eq_zero_iff {ss : List ℕ} {p n : ℕ} :
    (spans ss p n).dropLast.sum = 0 ↔ (spans ss p n).length ≤ 1 := by
  rw [sum_eq_zero_iff_of_pos fun m hm ↦ pos_of_mem_dropLast_spans hm, ← List.length_eq_zero_iff,
    List.length_dropLast]
  omega

theorem sum_take_spans_eq_zero_iff {ss : List ℕ} {p n j : ℕ} (hj : j < (spans ss p n).length) :
    ((spans ss p n).take j).sum = 0 ↔ j = 0 := by
  have hpos : ∀ m ∈ (spans ss p n).take j, 0 < m := by
    intro m hm
    -- the first `j` pieces do not include the last one, which alone can be empty
    have hm' : m ∈ (spans ss p n).dropLast.take j := by
      rwa [List.dropLast_eq_take, List.take_take, min_eq_left (by omega)]
    exact pos_of_mem_dropLast_spans (List.mem_of_mem_take hm')
  rw [sum_eq_zero_iff_of_pos hpos, ← List.length_eq_zero_iff, List.length_take]
  omega

/-! ## The contents of an interval -/

/-- The elements at positions `p` to `p + n - 1`. -/
def slice (l : List (List α)) (p n : ℕ) : List α := (l.flatten.drop p).take n

theorem length_flatten_eq_sum (l : List (List α)) : l.flatten.length = (l.map List.length).sum :=
  List.length_flatten

@[simp] theorem length_slice (l : List (List α)) (p n : ℕ) :
    (slice l p n).length = min n ((l.map List.length).sum - p) := by
  rw [slice, List.length_take, List.length_drop, length_flatten_eq_sum]

theorem slice_of_sum_le {l : List (List α)} {p : ℕ} (n : ℕ) (h : (l.map List.length).sum ≤ p) :
    slice l p n = [] := by
  rw [slice, List.drop_of_length_le (by rwa [length_flatten_eq_sum]), List.take_nil]

/-- From a position on, the sequence is the rest of its segment and the segments after it. -/
theorem drop_flatten_of_locate {l : List (List α)} {p i o : ℕ}
    (h : locate (l.map List.length) p = some (i, o)) :
    ∃ hi : i < l.length, o < l[i].length ∧
      l.flatten.drop p = l[i].drop o ++ (l.drop (i + 1)).flatten := by
  induction l generalizing p i with
  | nil => simp [locate] at h
  | cons x l ih =>
    rw [List.map_cons] at h
    by_cases hp : p < x.length
    · rw [locate_cons_of_lt hp] at h
      obtain ⟨rfl, rfl⟩ : 0 = i ∧ p = o := by simpa using h
      refine ⟨by simp, hp, ?_⟩
      rw [List.flatten_cons, List.drop_append_of_le_length (by omega)]
      rfl
    · rw [locate_cons_of_le (by omega), Option.map_eq_some_iff] at h
      obtain ⟨⟨j, o'⟩, hj, heq⟩ := h
      obtain ⟨rfl, rfl⟩ : j + 1 = i ∧ o' = o := by simpa using heq
      obtain ⟨hi, ho, hdrop⟩ := ih hj
      refine ⟨by simpa using hi, ho, ?_⟩
      rw [List.flatten_cons, List.drop_append, List.drop_of_length_le (by omega), List.nil_append,
        hdrop]
      rfl

theorem slice_of_le {l : List (List α)} {p i o n : ℕ}
    (h : locate (l.map List.length) p = some (i, o)) (hi : i < l.length)
    (hn : n ≤ l[i].length - o) : slice l p n = (l[i].drop o).take n := by
  obtain ⟨_, _, hdrop⟩ := drop_flatten_of_locate h
  rw [slice, hdrop, List.take_append_of_le_length (by rwa [List.length_drop])]

theorem slice_append (l : List (List α)) (p m n : ℕ) :
    slice l p (m + n) = slice l p m ++ slice l (p + m) n := by
  rw [slice, slice, slice, List.take_add, List.drop_drop]

theorem slice_append_eq_drop_iff {l : List (List α)} {p n : ℕ} {rest : List α} :
    slice l p n ++ rest = l.flatten.drop p ↔ rest = l.flatten.drop (p + n) := by
  rw [slice, ← List.drop_drop]
  nth_rewrite 2 [← List.take_append_drop n (l.flatten.drop p)]
  exact List.append_right_inj _

/-! ## A window on the last segments -/

/-- How many elements the last `k` segments have before them. -/
def behind (k : ℕ) (l : List (List α)) : ℕ := (l.take (l.length - k)).flatten.length

theorem behind_le_behind_append (k : ℕ) (l m : List (List α)) : behind k l ≤ behind k (l ++ m) := by
  have hbefore : (l.take (l.length - k)).IsPrefix ((l ++ m).take ((l ++ m).length - k)) := by
    refine List.prefix_take_iff.mpr ⟨(List.take_prefix _ l).trans (List.prefix_append l m), ?_⟩
    rw [List.length_take, List.length_append]
    omega
  obtain ⟨rest, hrest⟩ := hbefore
  rw [behind, behind, ← hrest, List.flatten_append, List.length_append]
  exact Nat.le_add_right ..

theorem flatten_window (k : ℕ) (l : List (List α)) :
    (l.rtake k).flatten = l.flatten.drop (behind k l) := by
  rw [List.rtake, behind]
  conv_rhs => rw [← List.take_append_drop (l.length - k) l]
  rw [List.flatten_append, List.take_append_drop, List.drop_left]

/-- A position in the window. -/
theorem slice_window (k : ℕ) (l : List (List α)) (p n : ℕ) :
    slice (l.rtake k) p n = slice l (behind k l + p) n := by
  rw [slice, slice, flatten_window, List.drop_drop]

end Aesd.Segments
