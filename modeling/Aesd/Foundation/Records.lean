import Mathlib.Data.List.Induction

/-!
# Cutting writes into records

A sequence of writes is cut into records by a separator: a write whose last element is the
separator closes the record that it and the writes since the last closing one make up. Separators
inside a write cut nothing.

`Records.writes` is the log of a whole sequence of writes. Nothing is lost or reordered in it
(`flatten_writes`).

The other way to cut a stream is at every separator, wherever it is. `firstRecord` is the stream up
to its first one, and does not depend on what comes behind it; a reader that gets the stream in
chunks has the first record as soon as one of them has a separator.
-/

namespace Aesd

/-- The records closed so far, oldest first, and the contents of the one still open. -/
structure Records (α : Type*) where
  /-- The closed records. -/
  closed : List (List α)
  /-- The writes since the last closing one, concatenated. -/
  pending : List α

namespace Records

variable {α : Type*} [DecidableEq α] (sep : α)

def write (r : Records α) (payload : List α) : Records α :=
  if payload.getLast? = some sep then ⟨r.closed ++ [r.pending ++ payload], []⟩
  else ⟨r.closed, r.pending ++ payload⟩

def writes (payloads : List (List α)) : Records α := payloads.foldl (write sep) ⟨[], []⟩

theorem write_of_eq {payload : List α} (h : payload.getLast? = some sep) (r : Records α) :
    r.write sep payload = ⟨r.closed ++ [r.pending ++ payload], []⟩ := if_pos h

theorem write_of_ne {payload : List α} (h : payload.getLast? ≠ some sep) (r : Records α) :
    r.write sep payload = ⟨r.closed, r.pending ++ payload⟩ := if_neg h

theorem flatten_write (r : Records α) (payload : List α) :
    (r.write sep payload).closed.flatten ++ (r.write sep payload).pending
      = r.closed.flatten ++ r.pending ++ payload := by
  by_cases h : payload.getLast? = some sep
  · rw [write_of_eq sep h, List.flatten_append, List.flatten_singleton, List.append_nil,
      List.append_assoc]
  · rw [write_of_ne sep h, List.append_assoc]

theorem flatten_writes (payloads : List (List α)) :
    (writes sep payloads).closed.flatten ++ (writes sep payloads).pending = payloads.flatten := by
  induction payloads using List.reverseRecOn with
  | nil => rfl
  | append_singleton ps p ih =>
    rw [writes, List.foldl_append, List.foldl_cons, List.foldl_nil, flatten_write]
    rw [writes] at ih
    rw [ih, List.flatten_append, List.flatten_singleton]

end Records

/-! ## The first record of a stream -/

section FirstRecord

variable {α : Type*} [DecidableEq α] (sep : α)

/-- A stream up to and including its first separator. -/
def firstRecord : List α → List α
  | [] => []
  | x :: xs => if x = sep then [x] else x :: firstRecord xs

variable {sep}

theorem firstRecord_of_not_mem {xs : List α} (h : sep ∉ xs) : firstRecord sep xs = xs := by
  induction xs with
  | nil => rfl
  | cons x xs ih =>
    rw [List.mem_cons, not_or] at h
    rw [firstRecord, if_neg (Ne.symm h.1), ih h.2]

theorem firstRecord_append_of_not_mem {xs : List α} (h : sep ∉ xs) (ys : List α) :
    firstRecord sep (xs ++ ys) = xs ++ firstRecord sep ys := by
  induction xs with
  | nil => rfl
  | cons x xs ih =>
    rw [List.mem_cons, not_or] at h
    rw [List.cons_append, firstRecord, if_neg (Ne.symm h.1), ih h.2, List.cons_append]

/-- What comes after the first separator does not matter. -/
theorem firstRecord_append_of_mem {xs : List α} (h : sep ∈ xs) (ys : List α) :
    firstRecord sep (xs ++ ys) = firstRecord sep xs := by
  induction xs with
  | nil => cases h
  | cons x xs ih =>
    rw [List.cons_append, firstRecord, firstRecord]
    by_cases hx : x = sep
    · rw [if_pos hx, if_pos hx]
    · rw [if_neg hx, if_neg hx, ih ((List.mem_cons.mp h).resolve_left (Ne.symm hx))]

theorem firstRecord_eq_take (xs : List α) : firstRecord sep xs
    = xs.take ((xs.findIdx? fun x ↦ x == sep).elim xs.length fun i ↦ i + 1) := by
  induction xs with
  | nil => rfl
  | cons x xs ih =>
    rw [firstRecord, List.findIdx?_cons]
    by_cases hx : x = sep
    · rw [if_pos hx, if_pos (by simp [hx])]
      rfl
    · rw [if_neg hx, if_neg (by simp [hx]), ih]
      cases xs.findIdx? fun x ↦ x == sep <;> rfl

theorem firstRecord_ne_nil {xs : List α} (h : xs ≠ []) : firstRecord sep xs ≠ [] := by
  cases xs with
  | nil => exact absurd rfl h
  | cons x xs => rw [firstRecord]; split <;> simp

theorem firstRecord_length_le (xs : List α) : (firstRecord sep xs).length ≤ xs.length := by
  rw [firstRecord_eq_take]
  exact List.length_take_le' _ _

theorem not_mem_dropLast_firstRecord (xs : List α) : sep ∉ (firstRecord sep xs).dropLast := by
  induction xs with
  | nil => simp [firstRecord]
  | cons x xs ih =>
    rw [firstRecord]
    split
    · simp
    · rename_i hx
      cases hr : firstRecord sep xs with
      | nil => simp
      | cons y ys =>
        rw [List.dropLast_cons_of_ne_nil (by simp), ← hr, List.mem_cons, not_or]
        exact ⟨Ne.symm hx, ih⟩

end FirstRecord

end Aesd
