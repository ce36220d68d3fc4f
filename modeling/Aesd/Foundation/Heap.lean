import Mathlib.Data.List.Basic
import Mathlib.Logic.Function.Basic

/-!
# A heap of blocks

The memory an allocator hands out, seen through block ids: a block is live or not, an allocation
takes an id that was never used before, and freeing removes the id from the live set. A cell of a
block is `none` until it is first written, so reading memory that was never written is told apart
from reading a value.

Everything C leaves undefined here is a `Fault`: using a block after it was freed, freeing it
twice, leaving its bounds, reading a cell that was never written. A program that never faults has
none of these errors.

## Ids are not addresses

No id is handed out twice, so a pointer to a block that was freed never becomes valid again, and
using it is always noticed. The field `fresh` of `Heap` says that ids from `next` on are not live;
with it, what an allocation returns differs from every live block (`ne_next_of_live`), and that is
all that a proof about ownership asks of an allocator.

## Two kinds of blocks

The cells hold values of any type. A buffer of bytes has many cells and is accessed in ranges, by
`load` and `store`; a record is a block of one cell, with `new`, `get` and `set`.
-/

namespace Aesd

/-- The ways in which an execution leaves the semantics of C, and running out of fuel. -/
inductive Fault
  | nullDereference
  | useAfterFree
  | doubleFree
  | outOfBounds
  | uninitialised
  | outOfFuel
  deriving DecidableEq, Repr

/-! ## Sequencing computations that may fault -/

section Except

variable {ε α β : Type}

@[simp] theorem ok_bind (a : α) (f : α → Except ε β) : (Except.ok a >>= f) = f a := rfl

@[simp] theorem error_bind (e : ε) (f : α → Except ε β) :
    ((Except.error e : Except ε α) >>= f) = .error e := rfl

@[simp] theorem pure_eq_ok (a : α) : (pure a : Except ε α) = .ok a := rfl

theorem exists_of_bind_eq_ok {x : Except ε α} {f : α → Except ε β} {b : β}
    (h : (x >>= f) = .ok b) : ∃ a, x = .ok a ∧ f a = .ok b := by
  cases x with
  | error e => cases h
  | ok a => exact ⟨a, rfl, h⟩

end Except

/-! ## Blocks -/

/-- Blocks by id. Ids from `next` on were never handed out. -/
structure Heap (α : Type*) where
  /-- The cells of a live block. -/
  cells : ℕ → Option (List (Option α))
  /-- The next id. -/
  next : ℕ
  /-- Ids not yet handed out are not live. -/
  fresh : ∀ b, next ≤ b → cells b = none

namespace Heap

variable {α : Type*}

def empty : Heap α := ⟨fun _ ↦ none, 0, fun _ _ ↦ rfl⟩

def Live (h : Heap α) (b : ℕ) : Prop := (h.cells b).isSome

instance (h : Heap α) (b : ℕ) : Decidable (h.Live b) :=
  inferInstanceAs (Decidable ((h.cells b).isSome = true))

/-- Block `b` is live and its cells hold exactly the values `xs`. -/
def Holds (h : Heap α) (b : ℕ) (xs : List α) : Prop := h.cells b = some (xs.map some)

/-- Replace the cells of one block that was handed out. -/
def put (h : Heap α) (b : ℕ) (hb : b < h.next) (c : Option (List (Option α))) : Heap α :=
  ⟨Function.update h.cells b c, h.next, fun i hi ↦ by
    rw [Function.update_of_ne (by omega), h.fresh i hi]⟩

/-- Hand out a new block with the given cells. -/
def place (h : Heap α) (c : List (Option α)) : Heap α × ℕ :=
  (⟨Function.update h.cells h.next (some c), h.next + 1, fun i hi ↦ by
    rw [Function.update_of_ne (by omega), h.fresh i (by omega)]⟩, h.next)

theorem lt_next_of_cells {h : Heap α} {b : ℕ} {c : List (Option α)} (hc : h.cells b = some c) :
    b < h.next := by
  by_contra hb
  rw [h.fresh b (by omega)] at hc
  cases hc

theorem lt_next_of_live {h : Heap α} {b : ℕ} (hb : h.Live b) : b < h.next := by
  obtain ⟨c, hc⟩ := Option.isSome_iff_exists.mp hb
  exact lt_next_of_cells hc

theorem ne_next_of_live {h : Heap α} {b : ℕ} (hb : h.Live b) : b ≠ h.next :=
  Nat.ne_of_lt (lt_next_of_live hb)

theorem not_live_next (h : Heap α) : ¬h.Live h.next := fun hb ↦ ne_next_of_live hb rfl

/-! ## The operations -/

/-- Allocate `n` cells, none of them written. -/
def malloc (h : Heap α) (n : ℕ) : Heap α × ℕ := h.place (List.replicate n none)

def free (h : Heap α) (b : ℕ) : Except Fault (Heap α) :=
  if hb : h.Live b then .ok (h.put b (lt_next_of_live hb) none) else .error .doubleFree

/-- Free what a pointer points to. Freeing `NULL` does nothing. -/
def freePtr (h : Heap α) : Option ℕ → Except Fault (Heap α)
  | none => .ok h
  | some b => h.free b

@[simp] theorem freePtr_none (h : Heap α) : h.freePtr none = .ok h := rfl

@[simp] theorem freePtr_some (h : Heap α) (b : ℕ) : h.freePtr (some b) = h.free b := rfl

/-- The first `n` cells of a block, with unwritten ones after its end. -/
def resize (n : ℕ) (c : List (Option α)) : List (Option α) :=
  c.take n ++ List.replicate (n - c.length) none

/-- Move a block to a new one of `n` cells and free the old one. -/
def realloc (h : Heap α) (b n : ℕ) : Except Fault (Heap α × ℕ) :=
  match hc : h.cells b with
  | none => .error .useAfterFree
  | some c =>
    .ok (((h.put b (lt_next_of_cells hc) none).place (resize n c)))

/-- Write `xs` at offset `off` of a block. -/
def store (h : Heap α) (b off : ℕ) (xs : List α) : Except Fault (Heap α) :=
  match hc : h.cells b with
  | none => .error .useAfterFree
  | some c =>
    if off + xs.length ≤ c.length then
      .ok (h.put b (lt_next_of_cells hc)
        (some (c.take off ++ xs.map some ++ c.drop (off + xs.length))))
    else .error .outOfBounds

/-- Read `n` values at offset `off` of a block. -/
def load (h : Heap α) (b off n : ℕ) : Except Fault (List α) :=
  match h.cells b with
  | none => .error .useAfterFree
  | some c =>
    if off + n ≤ c.length then
      match ((c.drop off).take n).mapM id with
      | some xs => .ok xs
      | none => .error .uninitialised
    else .error .outOfBounds

/-! ## What the operations leave alone -/

@[simp] theorem empty_cells (b : ℕ) : (empty : Heap α).cells b = none := rfl

@[simp] theorem put_cells_self (h : Heap α) (b : ℕ) (hb : b < h.next)
    (c : Option (List (Option α))) : (h.put b hb c).cells b = c :=
  Function.update_self ..

theorem put_cells_of_ne (h : Heap α) {b i : ℕ} (hb : b < h.next) (c : Option (List (Option α)))
    (hi : i ≠ b) : (h.put b hb c).cells i = h.cells i :=
  Function.update_of_ne hi ..

@[simp] theorem put_next (h : Heap α) (b : ℕ) (hb : b < h.next) (c : Option (List (Option α))) :
    (h.put b hb c).next = h.next := rfl

@[simp] theorem place_cells_self (h : Heap α) (c : List (Option α)) :
    (h.place c).1.cells h.next = some c :=
  Function.update_self ..

theorem place_cells_of_ne (h : Heap α) (c : List (Option α)) {i : ℕ} (hi : i ≠ h.next) :
    (h.place c).1.cells i = h.cells i :=
  Function.update_of_ne hi ..

theorem live_place_iff {h : Heap α} {c : List (Option α)} {i : ℕ} :
    (h.place c).1.Live i ↔ i = h.next ∨ h.Live i := by
  by_cases hi : i = h.next
  · rw [hi, Live, place_cells_self]
    simp
  · rw [Live, place_cells_of_ne _ _ hi, Live]
    simp [hi]

theorem Holds.live {h : Heap α} {b : ℕ} {xs : List α} (hb : h.Holds b xs) : h.Live b := by
  rw [Live, hb]
  rfl

theorem Holds.lt_next {h : Heap α} {b : ℕ} {xs : List α} (hb : h.Holds b xs) : b < h.next :=
  lt_next_of_cells hb

/-! ## What the operations do on blocks in use -/

theorem free_of_live {h : Heap α} {b : ℕ} (hb : h.Live b) :
    ∃ h', h.free b = .ok h' ∧ h'.cells b = none ∧ h'.next = h.next ∧
      ∀ i, i ≠ b → h'.cells i = h.cells i := by
  refine ⟨h.put b (lt_next_of_live hb) none, ?_, put_cells_self .., rfl, fun i hi ↦ ?_⟩
  · rw [free, dif_pos hb]
  · exact put_cells_of_ne h _ none hi

/-- Reallocating a block that holds `xs` to a larger size keeps `xs` in front, in a block that
was never handed out before. -/
theorem realloc_of_holds {h : Heap α} {b n : ℕ} {xs : List α} (hb : h.Holds b xs)
    (hn : xs.length ≤ n) :
    ∃ h', h.realloc b n = .ok (h', h.next) ∧ h'.cells b = none ∧ h'.next = h.next + 1 ∧
      h'.cells h.next = some (xs.map some ++ List.replicate (n - xs.length) none) ∧
      ∀ i, i ≠ b → i ≠ h.next → h'.cells i = h.cells i := by
  have hlt := hb.lt_next
  refine ⟨((h.put b hlt none).place (resize n (xs.map some))).1, ?_, ?_, rfl, ?_, ?_⟩
  · rw [realloc]
    split
    · rename_i hc
      rw [hb] at hc
      cases hc
    · rename_i c hc
      rw [hb] at hc
      cases hc
      rfl
  · -- the old id was handed out before, so it is not the new one
    rw [place_cells_of_ne _ _ (by simpa using Nat.ne_of_lt hlt), put_cells_self]
  · rw [show h.next = (h.put b hlt none).next from rfl, place_cells_self, resize,
      List.take_of_length_le (by simpa using hn), List.length_map]
  · intro i hib hin
    rw [place_cells_of_ne _ _ (by simpa using hin), put_cells_of_ne _ _ _ hib]

theorem store_of_cells {h : Heap α} {b off : ℕ} {c : List (Option α)} {xs : List α}
    (hc : h.cells b = some c) (hlen : off + xs.length ≤ c.length) :
    ∃ h', h.store b off xs = .ok h' ∧ h'.next = h.next ∧
      h'.cells b = some (c.take off ++ xs.map some ++ c.drop (off + xs.length)) ∧
      ∀ i, i ≠ b → h'.cells i = h.cells i := by
  refine ⟨h.put b (lt_next_of_cells hc)
    (some (c.take off ++ xs.map some ++ c.drop (off + xs.length))), ?_, rfl,
    put_cells_self .., fun i hi ↦ put_cells_of_ne h _ _ hi⟩
  rw [store]
  split
  · rename_i hc'
    rw [hc] at hc'
    cases hc'
  · rename_i c' hc'
    rw [hc] at hc'
    cases hc'
    rw [if_pos hlen]

private theorem mapM_id_map_some (xs : List α) : (xs.map some).mapM id = some xs := by
  induction xs with
  | nil => rfl
  | cons x xs ih => rw [List.map_cons, List.mapM_cons, ih]; rfl

theorem load_of_holds {h : Heap α} {b off n : ℕ} {xs : List α} (hb : h.Holds b xs)
    (hlen : off + n ≤ xs.length) : h.load b off n = .ok ((xs.drop off).take n) := by
  have hb' : h.cells b = some (xs.map some) := hb
  rw [load, hb']
  simp only [List.length_map]
  rw [if_pos hlen, ← List.map_drop, ← List.map_take, mapM_id_map_some]

theorem load_at {h : Heap α} {b : ℕ} {xs ys : List α} {x : α} (hb : h.Holds b (xs ++ x :: ys)) :
    h.load b xs.length 1 = .ok [x] := by
  rw [load_of_holds hb (by simp), List.drop_left, List.take_succ_cons, List.take_zero]

theorem store_at {h : Heap α} {b : ℕ} {xs ys : List α} {x : α} (hb : h.Holds b (xs ++ x :: ys))
    (x' : α) : ∃ h', h.store b xs.length [x'] = .ok h' ∧ h'.Holds b (xs ++ x' :: ys) ∧
      ∀ i, i ≠ b → h'.cells i = h.cells i := by
  have hfit : xs.length + [x'].length ≤ ((xs ++ x :: ys).map some).length := by
    simp
  obtain ⟨h', hstore, -, hself, hother⟩ := store_of_cells hb hfit
  refine ⟨h', hstore, ?_, hother⟩
  have htake : ((xs ++ x :: ys).map some).take xs.length = xs.map some := by
    rw [← List.map_take, List.take_left]
  have hdrop : ((xs ++ x :: ys).map some).drop (xs.length + [x'].length) = ys.map some := by
    rw [← List.map_drop, List.length_singleton, ← List.drop_drop, List.drop_left,
      List.drop_succ_cons, List.drop_zero]
  rw [Holds, hself, htake, hdrop, List.map_append, List.map_cons, List.append_assoc]
  rfl

/-! ## Which blocks are live afterwards -/

section Live

variable {h h' : Heap α} {b i : ℕ}

private theorem live_put_iff {hb : b < h.next} {c : Option (List (Option α))} :
    (h.put b hb c).Live i ↔ if i = b then c.isSome = true else h.Live i := by
  by_cases hi : i = b
  · rw [if_pos hi, hi, Live, put_cells_self]
  · rw [if_neg hi, Live, put_cells_of_ne _ _ _ hi, Live]

theorem live_of_free (hfree : h.free b = .ok h') : h'.Live i ↔ h.Live i ∧ i ≠ b := by
  rw [free] at hfree
  split at hfree
  · cases hfree
    rw [live_put_iff]
    by_cases hi : i = b <;> simp [hi]
  · cases hfree

theorem cells_of_free (hfree : h.free b = .ok h') (hi : i ≠ b) : h'.cells i = h.cells i := by
  rw [free] at hfree
  split at hfree
  · cases hfree
    exact put_cells_of_ne h _ none hi
  · cases hfree

theorem live_of_store {off : ℕ} {xs : List α} (hstore : h.store b off xs = .ok h') :
    h'.Live i ↔ h.Live i := by
  rw [store] at hstore
  split at hstore
  · cases hstore
  · rename_i c hc
    split at hstore
    · cases hstore
      rw [live_put_iff]
      by_cases hi : i = b
      · simp [hi, Live, hc]
      · rw [if_neg hi]
    · cases hstore

theorem live_of_realloc {n p : ℕ} (hrealloc : h.realloc b n = .ok (h', p)) :
    h'.Live i ↔ i = p ∨ (h.Live i ∧ i ≠ b) := by
  rw [realloc] at hrealloc
  split at hrealloc
  · cases hrealloc
  · have hpair := Except.ok.inj hrealloc
    rw [Prod.ext_iff] at hpair
    obtain ⟨rfl, rfl⟩ := hpair
    rw [live_place_iff, live_put_iff]
    by_cases hi : i = b <;> simp [hi, place]

end Live

/-! ## Blocks of one record -/

section Record

variable {h : Heap α} {b : ℕ} {a : α}

def new (h : Heap α) (a : α) : Heap α × ℕ := h.place [some a]

def get (h : Heap α) (b : ℕ) : Except Fault α :=
  match h.load b 0 1 with
  | .error e => .error e
  | .ok [] => .error .outOfBounds
  | .ok (a :: _) => .ok a

def set (h : Heap α) (b : ℕ) (a : α) : Except Fault (Heap α) := h.store b 0 [a]

theorem holds_new (h : Heap α) (a : α) : (h.new a).1.Holds h.next [a] := place_cells_self h [some a]

theorem new_cells_of_ne (h : Heap α) (a : α) {i : ℕ} (hi : i ≠ h.next) :
    (h.new a).1.cells i = h.cells i := place_cells_of_ne h _ hi

theorem get_of_holds (hb : h.Holds b [a]) : h.get b = .ok a := by
  have hload : h.load b 0 1 = .ok [a] := load_of_holds hb (Nat.le_refl 1)
  rw [get, hload]

theorem set_of_holds (hb : h.Holds b [a]) (a' : α) :
    ∃ h', h.set b a' = .ok h' ∧ h'.Holds b [a'] ∧ ∀ i, i ≠ b → h'.cells i = h.cells i := by
  have hb' : h.cells b = some [some a] := hb
  obtain ⟨h', hset, -, hself, hother⟩ := @store_of_cells _ h b 0 _ [a'] hb' (Nat.le_refl 1)
  exact ⟨h', hset, hself, hother⟩

theorem Holds.congr {h' : Heap α} {xs : List α} (hb : h.Holds b xs)
    (hcells : h'.cells b = h.cells b) : h'.Holds b xs := hcells.trans hb

end Record

end Heap

end Aesd
