import Aesd.Foundation.Heap
import Aesd.Foundation.Loop
import Mathlib.Data.List.Nodup
import Mathlib.Data.List.Perm.Subperm
import Mathlib.Data.List.Range

/-!
# Singly linked lists in a heap

A list whose nodes are blocks of a heap, reached from a pointer to the first one. `IsChain` says
which nodes a pointer leads to. A node is inserted in front, and removed by looking for the node
before it and linking past it (`remove_spec`).

## Why the list is a parameter

`IsChain` relates a heap and a pointer to the list of all nodes with their values. The proofs never
follow pointers: an operation is described by what it does to that list, and `IsChain.congr` says
that nothing happens to it when other blocks change. A program that keeps a pointer into the middle
of its list, as a sweep does that removes nodes, has a part of the list behind that pointer, which
is a chain of its own (`IsChain.right`).
-/

namespace Aesd

/-- A node: its value and the pointer to the next one. -/
structure Node (α : Type) where
  value : α
  next : Option ℕ
  deriving DecidableEq

namespace Chain

variable {α : Type}

/-! ## The operations -/

/-- Insert a new node in front of the list at `first`. -/
def insertHead (h : Heap (Node α)) (first : Option ℕ) (a : α) : Heap (Node α) × Option ℕ :=
  ((h.new ⟨a, first⟩).1, some (h.new ⟨a, first⟩).2)

/-- One pass of the search for the node before `elm`. -/
def searchPass (h : Heap (Node α)) (elm : ℕ) : Option ℕ → Except Fault (Option ℕ ⊕ ℕ)
  | none => .error .nullDereference
  | some curelm => do
    let node ← h.get curelm
    if node.next = some elm then return .inr curelm else return .inl node.next

/-- Link past the node after `elm`. -/
def removeAfter (h : Heap (Node α)) (elm : ℕ) : Except Fault (Heap (Node α)) := do
  let node ← h.get elm
  match node.next with
  | none => throw .nullDereference
  | some next => do
    let after ← h.get next
    h.set elm { node with next := after.next }

/-- Remove the node `elm` from the list at `first`: the memory and the new first node. There are no
more nodes to pass than blocks. -/
def remove (h : Heap (Node α)) (first : Option ℕ) (elm : ℕ) :
    Except Fault (Heap (Node α) × Option ℕ) :=
  if first = some elm then do
    let node ← h.get elm
    return (h, node.next)
  else do
    let curelm ← Loop.run .outOfFuel (searchPass h elm) (h.next + 1) first
    let h ← removeAfter h curelm
    return (h, first)

/-! ## The nodes of a list -/

/-- The pointer to the first of some nodes. -/
def firstId (l : List (ℕ × α)) : Option ℕ := (l.map Prod.fst).head?

/-- The pointer `p` leads to the nodes `l`, given by their blocks and values. -/
def IsChain (h : Heap (Node α)) : Option ℕ → List (ℕ × α) → Prop
  | p, [] => p = none
  | p, (b, a) :: l => p = some b ∧ ∃ next, h.Holds b [⟨a, next⟩] ∧ IsChain h next l

@[simp] theorem firstId_nil : firstId ([] : List (ℕ × α)) = none := rfl

@[simp] theorem firstId_cons (b : ℕ) (a : α) (l : List (ℕ × α)) :
    firstId ((b, a) :: l) = some b := rfl

theorem firstId_append_cons (l₁ : List (ℕ × α)) (n : ℕ × α) (l₂ : List (ℕ × α)) :
    firstId (l₁ ++ n :: l₂) = firstId (l₁ ++ [n]) := by
  cases l₁ <;> rfl

theorem mem_of_firstId {l : List (ℕ × α)} {b : ℕ} (h : firstId l = some b) :
    b ∈ l.map Prod.fst := List.mem_of_head? h

section IsChain

variable {h h' : Heap (Node α)} {p q : Option ℕ} {b : ℕ} {a : α} {l l₁ l₂ : List (ℕ × α)}

theorem IsChain.eq_firstId (hl : IsChain h p l) : p = firstId l := by
  cases l with
  | nil => exact hl
  | cons n l => exact hl.1

theorem IsChain.holds (hl : IsChain h p (l₁ ++ (b, a) :: l₂)) : h.Holds b [⟨a, firstId l₂⟩] := by
  induction l₁ generalizing p with
  | nil =>
    obtain ⟨-, next, hb, hrest⟩ := hl
    rwa [← hrest.eq_firstId]
  | cons n l₁ ih =>
    obtain ⟨-, next, -, hrest⟩ := hl
    exact ih hrest

theorem IsChain.right (hl : IsChain h p (l₁ ++ l₂)) : IsChain h (firstId l₂) l₂ := by
  induction l₁ generalizing p with
  | nil =>
    rw [List.nil_append] at hl
    rwa [← hl.eq_firstId]
  | cons n l₁ ih =>
    obtain ⟨-, next, -, hrest⟩ := hl
    exact ih hrest

theorem IsChain.lt_next (hl : IsChain h p l) {i : ℕ} (hi : i ∈ l.map Prod.fst) : i < h.next := by
  obtain ⟨⟨b, a⟩, hmem, rfl⟩ := List.mem_map.mp hi
  obtain ⟨l₁, l₂, rfl⟩ := List.append_of_mem hmem
  exact hl.holds.lt_next

theorem IsChain.congr (hl : IsChain h p l) (hcells : ∀ i ∈ l.map Prod.fst, h'.cells i = h.cells i) :
    IsChain h' p l := by
  induction l generalizing p with
  | nil => exact hl
  | cons n l ih =>
    rw [List.map_cons, List.forall_mem_cons] at hcells
    obtain ⟨hp, next, hb, hrest⟩ := hl
    exact ⟨hp, next, hb.congr hcells.1, ih hrest hcells.2⟩

/-- Changing where a node points to changes what follows it. -/
theorem IsChain.relink (hl : IsChain h p (l₁ ++ (b, a) :: l)) (hr : IsChain h q l₂)
    (hb : h'.Holds b [⟨a, q⟩]) (hcells : ∀ i, i ≠ b → h'.cells i = h.cells i)
    (hl₁ : b ∉ l₁.map Prod.fst) (hl₂ : b ∉ l₂.map Prod.fst) :
    IsChain h' p (l₁ ++ (b, a) :: l₂) := by
  induction l₁ generalizing p with
  | nil =>
    refine ⟨hl.1, q, hb, hr.congr fun i hi ↦ hcells i ?_⟩
    rintro rfl
    exact hl₂ hi
  | cons n l₁ ih =>
    rw [List.map_cons, List.mem_cons, not_or] at hl₁
    obtain ⟨hp, next, hn, hrest⟩ := hl
    exact ⟨hp, next, hn.congr (hcells _ (Ne.symm hl₁.1)), ih hrest hl₁.2⟩

theorem IsChain.length_le (hl : IsChain h p l) (hnodup : (l.map Prod.fst).Nodup) :
    l.length ≤ h.next := by
  have hsub : l.map Prod.fst ⊆ List.range h.next := fun i hi ↦ List.mem_range.mpr (hl.lt_next hi)
  have hle := (List.subperm_of_subset hnodup hsub).length_le
  rwa [List.length_map, List.length_range] at hle

end IsChain

/-! ## What the operations do -/

section Operations

variable {h : Heap (Node α)} {p : Option ℕ} {b c : ℕ} {a a' : α} {l₁ l₂ : List (ℕ × α)}

theorem insertHead_spec {l : List (ℕ × α)} (hl : IsChain h p l) (a : α) :
    IsChain (insertHead h p a).1 (insertHead h p a).2 ((h.next, a) :: l) := by
  refine ⟨rfl, p, Heap.holds_new .., hl.congr fun i hi ↦ Heap.new_cells_of_ne _ _ ?_⟩
  exact (hl.lt_next hi).ne

private theorem search_spec (hl : IsChain h p (l₁ ++ (c, a') :: (b, a) :: l₂))
    (hb : b ∉ (l₁ ++ [(c, a')]).map Prod.fst) {fuel : ℕ} (hfuel : l₁.length < fuel) :
    Loop.run .outOfFuel (searchPass h b) fuel p = .ok c := by
  have hpass : ∀ l₁ p, IsChain h p (l₁ ++ (c, a') :: (b, a) :: l₂) ∧
      b ∉ (l₁ ++ [(c, a')]).map Prod.fst →
      (∃ l₁' p', searchPass h b p = .ok (.inl p') ∧
        (IsChain h p' (l₁' ++ (c, a') :: (b, a) :: l₂) ∧ b ∉ (l₁' ++ [(c, a')]).map Prod.fst) ∧
        l₁'.length < l₁.length ∧ ∀ r, r = c → r = c) ∨
      ∃ r, searchPass h b p = .ok (.inr r) ∧ r = c := by
    rintro l₁ p ⟨hl, hb⟩
    cases l₁ with
    | nil =>
      right
      have hhead : h.Holds c [⟨a', some b⟩] := @IsChain.holds _ h p c a' [] _ hl
      obtain ⟨rfl, -⟩ := hl
      refine ⟨c, ?_, rfl⟩
      rw [searchPass, Heap.get_of_holds hhead, ok_bind, if_pos rfl, pure_eq_ok]
    | cons n l₁ =>
      left
      rw [List.cons_append, List.map_cons, List.mem_cons, not_or] at hb
      rw [List.cons_append] at hl
      obtain ⟨rfl, next, hn, hrest⟩ := hl
      have hne : next ≠ some b := by
        rw [hrest.eq_firstId, firstId_append_cons]
        exact fun hfirst ↦ hb.2 (mem_of_firstId hfirst)
      refine ⟨l₁, next, ?_, ⟨hrest, hb.2⟩, Nat.lt_succ_self _, fun _ ↦ id⟩
      rw [searchPass, Heap.get_of_holds hn, ok_bind, if_neg hne, pure_eq_ok]
  obtain ⟨r, hrun, rfl⟩ : ∃ r, Loop.run .outOfFuel (searchPass h b) fuel p = .ok r ∧ r = c :=
    Loop.run_total (fun (l₁ : List (ℕ × α)) _ ↦ l₁.length) hpass ⟨hl, hb⟩ hfuel
  exact hrun

/-- **Removing a node.** The nodes before and after it are linked; the node itself is not touched.
-/
theorem remove_spec (hl : IsChain h p (l₁ ++ (b, a) :: l₂))
    (hnodup : ((l₁ ++ (b, a) :: l₂).map Prod.fst).Nodup) :
    ∃ h' p', remove h p b = .ok (h', p') ∧ IsChain h' p' (l₁ ++ l₂) ∧
      h'.Holds b [⟨a, firstId l₂⟩] ∧ ∀ i, h'.Live i ↔ h.Live i := by
  have hb := hl.holds
  rcases List.eq_nil_or_concat l₁ with rfl | ⟨l₀, ⟨c, a'⟩, rfl⟩
  · have hrest : IsChain h (firstId l₂) l₂ := @IsChain.right _ h p [(b, a)] l₂ hl
    refine ⟨h, firstId l₂, ?_, hrest, hb, fun _ ↦ Iff.rfl⟩
    rw [remove, if_pos hl.1, Heap.get_of_holds hb, ok_bind, pure_eq_ok]
  · rw [List.concat_eq_append] at hl hnodup ⊢
    rw [List.append_assoc, List.singleton_append] at hl
    obtain ⟨hapart, hsep⟩ : b ∉ (l₀ ++ [(c, a')]).map Prod.fst ∧
        c ∉ l₀.map Prod.fst ∧ c ∉ l₂.map Prod.fst := by
      rw [List.map_append, List.map_cons, List.nodup_middle, List.nodup_cons, List.mem_append,
        not_or] at hnodup
      obtain ⟨⟨hapart, -⟩, hrest⟩ := hnodup
      rw [List.map_append, List.append_assoc, List.map_singleton, List.singleton_append,
        List.nodup_middle, List.nodup_cons, List.mem_append, not_or] at hrest
      exact ⟨hapart, hrest.1⟩
    have hc : h.Holds c [⟨a', some b⟩] := hl.holds
    obtain ⟨h', hset, hc', hother⟩ := Heap.set_of_holds hc ⟨a', firstId l₂⟩
    have hne : b ≠ c := by
      rintro rfl
      exact hapart (by simp)
    have hfirst : p ≠ some b := by
      rw [hl.eq_firstId, firstId_append_cons]
      exact fun hfirst ↦ hapart (mem_of_firstId hfirst)
    have hlen := hl.length_le (by simpa using hnodup)
    rw [List.length_append] at hlen
    have hsearch := search_spec hl hapart (show l₀.length < h.next + 1 by omega)
    refine ⟨h', p, ?_, ?_, hb.congr (hother b hne), fun i ↦ Heap.live_of_store hset⟩
    · rw [remove, if_neg hfirst, hsearch, ok_bind, removeAfter, Heap.get_of_holds hc, ok_bind]
      dsimp only
      rw [Heap.get_of_holds hb, ok_bind, hset, ok_bind, pure_eq_ok]
    · rw [List.append_assoc, List.singleton_append]
      exact hl.relink (@IsChain.right _ h p (l₀ ++ [(c, a'), (b, a)]) l₂ (by simpa using hl)) hc'
        hother hsep.1 hsep.2

end Operations

end Chain

end Aesd
