import Aesd.Driver.Represents

/-!
# What a write does

`aesdWrite_spec` says everything one `aesd_write` can do to a represented state: `WriteOutcome`
has one case for each exit of the function, with the inputs that lead there, what the memory
represents afterwards, and which blocks are live. A write either has one of these outcomes or is
the one call that leaves the semantics of C, a write of no bytes with no bytes pending, which
reads the byte before an empty block.

## The stages

The function grows the pending entry, copies the payload behind the pending bytes, looks at the last
byte, and stores the entry when that is a newline. Each stage has a lemma of its own
(`growEntry_of_allocates`, `copyFromUser_spec`, `load_last`, `commitEntry_spec`), about the memory
in between, where the pending bytes are in a new block and the ring has not changed.

## What is in an outcome

The cases say which blocks are live as an equivalence, not as an inclusion. This is what tells
apart a block that was freed from one that was forgotten, and lets `Ownership` count what leaks.
-/

namespace Aesd

open AesdCircularBuffer Segments

/-! ## The inputs of a write -/

namespace WriteCall

/-- The allocator serves the write when `part` bytes are pending. -/
def Allocates (w : WriteCall) (part : ℕ) : Prop :=
  w.granted = true ∧ part + w.payload.length ≤ kmallocMaxSize

instance (w : WriteCall) (part : ℕ) : Decidable (w.Allocates part) :=
  inferInstanceAs (Decidable (_ ∧ _))

def Copies (w : WriteCall) : Prop := copied w.copy w.payload.length = w.payload.length

instance (w : WriteCall) : Decidable w.Copies := inferInstanceAs (Decidable (_ = _))

theorem toNat_count (w : WriteCall) : w.count.toNat = w.payload.length :=
  toNat_ofNat_of_lt (by have := w.payload_lt; omega)

theorem toInt_count (w : WriteCall) : w.count.toInt64.toInt = w.payload.length := by
  rw [toInt_toInt64_of_lt (by rw [toNat_count]; exact w.payload_lt), toNat_count]

end WriteCall

namespace Driver

/-- The block that the next commit frees, if it frees one. -/
def evicted (d : Driver) : Option ℕ :=
  if d.ring.full then (d.ring.entry (d.ring.slotOfRank 0)).buffptr else none

/-- The running size after a commit of an entry of `len` bytes, of which the last write brought
`count`. -/
def sizeAfterCommit (d : Driver) (len count : UInt64) : Int64 :=
  if d.ring.full then
    ((d.dev.size.toUInt64 - len).toInt64.toUInt64 + count).toInt64
  else (d.dev.size.toUInt64 + count).toInt64

end Driver

/-! ## Storing a finished command -/

theorem live_eq_cons {b : AesdCircularBuffer} (hf : b.full = true) :
    ∃ rest, b.live = b.entry (b.slotOfRank 0) :: rest := by
  have hlen : 0 < b.live.length := by rw [length_live, liveCount_of_full hf]; omega
  cases hl : b.live with
  | nil => rw [hl] at hlen; simp at hlen
  | cons e rest =>
    have h0 := getElem_live hlen
    simp only [hl, List.getElem_cons_zero] at h0
    exact ⟨rest, by rw [h0]⟩

section Commit

variable {d : Driver} {cmds : List (List UInt8)} {xs : List UInt8}

namespace Stores

theorem find_oldest (h : Stores d cmds xs) (hf : d.ring.full = true) :
    aesdCircularBufferFindEntryOffsetForFpos d.ring 0 0 = .ok (some (d.ring.slotOfRank 0), 0) := by
  have hcmds : 0 < cmds.length := by rw [h.length_eq, liveCount_of_full hf]; omega
  have hidx : 0 < d.ring.sizes.length := by rw [h.sizes_eq]; simpa using hcmds
  have hpos : 0 < d.ring.sizes[0] := by
    simp only [h.sizes_eq, List.getElem_map]
    exact (h.held_of_rank hcmds).length_pos
  have hloc : locate d.ring.sizes (0 : UInt64).toNat = some (0, 0) :=
    locate_eq_some_iff.mpr ⟨hidx, hpos, position_zero _ _⟩
  exact find_of_locate h.wf (by have := h.total_lt; omega) 0 hloc

private theorem evicted_spec (h : Stores d cmds xs) {p : ℕ} (hp : d.evicted = some p) :
    d.heap.Live p ∧ d.dev.entry ≠ some p ∧
      p ∉ ((d.ring.live ++ [d.pending]).rtake 10).filterMap AesdBufferEntry.buffptr := by
  have hf : d.ring.full = true := by
    by_contra hf
    rw [Driver.evicted, if_neg hf] at hp
    cases hp
  rw [Driver.evicted, if_pos hf] at hp
  obtain ⟨rest, hrest⟩ := live_eq_cons hf
  have hring : d.ringBlocks = p :: rest.filterMap AesdBufferEntry.buffptr := by
    rw [Driver.ringBlocks, hrest, List.filterMap_cons, hp]
  have hlen : d.ring.live.length = 10 := by rw [length_live, liveCount_of_full hf]
  have hkept : (d.ring.live ++ [d.pending]).rtake 10 = rest ++ [d.pending] := by
    rw [List.rtake, List.length_append, hlen, hrest]
    rfl
  have hmem : p ∈ d.ringBlocks := by
    rw [hring]
    exact List.mem_cons_self
  have hnodup := h.nodup_ringBlocks
  rw [hring, List.nodup_cons] at hnodup
  refine ⟨h.mem_ringBlocks_live hmem, h.entry_ne (.inr hmem), ?_⟩
  -- neither the other entries nor the pending one, which takes the last place, have its block
  rw [hkept, List.filterMap_append, List.mem_append, not_or]
  refine ⟨hnodup.1, fun hlast ↦ h.pending_ne hmem ?_⟩
  obtain ⟨e, he, hbuf⟩ := List.mem_filterMap.mp hlast
  rwa [List.mem_singleton.mp he] at hbuf

private theorem kfree_evicted (h : Stores d cmds xs) :
    ∃ heap, kfree d.heap d.evicted = .ok heap ∧
      ∀ i, heap.cells i = if d.evicted = some i then none else d.heap.cells i := by
  cases hev : d.evicted with
  | none => exact ⟨d.heap, rfl, fun i ↦ by simp⟩
  | some p =>
    obtain ⟨heap, hfree, hnone, -, hkeep⟩ := Heap.free_of_live (h.evicted_spec hev).1
    refine ⟨heap, hfree, fun i ↦ ?_⟩
    by_cases hi : p = i
    · rw [if_pos (by rw [hi]), ← hi, hnone]
    · rw [if_neg (by simpa using hi), hkeep i (Ne.symm hi)]

private theorem represents_commit (h : Stores d cmds xs) (hx : xs ≠ [])
    {ring : AesdCircularBuffer} (hwf : ring.WF)
    (hlive : ring.live = (d.ring.live ++ [d.pending]).rtake 10) {heap : Heap UInt8}
    (hcells : ∀ i, heap.cells i = if d.evicted = some i then none else d.heap.cells i)
    (size : Int64) :
    Represents ⟨heap, ⟨ring, d.dev.entry, size⟩, ⟨none, 0⟩⟩ ((cmds ++ [xs]).rtake 10) [] := by
  have hpending : Held d.heap d.pending xs := h.pending.resolve_left fun hp ↦ hx hp.1
  -- the pending block moves to the ring, so no block is referred to that was not before
  have hblocks : (((d.ring.live ++ [d.pending]).rtake 10).filterMap AesdBufferEntry.buffptr).Sublist
      (d.ringBlocks ++ d.pending.buffptr.toList) := by
    obtain ⟨q, hq, -⟩ := hpending.holds
    have hall : (d.ring.live ++ [d.pending]).filterMap AesdBufferEntry.buffptr
        = d.ringBlocks ++ d.pending.buffptr.toList := by
      rw [List.filterMap_append, Driver.ringBlocks, List.filterMap_cons, List.filterMap_nil, hq]
      rfl
    rw [← hall]
    exact (List.drop_sublist _ _).filterMap _
  refine ⟨⟨hwf, ?_, .inl ⟨rfl, rfl⟩, ?_, ?_⟩, by simp⟩
  · have hlen : (cmds ++ [xs]).length = (d.ring.live ++ [d.pending]).length := by
      simp [h.held.length_eq]
    show List.Forall₂ (Held heap) ring.live _
    rw [hlive]
    refine @frame_of_held d.heap _ _ heap ?_ fun p hp ↦ ?_
    · rw [List.rtake, List.rtake, hlen]
      exact List.forall₂_drop _ (List.rel_append h.held (.cons hpending .nil))
    · rw [hcells, if_neg fun hev ↦ (h.evicted_spec hev).2.2 hp]
  · obtain ⟨p, hp, hplive⟩ := h.entry
    refine ⟨p, hp, ?_⟩
    have hne : d.evicted ≠ some p := fun hev ↦ (h.evicted_spec hev).2.1 hp
    rw [Heap.Live, hcells, if_neg hne]
    exact hplive
  · have hnodup := h.nodup
    rw [Driver.blocks, (List.Perm.append_left _ List.perm_append_comm).nodup_iff] at hnodup
    refine hnodup.sublist (List.Sublist.append_left ?_ _)
    show (ring.live.filterMap AesdBufferEntry.buffptr).Sublist _
    rw [hlive]
    exact hblocks

/-- **Storing a finished command.** The command is appended, the oldest of eleven is dropped and
its block freed, and the entry structure is empty again. -/
theorem commitEntry_spec (h : Stores d cmds xs) (hx : xs ≠ []) (count : UInt64) :
    ∃ heap ring, commitEntry d count
        = .ok ⟨heap, ⟨ring, d.dev.entry, d.sizeAfterCommit d.pending.size count⟩, ⟨none, 0⟩⟩ ∧
      Represents ⟨heap, ⟨ring, d.dev.entry, d.sizeAfterCommit d.pending.size count⟩, ⟨none, 0⟩⟩
        ((cmds ++ [xs]).rtake 10) [] ∧
      ring.live = (d.ring.live ++ [d.pending]).rtake 10 ∧
      (ring.full = true ↔ 9 ≤ d.ring.liveCount) ∧
      ∀ i, heap.Live i ↔ d.heap.Live i ∧ d.evicted ≠ some i := by
  obtain ⟨ring, hadd, hwf, hlive, hfull, hentry⟩ := addEntry_spec h.wf d.pending
  obtain ⟨heap, hfree, hcells⟩ := h.kfree_evicted
  refine ⟨heap, ring, ?_, h.represents_commit hx hwf hlive hcells _, hlive, hfull, fun i ↦ ?_⟩
  · rw [commitEntry]
    cases hf : d.ring.full with
    | true =>
      rw [Driver.evicted, if_pos hf] at hfree
      rw [Driver.sizeAfterCommit, if_pos hf, if_pos rfl, h.find_oldest hf, ok_bind]
      simp only [hadd, ok_bind, hfree, hentry hf, Function.update_self, pure_eq_ok]
    | false =>
      rw [Driver.evicted, if_neg (by simp [hf])] at hfree
      obtain rfl : d.heap = heap := by simpa [kfree] using hfree
      rw [if_neg Bool.false_ne_true, Driver.sizeAfterCommit, if_neg (by simp [hf]), hadd, ok_bind,
        pure_eq_ok]
  · rw [Heap.Live, Heap.Live, hcells]
    by_cases hev : d.evicted = some i <;> simp [hev]

end Stores

end Commit

/-! ## Growing the entry -/

section Grow

variable {d : Driver} {cmds : List (List UInt8)} {part : List UInt8} {w : WriteCall}

namespace Stores

theorem toNat_newSize (h : Stores d cmds part) (w : WriteCall) :
    (d.pending.size + w.count).toNat = part.length + w.payload.length := by
  have hle := h.pending.length_le
  have hlt := w.payload_lt
  rw [kmallocMaxSize] at hle
  rw [toNat_add_of_lt (by rw [h.pending.size_eq, w.toNat_count]; omega), h.pending.size_eq,
    w.toNat_count]

theorem growEntry_of_refused (h : Stores d cmds part) (halloc : ¬w.Allocates part.length) :
    growEntry d.heap d.pending w = .ok (d.heap, none) := by
  rw [WriteCall.Allocates] at halloc
  rw [growEntry]
  cases hbuf : d.pending.buffptr with
  | none =>
    rw [h.pending.buffptr_eq_none_iff.mp hbuf, List.length_nil, Nat.zero_add] at halloc
    simp only [kmalloc, w.toNat_count]
    rw [if_neg halloc]
  | some p =>
    simp only [krealloc, h.toNat_newSize w]
    rw [if_neg halloc]

/-- A granted allocation hands out a fresh block with the pending bytes in front and takes back
the block they were in. -/
theorem growEntry_of_allocates (h : Stores d cmds part)
    (halloc : w.Allocates part.length) :
    ∃ heap, growEntry d.heap d.pending w = .ok (heap, some d.heap.next) ∧
      heap.cells d.heap.next
        = some (part.map some ++ List.replicate w.payload.length none) ∧
      ∀ i, i ≠ d.heap.next →
        heap.cells i = if d.pending.buffptr = some i then none else d.heap.cells i := by
  rw [WriteCall.Allocates] at halloc
  rw [growEntry]
  cases hbuf : d.pending.buffptr with
  | none =>
    obtain rfl := h.pending.buffptr_eq_none_iff.mp hbuf
    rw [List.length_nil, Nat.zero_add] at halloc
    refine ⟨(d.heap.malloc w.payload.length).1, ?_, Heap.place_cells_self .., fun i hi ↦ ?_⟩
    · simp only [kmalloc, w.toNat_count]
      rw [if_pos halloc]
      rfl
    · rw [if_neg (by simp)]
      exact Heap.place_cells_of_ne _ _ hi
  | some p =>
    have hheld : Held d.heap d.pending part := h.pending.resolve_left fun hp ↦ by
      rw [hp.2] at hbuf
      cases hbuf
    obtain ⟨q, hq, hholds⟩ := hheld.holds
    obtain rfl : p = q := Option.some.inj (hbuf.symm.trans hq)
    obtain ⟨heap, hrealloc, hnone, -, hnew, hkeep⟩ :=
      Heap.realloc_of_holds hholds (n := part.length + w.payload.length) (Nat.le_add_right ..)
    refine ⟨heap, ?_, ?_, fun i hi ↦ ?_⟩
    · simp only [krealloc, h.toNat_newSize w]
      rw [if_pos halloc, hrealloc]
    · rw [hnew, Nat.add_sub_cancel_left]
    · by_cases hip : p = i
      · rw [if_pos (by rw [hip]), ← hip, hnone]
      · rw [if_neg (by simpa using hip), hkeep i (Ne.symm hip) hi]

end Stores

theorem copyFromUser_spec {heap : Heap UInt8} {p : ℕ} {part src : List UInt8}
    (hcells : heap.cells p = some (part.map some ++ List.replicate src.length none))
    (limit : Option ℕ) :
    ∃ heap' xs, copyFromUser heap p part.length src limit
        = .ok (heap', src.length - copied limit src.length) ∧
      (copied limit src.length = src.length → xs = src) ∧ heap'.Holds p (part ++ xs) ∧
      ∀ i, i ≠ p → heap'.cells i = heap.cells i := by
  have hle := copied_le limit src.length
  obtain ⟨xs, hdef⟩ : ∃ xs, xs = src.take (copied limit src.length)
    ++ List.replicate (src.length - copied limit src.length) 0 := ⟨_, rfl⟩
  have hxs : xs.length = src.length := by
    rw [hdef, List.length_append, List.length_take, List.length_replicate]
    omega
  have hfit : part.length + xs.length
      ≤ (part.map some ++ List.replicate src.length none).length := by simp [hxs]
  obtain ⟨heap', hstore, -, hself, hkeep⟩ := Heap.store_of_cells hcells hfit
  refine ⟨heap', xs, ?_, fun hall ↦ ?_, ?_, hkeep⟩
  · rw [copyFromUser, ← hdef, hstore]
  · rw [hdef, hall, List.take_length, Nat.sub_self, List.replicate_zero, List.append_nil]
  · rw [Heap.Holds, hself, List.take_append_of_le_length (by simp),
      List.take_of_length_le (by simp), List.drop_of_length_le (by simp [hxs]), List.append_nil,
      List.map_append]

end Grow

/-! ## One write -/

section Write

variable (d : Driver) (cmds : List (List UInt8)) (part : List UInt8) (w : WriteCall)
  (fpos : Int64)

/-- **The exits of `aesd_write`** on a memory that represents `cmds` and `part`. -/
inductive WriteOutcome : WriteResult → Prop
  /-- The wait for the mutex was interrupted. -/
  | interrupted (hint : w.interrupted = true) :
      WriteOutcome ⟨d, -Errno.erestartsys, fpos⟩
  /-- The allocation failed. The pending bytes are no longer referred to, and their block stays
  live. -/
  | refused (hint : w.interrupted = false) (halloc : ¬w.Allocates part.length)
      (hrep : Represents ⟨d.heap, d.dev, ⟨none, 0⟩⟩ cmds []) :
      WriteOutcome ⟨⟨d.heap, d.dev, ⟨none, 0⟩⟩, -Errno.enomem, fpos⟩
  /-- The user copy failed. The pending bytes are freed. -/
  | faulted {heap : Heap UInt8} (hint : w.interrupted = false)
      (halloc : w.Allocates part.length) (hcopy : ¬w.Copies)
      (hrep : Represents ⟨heap, d.dev, ⟨none, 0⟩⟩ cmds [])
      (hlive : ∀ i, heap.Live i ↔ d.heap.Live i ∧ d.pending.buffptr ≠ some i) :
      WriteOutcome ⟨⟨heap, d.dev, ⟨none, 0⟩⟩, -Errno.efault, fpos⟩
  /-- The payload was appended and the command goes on. -/
  | continued {heap : Heap UInt8} (hint : w.interrupted = false)
      (halloc : w.Allocates part.length) (hcopy : w.Copies)
      (hlast : w.payload.getLast? ≠ some newline)
      (hrep : Represents ⟨heap, d.dev, ⟨some d.heap.next, d.pending.size + w.count⟩⟩ cmds
        (part ++ w.payload))
      (hlive : ∀ i, heap.Live i
        ↔ i = d.heap.next ∨ d.heap.Live i ∧ d.pending.buffptr ≠ some i) :
      WriteOutcome ⟨⟨heap, d.dev, ⟨some d.heap.next, d.pending.size + w.count⟩⟩,
        w.count.toInt64, fpos + w.count.toInt64⟩
  /-- The payload ended the command, which was stored. -/
  | closed {heap : Heap UInt8} {ring : AesdCircularBuffer} (hint : w.interrupted = false)
      (halloc : w.Allocates part.length) (hcopy : w.Copies)
      (hlast : w.payload.getLast? = some newline)
      (hrep : Represents ⟨heap, ⟨ring, d.dev.entry,
          d.sizeAfterCommit (d.pending.size + w.count) w.count⟩, ⟨none, 0⟩⟩
        ((cmds ++ [part ++ w.payload]).rtake 10) [])
      (hring : ring.live = (d.ring.live
        ++ [AesdBufferEntry.mk (some d.heap.next) (d.pending.size + w.count)]).rtake 10)
      (hfull : ring.full = true ↔ 9 ≤ d.ring.liveCount)
      (hlive : ∀ i, heap.Live i ↔ i = d.heap.next ∨
        d.heap.Live i ∧ d.pending.buffptr ≠ some i ∧ d.evicted ≠ some i) :
      WriteOutcome ⟨⟨heap, ⟨ring, d.dev.entry,
          d.sizeAfterCommit (d.pending.size + w.count) w.count⟩, ⟨none, 0⟩⟩,
        w.count.toInt64, fpos + w.count.toInt64⟩

variable {d cmds part w fpos}

/-- Dropping the pending entry keeps what the ring represents, on every heap that agrees on the
blocks other than the pending one. -/
private theorem Represents.drop_pending (h : Represents d cmds part) {heap : Heap UInt8}
    (hcells : ∀ i, d.heap.Live i → d.pending.buffptr ≠ some i → heap.cells i = d.heap.cells i) :
    Represents ⟨heap, d.dev, ⟨none, 0⟩⟩ cmds [] := by
  obtain ⟨p, hp, hlive⟩ := h.entry
  refine ⟨⟨h.wf, ?_, .inl ⟨rfl, rfl⟩, ⟨p, hp, ?_⟩, ?_⟩, by simp⟩
  · exact frame_of_held h.held fun i hi ↦ hcells i (h.mem_ringBlocks_live hi) (h.pending_ne hi)
  · rw [Heap.Live, hcells p hlive fun hbuf ↦ h.entry_ne (.inl hbuf) hp]
    exact hlive
  · exact h.nodup.sublist (List.Sublist.append_left (List.sublist_append_right _ _) _)

private theorem Represents.stores_grown (h : Represents d cmds part)
    (halloc : w.Allocates part.length) (hne : part ++ w.payload ≠ []) {heap : Heap UInt8}
    (hnew : heap.Holds d.heap.next (part ++ w.payload))
    (hcells : ∀ i, d.heap.Live i → d.pending.buffptr ≠ some i → heap.cells i = d.heap.cells i) :
    Stores ⟨heap, d.dev, ⟨some d.heap.next, d.pending.size + w.count⟩⟩ cmds
      (part ++ w.payload) := by
  have hdrop := h.drop_pending hcells
  refine ⟨h.wf, hdrop.held, .inr ⟨⟨_, rfl, hnew⟩, ?_, hne, ?_⟩, hdrop.entry, ?_⟩
  · rw [h.toNat_newSize w, List.length_append]
  · rw [List.length_append]
    exact halloc.2
  · have hnodup := hdrop.nodup
    have hring : d.heap.next ∉ d.ringBlocks := fun hmem ↦
      d.heap.not_live_next (h.mem_ringBlocks_live hmem)
    obtain ⟨p, hp, hlive⟩ := h.entry
    rw [Driver.blocks] at hnodup ⊢
    simp only [hp, Option.toList_some, Option.toList_none, List.nil_append, List.singleton_append,
      List.nodup_cons] at hnodup ⊢
    refine ⟨?_, hring, hnodup.2⟩
    rw [List.mem_cons, not_or]
    exact ⟨Heap.ne_next_of_live hlive, hnodup.1⟩

theorem load_last {heap : Heap UInt8} {p : ℕ} {xs : List UInt8} {size : UInt64}
    (hholds : heap.Holds p xs) (hsize : size.toNat = xs.length) (hne : xs ≠ []) :
    ∃ b, heap.load p (size - 1).toNat 1 = .ok [b] ∧ xs.getLast? = some b := by
  have hpos := List.length_pos_of_ne_nil hne
  have hsub : (size - 1).toNat = xs.length - 1 := by
    rw [toNat_sub_of_le (by rw [hsize]; exact hpos), hsize]
    rfl
  refine ⟨xs.getLast hne, ?_, List.getLast?_eq_some_getLast hne⟩
  rw [hsub, Heap.load_of_holds hholds (by omega), List.drop_length_sub_one hne]
  rfl

/-- On an empty block the newline test reads out of bounds: `size - 1` wraps. -/
theorem load_last_nil {heap : Heap UInt8} {p : ℕ} {size : UInt64}
    (hholds : heap.Holds p []) (hsize : size.toNat = 0) :
    heap.load p (size - 1).toNat 1 = .error .outOfBounds := by
  obtain rfl : size = 0 := UInt64.toNat_inj.mp hsize
  have hcells : heap.cells p = some [] := hholds
  rw [Heap.load, hcells]
  rfl

/-- The heap after the pending bytes moved to the fresh block and the user copy was made: outside
that block it differs from the heap before only in that the old block is gone. -/
private structure Grown (d : Driver) (heap : Heap UInt8) (xs : List UInt8) : Prop where
  holds : heap.Holds d.heap.next xs
  cells : ∀ i, i ≠ d.heap.next →
    heap.cells i = if d.pending.buffptr = some i then none else d.heap.cells i

namespace Grown

variable {heap : Heap UInt8} {xs : List UInt8}

private theorem cells_of_live (hg : Grown d heap xs) {i : ℕ} (hi : d.heap.Live i)
    (hne : d.pending.buffptr ≠ some i) : heap.cells i = d.heap.cells i := by
  rw [hg.cells i (Heap.ne_next_of_live hi), if_neg hne]

private theorem live_iff_of_ne (hg : Grown d heap xs) {i : ℕ} (hi : i ≠ d.heap.next) :
    heap.Live i ↔ d.heap.Live i ∧ d.pending.buffptr ≠ some i := by
  rw [Heap.Live, Heap.Live, hg.cells i hi]
  by_cases hbuf : d.pending.buffptr = some i <;> simp [hbuf]

private theorem live_iff (hg : Grown d heap xs) (i : ℕ) :
    heap.Live i ↔ i = d.heap.next ∨ d.heap.Live i ∧ d.pending.buffptr ≠ some i := by
  by_cases hi : i = d.heap.next
  · simp [hi, hg.holds.live]
  · simp [hi, hg.live_iff_of_ne hi]

end Grown

private theorem write_faulted (h : Represents d cmds part) (hint : w.interrupted = false)
    (halloc : w.Allocates part.length) (hcopies : ¬w.Copies) {heap : Heap UInt8} {xs : List UInt8}
    (hg : Grown d heap xs) (fpos : Int64) :
    ∃ heap', kfree heap (some d.heap.next) = .ok heap' ∧
      WriteOutcome d cmds part w fpos ⟨⟨heap', d.dev, ⟨none, 0⟩⟩, -Errno.efault, fpos⟩ := by
  obtain ⟨heap', hfree, hnone, -, hkeep⟩ := Heap.free_of_live hg.holds.live
  have hkeep' : ∀ i, i ≠ d.heap.next → heap'.cells i = heap.cells i := hkeep
  refine ⟨heap', hfree, .faulted hint halloc hcopies (h.drop_pending fun i hi hne ↦ ?_)
    fun i ↦ ?_⟩
  · rw [hkeep' i (Heap.ne_next_of_live hi), hg.cells_of_live hi hne]
  · by_cases hi : i = d.heap.next
    · -- the fresh block was not live before, and is not any more
      rw [hi]
      simp [Heap.Live, hnone, show d.heap.cells d.heap.next = none from d.heap.fresh _ le_rfl]
    · rw [← hg.live_iff_of_ne hi, Heap.Live, Heap.Live, hkeep' i hi]

/-- A write whose user copy went through looks at the last byte of the block, and stores the
command when that is a newline. -/
private theorem write_copied (h : Represents d cmds part) (hint : w.interrupted = false)
    (halloc : w.Allocates part.length) (hcopies : w.Copies) {heap : Heap UInt8}
    (hg : Grown d heap (part ++ w.payload)) (hne : part ++ w.payload ≠ []) (fpos : Int64) :
    ∃ b stored, heap.load d.heap.next (d.pending.size + w.count - 1).toNat 1 = .ok [b] ∧
      (if b = newline then
          commitEntry ⟨heap, d.dev, ⟨some d.heap.next, d.pending.size + w.count⟩⟩ w.count
            = .ok stored
        else stored = ⟨heap, d.dev, ⟨some d.heap.next, d.pending.size + w.count⟩⟩) ∧
      WriteOutcome d cmds part w fpos ⟨stored, w.count.toInt64, fpos + w.count.toInt64⟩ := by
  have hstores := h.stores_grown halloc hne hg.holds fun i hi hne ↦ hg.cells_of_live hi hne
  obtain ⟨b, hload, hlast⟩ := load_last hg.holds
    (by rw [h.toNat_newSize w, List.length_append]) hne
  -- pending bytes do not end in a newline, so the last byte of the block speaks for the payload
  have hends : w.payload.getLast? = some newline ↔ b = newline := by
    have hb : (part ++ w.payload).getLast? = some newline ↔ b = newline := by
      rw [hlast, Option.some.injEq]
    rw [← hb, List.getLast?_append]
    cases hp : w.payload.getLast? with
    | some c => simp
    | none => simp [h.part_open]
  by_cases hnl : b = newline
  · obtain ⟨heap', ring, hcommit, hrep, hring, hfull, hlive⟩ :=
      hstores.commitEntry_spec hne w.count
    refine ⟨b, _, hload, (if_pos hnl).mpr hcommit,
      .closed hint halloc hcopies (hends.mpr hnl) hrep hring hfull fun i ↦ ?_⟩
    have hev : Driver.evicted ⟨heap, d.dev, ⟨some d.heap.next, d.pending.size + w.count⟩⟩
        = d.evicted := rfl
    rw [hlive, hg.live_iff i, hev]
    by_cases hi : i = d.heap.next
    · simp only [hi, true_or, true_and]
      exact iff_of_true (fun hev ↦ d.heap.not_live_next (h.evicted_spec hev).1) trivial
    · simp [hi, and_assoc]
  · refine ⟨b, _, hload, (if_neg hnl).mpr rfl, ?_⟩
    exact .continued hint halloc hcopies (mt hends.mp hnl)
      ⟨hstores, by rw [hlast]; simpa using hnl⟩ hg.live_iff

/-- **Every write has one of the outcomes**, but for the write of no bytes with none pending. -/
theorem aesdWrite_spec (h : Represents d cmds part) (w : WriteCall) (fpos : Int64) :
    (∃ r, aesdWrite d w fpos = .ok r ∧ WriteOutcome d cmds part w fpos r) ∨
      (part = [] ∧ w.payload = [] ∧ aesdWrite d w fpos = .error .outOfBounds) := by
  rw [aesdWrite]
  cases hint : w.interrupted with
  | true => exact .inl ⟨_, rfl, .interrupted hint⟩
  | false =>
  rw [if_neg Bool.false_ne_true, h.entryStruct_eq, ok_bind]
  by_cases halloc : w.Allocates part.length
  swap
  · rw [h.growEntry_of_refused halloc, ok_bind]
    exact .inl ⟨_, rfl, .refused hint halloc (h.drop_pending fun _ _ _ ↦ rfl)⟩
  obtain ⟨heap, hgrow, hnew, hkeep⟩ := h.growEntry_of_allocates halloc
  obtain ⟨heap', xs, hcopy, hxs, hholds, hkeep'⟩ := copyFromUser_spec hnew w.copy
  have hg : Grown d heap' (part ++ xs) := ⟨hholds, fun i hi ↦ by rw [hkeep' i hi, hkeep i hi]⟩
  simp only [hgrow, ok_bind, h.pending.size_eq, hcopy]
  by_cases hcopies : w.Copies
  swap
  · obtain ⟨heap'', hfree, hout⟩ := write_faulted h hint halloc hcopies hg fpos
    rw [WriteCall.Copies] at hcopies
    have hle := copied_le w.copy w.payload.length
    rw [if_pos (by omega), hfree, ok_bind]
    exact .inl ⟨_, rfl, hout⟩
  obtain rfl := hxs hcopies
  rw [if_neg (by rw [hcopies]; omega)]
  by_cases hne : part ++ w.payload = []
  · -- the source looks for the last byte of an empty block
    obtain ⟨hpart, hpay⟩ := List.append_eq_nil_iff.mp hne
    refine .inr ⟨hpart, hpay, ?_⟩
    rw [hne] at hholds
    rw [load_last_nil hholds (by rw [h.toNat_newSize w, hpart, hpay]; rfl), error_bind]
  · obtain ⟨b, stored, hload, hstored, hout⟩ := write_copied h hint halloc hcopies hg hne fpos
    rw [hload, ok_bind]
    refine .inl ⟨_, ?_, hout⟩
    by_cases hnl : b = newline
    · rw [if_pos hnl] at hstored
      rw [if_pos (by rw [hnl]), hstored, ok_bind, pure_eq_ok]
    · rw [if_neg hnl] at hstored
      rw [if_neg (by simpa using hnl), hstored, pure_eq_ok]

/-- What a write that returned has done. -/
theorem WriteOutcome.of_ok (h : Represents d cmds part) {r : WriteResult}
    (hr : aesdWrite d w fpos = .ok r) : WriteOutcome d cmds part w fpos r := by
  rcases aesdWrite_spec h w fpos with ⟨r', hr', hout⟩ | ⟨-, -, hr'⟩
  · rw [hr, Except.ok.injEq] at hr'
    exact hr' ▸ hout
  · rw [hr] at hr'
    cases hr'

theorem WriteOutcome.of_closing {r : WriteResult} (hout : WriteOutcome d cmds part w fpos r)
    (hret : 0 ≤ r.ret.toInt) (hlast : w.payload.getLast? = some newline) :
    Represents r.driver ((cmds ++ [part ++ w.payload]).rtake 10) [] ∧
      ∀ i, r.driver.heap.Live i ↔ i = d.heap.next ∨
        d.heap.Live i ∧ d.pending.buffptr ≠ some i ∧ d.evicted ≠ some i := by
  cases hout with
  | interrupted => exact absurd hret (show ¬0 ≤ (-Errno.erestartsys).toInt by decide)
  | refused => exact absurd hret (show ¬0 ≤ (-Errno.enomem).toInt by decide)
  | faulted => exact absurd hret (show ¬0 ≤ (-Errno.efault).toInt by decide)
  | continued _ _ _ hne => exact absurd hlast hne
  | closed _ _ _ _ hrep _ _ hlive => exact ⟨hrep, hlive⟩

theorem aesdWrite_total (h : Represents d cmds part) (w : WriteCall) (fpos : Int64)
    (hne : w.payload ≠ []) :
    ∃ r, aesdWrite d w fpos = .ok r ∧ WriteOutcome d cmds part w fpos r :=
  (aesdWrite_spec h w fpos).resolve_right fun hw ↦ hne hw.2.1

end Write

end Aesd
