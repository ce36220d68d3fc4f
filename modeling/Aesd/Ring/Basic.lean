import Aesd.Foundation.Heap
import Aesd.Foundation.Loop

/-!
# The circular buffer of write commands

`aesd-circular-buffer.h` and `aesd-circular-buffer.c`. The buffer is an array of ten entries with
an offset to write at, an offset to read from, and a flag that tells a full buffer from an empty
one when the two offsets agree.

## Pointers

A pointer to an entry is an array slot (`Slot`), not a copy of what was in it. So a pointer that is
kept while the buffer is overwritten reads the new contents, as it does in the source, where the
driver looks up the oldest entry before it adds a new one and reads its size afterwards.

## The traversal

`AESD_CIRCULAR_BUFFER_FOREACH` is a macro around a `for` statement; here it is a function of the
loop body, which goes on with a new state or returns. Its guard compares offsets that were not
reduced modulo ten, and needs a flag of its own to get past the start of a full buffer. On an
arbitrary triple of offsets and flag it need not become false, so the loop runs on fuel.

The offsets and the loop index are `uint8_t` in the source; the code resets them at ten, so natural
numbers stand for them.
-/

namespace Aesd

/-- `AESDCHAR_MAX_WRITE_OPERATIONS_SUPPORTED`. -/
abbrev aesdcharMaxWriteOperationsSupported : ℕ := 10

structure AesdBufferEntry where
  /-- The block that holds the bytes, or `NULL`. -/
  buffptr : Option ℕ
  /-- The number of bytes, a `size_t`. -/
  size : UInt64
  deriving DecidableEq, Repr

/-- A pointer into the entry array. -/
abbrev Slot := Fin aesdcharMaxWriteOperationsSupported

structure AesdCircularBuffer where
  entry : Slot → AesdBufferEntry
  /-- Where the next entry is stored. -/
  inOffs : ℕ
  /-- Where reading starts. -/
  outOffs : ℕ
  full : Bool

namespace AesdCircularBuffer

/-- The slot `k % AESDCHAR_MAX_WRITE_OPERATIONS_SUPPORTED`. -/
def slotAt (k : ℕ) : Slot := ⟨k % aesdcharMaxWriteOperationsSupported, Nat.mod_lt _ (by decide)⟩

/-- An offset incremented and reset when it leaves the array. -/
def nextOffs (offs : ℕ) : ℕ :=
  if offs + 1 ≥ aesdcharMaxWriteOperationsSupported then 0 else offs + 1

end AesdCircularBuffer

open AesdCircularBuffer

/-- `aesd_circular_buffer_init`: every byte of the structure is zero. -/
def aesdCircularBufferInit : AesdCircularBuffer where
  entry _ := ⟨none, 0⟩
  inOffs := 0
  outOffs := 0
  full := false

/-- `aesd_circular_buffer_add_entry`. -/
def aesdCircularBufferAddEntry (buffer : AesdCircularBuffer) (addEntry : AesdBufferEntry) :
    Except Fault AesdCircularBuffer :=
  if h : buffer.inOffs < aesdcharMaxWriteOperationsSupported then
    let entry := Function.update buffer.entry ⟨buffer.inOffs, h⟩ addEntry
    let inOffs := nextOffs buffer.inOffs
    if buffer.full then
      .ok { buffer with entry, inOffs, outOffs := nextOffs buffer.outOffs }
    else if inOffs = buffer.outOffs then
      .ok { buffer with entry, inOffs, full := true }
    else
      .ok { buffer with entry, inOffs }
  else .error .outOfBounds

/-! ## The traversal macro -/

section Foreach

variable {σ β : Type}

/-- One evaluation of the guard and, when it holds, of the body and the increment. The state is
the loop index, the flag `pass`, and the variables of the body. -/
def foreachPass (buffer : AesdCircularBuffer) (body : σ → ℕ → Slot → σ ⊕ β) :
    ℕ × Bool × σ → Except Fault ((ℕ × Bool × σ) ⊕ (σ ⊕ β))
  | (index, pass, s) =>
    -- the entry pointer is an address inside the array, so its own test never fails
    if index + buffer.outOffs ≠ buffer.inOffs ∨ pass = true then
      match body s index (slotAt (index + buffer.outOffs)) with
      | .inl s' => .ok (.inl ((index + 1) % aesdcharMaxWriteOperationsSupported, false, s'))
      | .inr r => .ok (.inr (.inr r))
    else .ok (.inr (.inl s))

/-- `AESD_CIRCULAR_BUFFER_FOREACH`. The result is the final state when the loop ends by its guard,
and the returned value when the body returns. -/
def aesdCircularBufferForeach (buffer : AesdCircularBuffer) (body : σ → ℕ → Slot → σ ⊕ β)
    (fuel : ℕ) (s : σ) : Except Fault (σ ⊕ β) :=
  Loop.run .outOfFuel (foreachPass buffer body) fuel (0, buffer.full, s)

end Foreach

/-- A bound on the guard evaluations of one traversal: one for each slot and one to leave. -/
def foreachFuel : ℕ := aesdcharMaxWriteOperationsSupported + 1

/-- The loop body of the lookup, whose variable is `total_size`. -/
def findEntryBody (buffer : AesdCircularBuffer) (charOffset totalSize : UInt64) (_index : ℕ)
    (slot : Slot) : UInt64 ⊕ (Slot × UInt64) :=
  if totalSize + (buffer.entry slot).size > charOffset then .inr (slot, charOffset - totalSize)
  else .inl (totalSize + (buffer.entry slot).size)

/-- `aesd_circular_buffer_find_entry_offset_for_fpos`, for pointers that are not `NULL`: the slot
of the entry, if there is one, and the value of `*entry_offset_byte_rtn` after the call. The test
`char_offset < 0` of the source is never true of a `size_t`. -/
def aesdCircularBufferFindEntryOffsetForFpos (buffer : AesdCircularBuffer) (charOffset : UInt64)
    (entryOffsetByteRtn : UInt64) : Except Fault (Option Slot × UInt64) :=
  match aesdCircularBufferForeach buffer (findEntryBody buffer charOffset) foreachFuel 0 with
  | .error e => .error e
  | .ok (.inl _) => .ok (none, entryOffsetByteRtn)
  | .ok (.inr (slot, offset)) => .ok (some slot, offset)

end Aesd
