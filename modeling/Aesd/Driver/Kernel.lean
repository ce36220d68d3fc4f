import Aesd.Foundation.Heap
import Aesd.Foundation.Words

/-!
# The kernel services the driver calls

Allocation, user copies and `fixed_size_llseek` are not part of the driver. What they decide is an
input of the call that uses them: whether an allocation is granted, after how many bytes a user
copy faults, whether waiting for the mutex is interrupted. What they then do follows their
documentation: `kmalloc` hands out a fresh block or nothing, `krealloc` moves a block or leaves
it alone when it fails, and a user copy returns the number of bytes it could not copy.

`fixed_size_llseek` is a parameter. The driver relies on its accepting exactly the positions from
`0` to the size it is given and on its resolving `SEEK_END` against that size; the fields of
`FixedSizeLlseek` say so.

User memory is a function from addresses to bytes. A read gets it as an argument and gives it back
changed, so that a statement can say what was written where, and that nothing else was.
-/

namespace Aesd

/-! ## Error numbers -/

namespace Errno

def enomem : Int64 := 12
def efault : Int64 := 14
def einval : Int64 := 22
def enotty : Int64 := 25
def erestartsys : Int64 := 512

end Errno

/-! ## Allocation -/

/-- A bound on every allocation. The kernel's own `KMALLOC_MAX_SIZE` depends on the page size and
is far below it. -/
def kmallocMaxSize : ℕ := 2 ^ 58

/-- `kmalloc`, for an allocator that is willing (`granted`) or not. -/
def kmalloc (heap : Heap UInt8) (granted : Bool) (size : UInt64) : Heap UInt8 × Option ℕ :=
  if granted = true ∧ size.toNat ≤ kmallocMaxSize then
    ((heap.malloc size.toNat).1, some (heap.malloc size.toNat).2)
  else (heap, none)

/-- `krealloc` of a pointer that is not `NULL`. A failed call leaves the old block allocated. -/
def krealloc (heap : Heap UInt8) (granted : Bool) (p : ℕ) (newSize : UInt64) :
    Except Fault (Heap UInt8 × Option ℕ) :=
  if granted = true ∧ newSize.toNat ≤ kmallocMaxSize then
    match heap.realloc p newSize.toNat with
    | .error e => .error e
    | .ok (heap', p') => .ok (heap', some p')
  else .ok (heap, none)

def kfree (heap : Heap UInt8) (p : Option ℕ) : Except Fault (Heap UInt8) := heap.freePtr p

/-! ## User memory -/

/-- User memory by address. -/
abbrev UserMemory := ℕ → UInt8

/-- How many of `n` bytes a user copy moves, when it faults after `limit` of them or not at all. -/
def copied (limit : Option ℕ) (n : ℕ) : ℕ := (limit.map fun m ↦ min m n).getD n

/-- User memory with `xs` stored from address `a` on. -/
def UserMemory.write (user : UserMemory) (a : ℕ) (xs : List UInt8) : UserMemory :=
  fun i ↦ if a ≤ i ∧ i < a + xs.length then xs.getD (i - a) 0 else user i

/-- The `n` bytes of user memory from address `a` on. -/
def UserMemory.read (user : UserMemory) (a n : ℕ) : List UInt8 :=
  (List.range n).map fun i ↦ user (a + i)

/-- `copy_to_user`: the user memory after the call and the number of bytes not copied. -/
def copyToUser (user : UserMemory) (dst : ℕ) (src : List UInt8) (limit : Option ℕ) :
    UserMemory × ℕ :=
  (user.write dst (src.take (copied limit src.length)), src.length - copied limit src.length)

/-- `copy_from_user` into a kernel block: the heap after the call and the number of bytes not
copied. What could not be copied is filled with zeros. -/
def copyFromUser (heap : Heap UInt8) (p off : ℕ) (src : List UInt8) (limit : Option ℕ) :
    Except Fault (Heap UInt8 × ℕ) :=
  match heap.store p off (src.take (copied limit src.length)
      ++ List.replicate (src.length - copied limit src.length) 0) with
  | .error e => .error e
  | .ok heap' => .ok (heap', src.length - copied limit src.length)

@[simp] theorem copied_none (n : ℕ) : copied none n = n := rfl

theorem copied_le (limit : Option ℕ) (n : ℕ) : copied limit n ≤ n := by
  cases limit with
  | none => exact le_rfl
  | some m => exact min_le_right m n

/-! ## Seeking -/

def seekSet : ℕ := 0

def seekEnd : ℕ := 2

/-- `fixed_size_llseek`: from the file position, an offset, an origin and a size, the return value
and the file position after the call. -/
structure FixedSizeLlseek where
  /-- The call. -/
  seek : (fpos offset : Int64) → (origin : ℕ) → (size : Int64) → Int64 × Int64
  /-- From the start, exactly the positions from `0` to the size are accepted. -/
  seek_set : ∀ fpos offset size, seek fpos offset seekSet size =
    if 0 ≤ offset.toInt ∧ offset.toInt ≤ size.toInt then (offset, offset)
    else (-Errno.einval, fpos)
  /-- From the end, the same positions are accepted, counted from the size. -/
  seek_end : ∀ fpos offset size, seek fpos offset seekEnd size =
    if 0 ≤ size.toInt + offset.toInt ∧ size.toInt + offset.toInt ≤ size.toInt then
      (size + offset, size + offset)
    else (-Errno.einval, fpos)

/-- The library function as documented: origins other than the three standard ones are refused,
and a move by nothing only reports the position. -/
def FixedSizeLlseek.documented : FixedSizeLlseek where
  seek fpos offset origin size :=
    let move (target : ℤ) (pos : Int64) : Int64 × Int64 :=
      if 0 ≤ target ∧ target ≤ size.toInt then (pos, pos) else (-Errno.einval, fpos)
    match origin with
    | 0 => move offset.toInt offset
    | 1 => if offset = 0 then (fpos, fpos) else move (fpos.toInt + offset.toInt) (fpos + offset)
    | 2 => move (size.toInt + offset.toInt) (size + offset)
    | _ => (-Errno.einval, fpos)
  seek_set _ _ _ := rfl
  seek_end _ _ _ := rfl

end Aesd
