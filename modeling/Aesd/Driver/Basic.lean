import Aesd.Driver.Kernel
import Aesd.Ring.Basic

/-!
# The character driver

`main.c` of the driver, function by function. The device holds the circular buffer, a pointer to a
separately allocated entry that collects the bytes of an unfinished command, and a running size.
A call works on the module's memory (`Driver`), on the `*f_pos` of the file it came through, and
on what the kernel services decided for it.

## One call, one step

Every operation holds the device mutex from its first to its last access, so a call is one step;
the only visible effect of the mutex is that waiting for it can be interrupted. That taking calls
apart changes nothing is shown in `Mutex`.

## Faults

A call is a partial function into `Except Fault`. It has no result where the source leaves the
semantics of C, as `aesd_write` does when it looks for the last byte of an entry of no bytes. The
calls that the kernel makes with pointers of its own, such as the `NULL` checks of the buffer
functions, are not repeated.
-/

namespace Aesd

/-- `struct aesd_dev`, without the mutex and the `cdev`. -/
structure AesdDev where
  circularBuffer : AesdCircularBuffer
  /-- The block of the structure that collects an unfinished command, or `NULL`. -/
  entry : Option ℕ
  /-- The running size, a `loff_t`. -/
  size : Int64

/-- The memory of the module: its heap, `aesd_device`, and the structure that
`aesd_device.entry` points to. -/
structure Driver where
  heap : Heap UInt8
  dev : AesdDev
  pending : AesdBufferEntry

namespace Driver

abbrev ring (d : Driver) : AesdCircularBuffer := d.dev.circularBuffer

/-- `*aesd_device.entry`. -/
def entryStruct (d : Driver) : Except Fault AesdBufferEntry :=
  match d.dev.entry with
  | none => .error .nullDereference
  | some p => if d.heap.Live p then .ok d.pending else .error .useAfterFree

/-- Before the module is loaded. -/
def unloaded : Driver := ⟨Heap.empty, ⟨aesdCircularBufferInit, none, 0⟩, ⟨none, 0⟩⟩

end Driver

/-! ## Opening and closing -/

def aesdOpen : Int64 := 0

def aesdRelease : Int64 := 0

/-! ## Reading -/

/-- The arguments of one `aesd_read`, and what the kernel decides during it: whether the wait for
the mutex is interrupted, and when the `i`-th copy to user memory faults. -/
structure ReadCall where
  interrupted : Bool
  buf : ℕ
  count : UInt64
  copy : ℕ → Option ℕ

/-- The variables of the read loop. `copies` counts the copies made so far. -/
structure ReadState where
  fpos : Int64
  count : UInt64
  buf : ℕ
  retval : Int64
  entryOffsetByteRtn : UInt64
  user : UserMemory
  copies : ℕ

structure ReadResult where
  ret : Int64
  fpos : Int64
  user : UserMemory

/-- `copy_to_user(buf, entry->buffptr + offset, n)`. -/
def copyEntryToUser (d : Driver) (entry : AesdBufferEntry) (offset n : UInt64) (s : ReadState)
    (limit : Option ℕ) : Except Fault (UserMemory × ℕ) := do
  match entry.buffptr with
  | none => .error .nullDereference
  | some p =>
    let src ← d.heap.load p offset.toNat n.toNat
    return copyToUser s.user s.buf src limit

/-- One pass of the `while` loop of `aesd_read`. -/
def readPass (d : Driver) (c : ReadCall) (s : ReadState) :
    Except Fault (ReadState ⊕ ReadResult) := do
  match ← aesdCircularBufferFindEntryOffsetForFpos d.ring s.fpos.toUInt64 s.entryOffsetByteRtn with
  | (none, _) => return .inr ⟨s.retval, s.fpos, s.user⟩
  | (some slot, offset) =>
    let entry := d.ring.entry slot
    let remaining := entry.size - offset
    if remaining ≥ s.count then
      let (user, left) ← copyEntryToUser d entry offset s.count s (c.copy s.copies)
      if left ≠ 0 then return .inr ⟨-Errno.efault, s.fpos, user⟩
      let retval := (s.retval.toUInt64 + s.count).toInt64
      return .inr ⟨retval, s.fpos + retval, user⟩
    else
      let (user, left) ← copyEntryToUser d entry offset remaining s (c.copy s.copies)
      if left ≠ 0 then return .inr ⟨-Errno.efault, s.fpos, user⟩
      return .inl {
        fpos := (s.fpos.toUInt64 + remaining).toInt64
        count := s.count - remaining
        buf := s.buf + remaining.toNat
        retval := (s.retval.toUInt64 + remaining).toInt64
        entryOffsetByteRtn := offset
        user := user
        copies := s.copies + 1 }

/-- `aesd_read`. Each continuing pass of the loop lowers `count`, so `count + 1` passes are
enough. -/
def aesdRead (d : Driver) (c : ReadCall) (user : UserMemory) (fpos : Int64) :
    Except Fault ReadResult :=
  if c.interrupted then .ok ⟨-Errno.erestartsys, fpos, user⟩
  else Loop.run .outOfFuel (readPass d c) (c.count.toNat + 1) ⟨fpos, c.count, c.buf, 0, 0, user, 0⟩

/-! ## Writing -/

/-- The arguments of one `aesd_write`, and what the kernel decides during it. The count is the
length of the payload; it fits the `ssize_t` that the call returns. -/
structure WriteCall where
  interrupted : Bool
  payload : List UInt8
  payload_lt : payload.length < 2 ^ 63
  granted : Bool
  copy : Option ℕ

/-- The argument `count`. -/
def WriteCall.count (w : WriteCall) : UInt64 := UInt64.ofNat w.payload.length

structure WriteResult where
  driver : Driver
  ret : Int64
  fpos : Int64

/-- The byte that ends a command. -/
def newline : UInt8 := 10

/-- The allocation at the head of `aesd_write`: `kmalloc` for the first part of a command,
`krealloc` for a later one. -/
def growEntry (heap : Heap UInt8) (entry : AesdBufferEntry) (w : WriteCall) :
    Except Fault (Heap UInt8 × Option ℕ) :=
  match entry.buffptr with
  | none => .ok (kmalloc heap w.granted w.count)
  | some p => krealloc heap w.granted p (entry.size + w.count)

/-- The branch of `aesd_write` that stores a finished command in the circular buffer. The pointer
`oldEntry` is used again after `aesd_circular_buffer_add_entry`, which has overwritten its
slot. -/
def commitEntry (d : Driver) (count : UInt64) : Except Fault Driver := do
  if d.ring.full then
    match ← aesdCircularBufferFindEntryOffsetForFpos d.ring 0 0 with
    | (none, _) => .error .nullDereference
    | (some oldEntry, _) =>
      let oldEntryBuff := (d.ring.entry oldEntry).buffptr
      let ring ← aesdCircularBufferAddEntry d.ring d.pending
      let size := (d.dev.size.toUInt64 - (ring.entry oldEntry).size).toInt64
      let heap ← kfree d.heap oldEntryBuff
      return ⟨heap, ⟨ring, d.dev.entry, (size.toUInt64 + count).toInt64⟩, ⟨none, 0⟩⟩
  else
    let ring ← aesdCircularBufferAddEntry d.ring d.pending
    return ⟨d.heap, ⟨ring, d.dev.entry, (d.dev.size.toUInt64 + count).toInt64⟩, ⟨none, 0⟩⟩

def aesdWrite (d : Driver) (w : WriteCall) (fpos : Int64) : Except Fault WriteResult := do
  if w.interrupted then return ⟨d, -Errno.erestartsys, fpos⟩
  let entry ← d.entryStruct
  match ← growEntry d.heap entry w with
  | (heap, none) => return ⟨⟨heap, d.dev, ⟨none, 0⟩⟩, -Errno.enomem, fpos⟩
  | (heap, some p) =>
    let (heap, left) ← copyFromUser heap p entry.size.toNat w.payload w.copy
    if left ≠ 0 then
      let heap ← kfree heap (some p)
      return ⟨⟨heap, d.dev, ⟨none, 0⟩⟩, -Errno.efault, fpos⟩
    let size := entry.size + w.count
    let last ← heap.load p (size - 1).toNat 1
    let grown : Driver := ⟨heap, d.dev, ⟨some p, size⟩⟩
    let stored ← if last = [newline] then commitEntry grown w.count else .ok grown
    let retval := w.count.toInt64
    return ⟨stored, retval, fpos + retval⟩

/-! ## Seeking -/

/-- `aesd_llseek`: the return value and the file position after the call. -/
def aesdLlseek (K : FixedSizeLlseek) (d : Driver) (interrupted : Bool) (fpos offset : Int64)
    (origin : ℕ) : Int64 × Int64 :=
  if interrupted then (-Errno.erestartsys, fpos) else K.seek fpos offset origin d.dev.size

/-- The loop body of `aesd_adjust_file_offset`, whose variable is `total`. It returns the new file
position. -/
def adjustBody (ring : AesdCircularBuffer) (writeCmd writeCmdOffset : UInt32) (total : Int64)
    (index : ℕ) (slot : Slot) : Int64 ⊕ Int64 :=
  if writeCmd.toNat = index then
    if writeCmdOffset.toUInt64 < (ring.entry slot).size then
      .inr (total + writeCmdOffset.toUInt64.toInt64)
    else .inl total
  else .inl (total.toUInt64 + (ring.entry slot).size).toInt64

/-- `aesd_adjust_file_offset`: the return value and the file position after the call. -/
def aesdAdjustFileOffset (d : Driver) (interrupted : Bool) (fpos : Int64)
    (writeCmd writeCmdOffset : UInt32) : Except Fault (Int64 × Int64) :=
  if interrupted then .ok (-Errno.erestartsys, fpos)
  else
    match aesdCircularBufferForeach d.ring (adjustBody d.ring writeCmd writeCmdOffset)
        foreachFuel 0 with
    | .error e => .error e
    | .ok (.inr pos) => .ok (0, pos)
    | .ok (.inl _) => .ok (-Errno.einval, fpos)

/-- `struct aesd_seekto`. -/
structure AesdSeekto where
  writeCmd : UInt32
  writeCmdOffset : UInt32
  deriving DecidableEq, Repr

/-- `_IOWR(type, nr, size)`: both direction bits, the size of the argument, the type and the
command number. -/
def iowr (type nr size : UInt32) : UInt32 :=
  ((3 : UInt32) <<< 30) ||| (size <<< 16) ||| (type <<< 8) ||| nr

def aesdIocMagic : UInt32 := 0x16

/-- `AESDCHAR_IOCSEEKTO`, whose argument is a `struct aesd_seekto` of eight bytes. -/
def aesdcharIocseekto : UInt32 := iowr aesdIocMagic 1 8

/-- The arguments of one `aesd_ioctl`, with the structure at the user address `arg`, and what the
kernel decides during it. -/
structure IoctlCall where
  interrupted : Bool
  cmd : UInt32
  seekto : AesdSeekto
  copy : Option ℕ

/-- `aesd_ioctl`: the return value and the file position after the call. -/
def aesdIoctl (d : Driver) (c : IoctlCall) (fpos : Int64) : Except Fault (Int64 × Int64) :=
  if c.cmd = aesdcharIocseekto then
    if copied c.copy 8 < 8 then .ok (-Errno.efault, fpos)
    else aesdAdjustFileOffset d c.interrupted fpos c.seekto.writeCmd c.seekto.writeCmdOffset
  else .ok (-Errno.enotty, fpos)

/-! ## Loading and unloading -/

/-- What the kernel decides while the module is loaded: the results of `alloc_chrdev_region` and
`cdev_add`, and whether the allocation of the entry structure is granted. -/
structure InitCall where
  allocChrdevRegion : ℤ
  granted : Bool
  cdevAdd : ℤ

/-- `sizeof(struct aesd_buffer_entry)`. -/
def sizeofAesdBufferEntry : UInt64 := 16

def aesdSetupCdev (c : InitCall) : ℤ := c.cdevAdd

/-- `aesd_init_module`: the module's memory after the call, and the return value. The source uses
the result of `kmalloc` without a test. -/
def aesdInitModule (c : InitCall) : Except Fault (Driver × ℤ) :=
  if c.allocChrdevRegion < 0 then .ok (Driver.unloaded, c.allocChrdevRegion)
  else
    match kmalloc Heap.empty c.granted sizeofAesdBufferEntry with
    | (_, none) => .error .nullDereference
    | (heap, some p) =>
      .ok (⟨heap, ⟨aesdCircularBufferInit, some p, 0⟩, ⟨none, 0⟩⟩, aesdSetupCdev c)

def aesdCleanupModule (d : Driver) : Except Fault Driver :=
  match kfree d.heap d.dev.entry with
  | .error e => .error e
  | .ok heap => .ok { d with heap := heap }

end Aesd
