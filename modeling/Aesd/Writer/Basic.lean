import Aesd.Foundation.CString
import Aesd.Foundation.Format
import Aesd.Foundation.Loop
import Aesd.Foundation.Paths

/-!
# The writer

The program that writes a string to a file, and makes the directories on the way to it first.
`create_directories` works on a copy of the path, in which it overwrites each slash with a NUL for
as long as the directory before it is made. There is memory for the copies.

## Faults

The copy is a block, so a loop that goes on behind its terminator is noticed. The other thing that C
leaves undefined is a conversion specification in the data, for which `fprintf` has no argument. An
execution with either has no result here.

No write fails: `fprintf` puts all of its output into the file, whatever its length.
-/

namespace Aesd

/-- A string that a program is called with. -/
structure ArgString where
  bytes : List UInt8
  no_nul : 0 ∉ bytes

/-- How an execution leaves the semantics of C. -/
inductive WriterError
  | fault (f : Fault)
  /-- A conversion specification without an argument. -/
  | undefinedConversion
  deriving DecidableEq

/-- A computation on the copies of the path. -/
def WriterError.lift {α : Type} (r : Except Fault α) : Except WriterError α := r.mapError .fault

@[simp] theorem WriterError.lift_ok {α : Type} (a : α) :
    lift (.ok a : Except Fault α) = .ok a := rfl

/-! ## Directories -/

/-- `create_directory`. A directory that somebody else has made in the meantime is as good. -/
def createDirectory (fs : FileTree) (path : List UInt8) : FileTree × Int32 :=
  match fs.stat path with
  | .ok _ => (fs, 0)
  | .error _ =>
    match fs.mkdir path with
    | .ok fs' => (fs', 0)
    | .error e => if e = .eexist then (fs, 0) else (fs, -1)

def strdup (heap : Heap UInt8) (s : List UInt8) : Heap UInt8 × ℕ :=
  heap.place ((s ++ [0]).map some)

/-- The variables of the loop in `create_directories`, with `p` as an offset into `dir`. -/
structure DirectoryLoop where
  heap : Heap UInt8
  fs : FileTree
  p : ℕ

/-- One pass of the loop in `create_directories`, which has the body of `create_directory` written
out. The loop leaves with what the function returns if it stops here, and `0` otherwise. -/
def directoryPass (dir : ℕ) (s : DirectoryLoop) :
    Except Fault (DirectoryLoop ⊕ (Heap UInt8 × FileTree × Int32)) := do
  let b ← s.heap.load dir s.p 1
  if b = [0] then return .inr (s.heap, s.fs, 0)
  else if b = [slash] then
    let heap ← s.heap.store dir s.p [0]
    let path ← CString.ofBlock heap dir
    if (createDirectory s.fs path).2 = -1 then
      return .inr (heap, (createDirectory s.fs path).1, -1)
    else
      let heap ← heap.store dir s.p [slash]
      return .inl ⟨heap, (createDirectory s.fs path).1, s.p + 1⟩
  else return .inl ⟨s.heap, s.fs, s.p + 1⟩

def createDirectories (heap : Heap UInt8) (fs : FileTree) (path : List UInt8) :
    Except Fault (Heap UInt8 × FileTree × Int32) := do
  let dir := (strdup heap path).2
  let (heap, fs, ret) ← Loop.run .outOfFuel (directoryPass dir) (path.length + 1)
    ⟨(strdup heap path).1, fs, 1⟩
  if ret = -1 then
    let heap ← heap.free dir
    return (heap, fs, -1)
  else
    -- the last directory
    let path ← CString.ofBlock heap dir
    let heap ← heap.free dir
    return (heap, createDirectory fs path)

/-! ## Files -/

/-- The part of `create_file` that makes the directories in front of the last slash. -/
def createParents (fs : FileTree) (filePath : List UInt8) : Except Fault (FileTree × Int32) := do
  let heap := (strdup Heap.empty filePath).1
  let dir := (strdup Heap.empty filePath).2
  let path ← CString.ofBlock heap dir
  match CString.strrchr slash path with
  | none => do
    let _ ← heap.free dir
    return (fs, 0)
  | some lastSlash => do
    let heap ← heap.store dir lastSlash [0]
    let path ← CString.ofBlock heap dir
    let (heap, fs, ret) ← createDirectories heap fs path
    let _ ← heap.free dir
    return (fs, ret)

/-- `create_file`. The file is empty when `fprintf` writes to it. -/
def createFile {α : Type} (C : Conversions α) (fs : FileTree) (filePath data : ArgString) :
    Except WriterError (FileTree × Int32) := do
  let (fs, ret) ← WriterError.lift (createParents fs filePath.bytes)
  if ret = -1 then return (fs, -1)
  else
    match fs.fopenWrite filePath.bytes with
    | .error _ => return (fs, -1)
    | .ok (fs, fptr) =>
      match C.render none [] data.bytes with
      | none => throw .undefinedConversion
      | some out => return (fs.setContents fptr out, 0)

end Aesd
