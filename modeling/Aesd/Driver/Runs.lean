import Aesd.Driver.Read
import Aesd.Driver.Seek
import Aesd.Driver.Write
import Aesd.Foundation.Machine
import Aesd.Foundation.Records

/-!
# Runs of the driver

The device and the positions of the open files, and the calls that any number of processes make on
them in any order. Since every call holds the mutex, an interleaving of calls is a list of calls
in the order in which they took it.

Every state that a run from `aesd_init_module` reaches represents some commands and some
unfinished bytes (`Reachable.represents`); this is the invariant that all other results about runs
start from. What is represented is said in `Log`, and who owns the memory in `Ownership`.

## Positions

A call works on a copy of the file's position. After a read the kernel writes the copy back, unless
the read has failed (`System.writeBack`); a write that fails has not moved it; `aesd_llseek` and the
`ioctl` set the position of the file themselves.

## Which runs are total

Every call but one returns, whatever fails in it: a write of no bytes with none pending has no
result, since `aesd_write` reads in front of an empty block (`System.step_total`).
-/

namespace Aesd

open AesdCircularBuffer Segments Machine

/-! ## The system -/

/-- The driver, and the position of every file. -/
structure System where
  driver : Driver
  fpos : ℕ → Int64

/-- A call on the device through a file. User memory belongs to the callers, who may change it
between calls, so a read brings it along. -/
inductive Call
  | openFile (file : ℕ)
  | release (file : ℕ)
  | read (file : ℕ) (call : ReadCall) (user : UserMemory)
  | write (file : ℕ) (call : WriteCall)
  | llseek (file : ℕ) (interrupted : Bool) (offset : Int64) (origin : ℕ)
  | ioctl (file : ℕ) (call : IoctlCall)

namespace System

def loaded (d : Driver) : System := ⟨d, fun _ ↦ 0⟩

/-- The system with one file moved. -/
def moveTo (s : System) (file : ℕ) (pos : Int64) : System :=
  { s with fpos := Function.update s.fpos file pos }

/-- The position of a file after a read. `*f_pos` is a copy of it, which the kernel writes back when
the read has not failed. -/
def writeBack (fpos : Int64) (r : ReadResult) : Int64 := if r.ret < 0 then fpos else r.fpos

@[simp] theorem writeBack_self (fpos ret : Int64) (user : UserMemory) :
    writeBack fpos ⟨ret, fpos, user⟩ = fpos := ite_self _

def step (K : FixedSizeLlseek) (s : System) : Call → Except Fault (System × Int64)
  | .openFile file => .ok (s.moveTo file 0, aesdOpen)
  | .release _ => .ok (s, aesdRelease)
  | .read file c user =>
    match aesdRead s.driver c user (s.fpos file) with
    | .error e => .error e
    | .ok r => .ok (s.moveTo file (writeBack (s.fpos file) r), r.ret)
  | .write file w =>
    match aesdWrite s.driver w (s.fpos file) with
    | .error e => .error e
    | .ok r => .ok (⟨r.driver, Function.update s.fpos file r.fpos⟩, r.ret)
  | .llseek file interrupted offset origin =>
    let (ret, pos) := aesdLlseek K s.driver interrupted (s.fpos file) offset origin
    .ok (s.moveTo file pos, ret)
  | .ioctl file c =>
    match aesdIoctl s.driver c (s.fpos file) with
    | .error e => .error e
    | .ok (ret, pos) => .ok (s.moveTo file pos, ret)

def machine (K : FixedSizeLlseek) : Machine System Call Int64 Fault := ⟨step K⟩

end System

/-- A module loaded without any error. -/
def loadedDriver : Driver :=
  ⟨(Heap.empty.malloc 16).1, ⟨aesdCircularBufferInit, some 0, 0⟩, ⟨none, 0⟩⟩

theorem loadedDriver_init : aesdInitModule ⟨0, true, 0⟩ = .ok (loadedDriver, 0) := rfl

/-- A write in which nothing fails. -/
def writeCall (file : ℕ) (payload : List UInt8) (h : payload.length < 2 ^ 63) : Call :=
  .write file ⟨false, payload, h, true, none⟩

theorem length_line (b : UInt8) : [b, newline].length < 2 ^ 63 := by
  rw [List.length_cons, List.length_singleton]
  decide

/-- The call that writes a command of one byte. -/
def lineOf (b : UInt8) : Call := writeCall 0 [b, newline] (length_line b)

/-- The states that a loaded module can be in. -/
def Reachable (K : FixedSizeLlseek) (s : System) : Prop :=
  ∃ (c : InitCall) (d : Driver) (tr : List (Move System Call Int64)),
    aesdInitModule c = .ok (d, 0) ∧ (System.machine K).Run (System.loaded d) tr s

/-! ## The invariant -/

theorem represents_of_init {c : InitCall} {d : Driver} {ret : ℤ}
    (h : aesdInitModule c = .ok (d, ret)) (hregion : 0 ≤ c.allocChrdevRegion) :
    Represents d [] [] ∧ d.dev.size = 0 ∧ ∀ i, d.heap.Live i ↔ d.dev.entry = some i := by
  rw [aesdInitModule, if_neg (by omega)] at h
  by_cases hg : c.granted = true ∧ sizeofAesdBufferEntry.toNat ≤ kmallocMaxSize
  · rw [kmalloc, if_pos hg] at h
    obtain ⟨rfl, -⟩ := Prod.mk.inj (Except.ok.inj h)
    have hlive : ∀ i, (Heap.empty.malloc sizeofAesdBufferEntry.toNat : Heap UInt8 × ℕ).1.Live i
        ↔ i = 0 := by
      intro i
      rw [Heap.malloc, Heap.live_place_iff]
      simp [Heap.Live, Heap.empty]
    refine ⟨⟨⟨wf_init, .nil, .inl ⟨rfl, rfl⟩, ⟨_, rfl, (hlive 0).mpr rfl⟩, ?_⟩, by simp⟩, rfl,
      fun i ↦ ?_⟩
    · exact List.nodup_singleton _
    · rw [hlive, Option.some.injEq]
      exact eq_comm
  · rw [kmalloc, if_neg hg] at h
    cases h

theorem represents_of_loaded {c : InitCall} {d : Driver} (h : aesdInitModule c = .ok (d, 0)) :
    Represents d [] [] ∧ d.dev.size = 0 ∧ ∀ i, d.heap.Live i ↔ d.dev.entry = some i := by
  refine represents_of_init h (Int.le_of_not_gt fun hregion ↦ ?_)
  rw [aesdInitModule, if_pos hregion] at h
  have := (Prod.mk.inj (Except.ok.inj h)).2
  omega

section Step

variable {K : FixedSizeLlseek} {s s' : System} {e : Call} {ret : Int64}
  {cmds : List (List UInt8)} {part : List UInt8}

namespace System

theorem step_cases (h : Represents s.driver cmds part) (hstep : step K s e = .ok (s', ret)) :
    ((∀ file w, e ≠ .write file w) ∧ s'.driver = s.driver) ∨
      ∃ file w r, e = .write file w ∧ WriteOutcome s.driver cmds part w (s.fpos file) r ∧
        s'.driver = r.driver ∧ ret = r.ret := by
  cases e with
  | openFile file | release file | llseek file interrupted offset origin =>
    cases hstep
    exact .inl ⟨nofun, rfl⟩
  | read file c user =>
    rw [step] at hstep
    split at hstep
    · cases hstep
    · cases hstep
      exact .inl ⟨nofun, rfl⟩
  | ioctl file c =>
    rw [step] at hstep
    split at hstep
    · cases hstep
    · cases hstep
      exact .inl ⟨nofun, rfl⟩
  | write file w =>
    rw [step] at hstep
    split at hstep
    · cases hstep
    · rename_i r hr
      cases hstep
      exact .inr ⟨file, w, r, rfl, .of_ok h hr, rfl, rfl⟩

/-- A call does not fault, but for a write of no bytes. -/
theorem step_total (h : Represents s.driver cmds part)
    (hne : ∀ file w, e = .write file w → w.payload ≠ []) :
    ∃ s' ret, step K s e = .ok (s', ret) := by
  cases e with
  | openFile file | release file | llseek file interrupted offset origin => exact ⟨_, _, rfl⟩
  | read file c user =>
    obtain ⟨r, hr⟩ := aesdRead_total h.toStores c user (s.fpos file)
    exact ⟨_, _, by rw [step, hr]⟩
  | ioctl file c =>
    obtain ⟨r, hr⟩ := h.aesdIoctl_total c (s.fpos file)
    exact ⟨_, _, by rw [step, hr]⟩
  | write file w =>
    obtain ⟨r, hr, -⟩ := aesdWrite_total h w (s.fpos file) (hne file w rfl)
    exact ⟨_, _, by rw [step, hr]⟩

end System

theorem WriteOutcome.represents {d : Driver} {w : WriteCall} {fpos : Int64} {r : WriteResult}
    (h : Represents d cmds part) (hout : WriteOutcome d cmds part w fpos r) :
    ∃ cmds' part', Represents r.driver cmds' part' := by
  cases hout with
  | interrupted _ => exact ⟨_, _, h⟩
  | refused _ _ hrep => exact ⟨_, _, hrep⟩
  | faulted _ _ _ hrep _ => exact ⟨_, _, hrep⟩
  | continued _ _ _ _ hrep _ => exact ⟨_, _, hrep⟩
  | closed _ _ _ _ hrep => exact ⟨_, _, hrep⟩

theorem System.step_represents (h : Represents s.driver cmds part)
    (hstep : step K s e = .ok (s', ret)) : ∃ cmds' part', Represents s'.driver cmds' part' := by
  rcases step_cases h hstep with ⟨-, hd⟩ | ⟨_, _, r, -, hout, hd, -⟩
  · exact ⟨cmds, part, hd ▸ h⟩
  · exact hd ▸ hout.represents h

end Step

theorem represents_of_run {K : FixedSizeLlseek} {s₀ s : System}
    {tr : List (Move System Call Int64)} (h₀ : ∃ cmds part, Represents s₀.driver cmds part)
    (hrun : (System.machine K).Run s₀ tr s) : ∃ cmds part, Represents s.driver cmds part :=
  hrun.invariant (I := fun _ s ↦ ∃ cmds part, Represents s.driver cmds part) h₀
    fun _ ⟨_, _, h⟩ hstep ↦ System.step_represents h hstep

/-- **The invariant.** Every reachable state represents some commands and some unfinished
bytes. -/
theorem Reachable.represents {K : FixedSizeLlseek} {s : System} (h : Reachable K s) :
    ∃ cmds part, Represents s.driver cmds part := by
  obtain ⟨c, d, tr, hinit, hrun⟩ := h
  exact represents_of_run ⟨[], [], (represents_of_loaded hinit).1⟩ hrun

end Aesd
