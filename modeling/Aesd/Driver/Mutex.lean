import Aesd.Driver.Runs
import Aesd.Foundation.Lock

/-!
# Calls between two accesses

`System.machine` takes each call in one step, since a call holds `aesd_device.lock` while it works
on the device. Here the calls are taken apart into their accesses to `aesd_device`: a read goes
entry by entry, a seek visits the entries one after the other, and a write allocates, copies,
extends the pending entry, tests its last byte, looks up the oldest entry, adds the new one, frees
the old one and accounts for both, each in a step of its own. Between two of them other processes
open, close, fail to copy their arguments, or are interrupted while they wait for the lock.

The calls are atomic all the same (`device_history_iff`), with the user memory that a read has
filled as part of what can be seen, and a call that got the lock returns (`device_lock_released`).

## Open files

The threads of the protocol are the open files, and the state of each is its position. Processes
that share an open file and use it at the same time are not modelled: a file has one call at a time,
whose `*f_pos` is read when it takes the lock and written back when it returns.

## A write in steps

`writeAccess` follows `aesd_write` from one access to the next, with the local variables in
`WritePc`. In particular `oldEntry` is a slot, and its size is read after the new entry was stored
there. `leaves_writeAccess_iff` says that the steps together are `aesdWrite`.
-/

namespace Aesd

open AesdCircularBuffer Machine

/-! ## What can be seen of a call -/

/-- What a call returns, and the user memory that it leaves behind if it is a read. -/
abbrev CallReply := Int64 × Option UserMemory

namespace System

/-- One call, with the user memory that it leaves behind. -/
def stepShowing (K : FixedSizeLlseek) (s : System) : Call → Except Fault (System × CallReply)
  | .read file c user =>
    match aesdRead s.driver c user (s.fpos file) with
    | .error e => .error e
    | .ok r => .ok (s.moveTo file (writeBack (s.fpos file) r), r.ret, some r.user)
  | e => (step K s e).map fun p ↦ (p.1, p.2, none)

/-- The system as a machine whose reads show the user memory. -/
def showing (K : FixedSizeLlseek) : Machine System Call CallReply Fault := ⟨stepShowing K⟩

theorem step_eq_stepShowing (K : FixedSizeLlseek) (s : System) (e : Call) :
    step K s e = (stepShowing K s e).map fun p ↦ (p.1, p.2.1) := by
  cases e with
  | read file c user =>
    rw [step, stepShowing]
    cases aesdRead s.driver c user (s.fpos file) <;> rfl
  | openFile file | release file | write file w | llseek file interrupted offset origin
  | ioctl file c =>
    rw [stepShowing]
    · cases step K s _ <;> rfl
    · intro _ _ _ h
      cases h

end System

def Call.file : Call → ℕ
  | .openFile file => file
  | .release file => file
  | .read file _ _ => file
  | .write file _ => file
  | .llseek file _ _ _ => file
  | .ioctl file _ => file

/-! ## The sections under the lock -/

/-- What `aesd_write` does next. In the last stages of a command that overwrites another one,
`old` is the pair of its variables `oldEntry` and `oldEntryBuff`. -/
inductive WritePc
  /-- `kmalloc` or `krealloc`. -/
  | grow
  /-- `copy_from_user`. -/
  | copy
  | extend
  /-- The comparison of the last byte with a newline. -/
  | test
  | findOld
  | addEntry (old : Option (Slot × Option ℕ))
  | evict (old : Option (Slot × Option ℕ))
  | account
  | finish

/-- One access of `aesd_write` to the device. -/
def writeAccess (w : WriteCall) (fpos : Int64) :
    Driver × WritePc → Except Fault ((Driver × WritePc) ⊕ WriteResult)
  | (d, .grow) => do
    let entry ← d.entryStruct
    match ← growEntry d.heap entry w with
    | (heap, none) => return .inr ⟨⟨heap, d.dev, ⟨none, 0⟩⟩, -Errno.enomem, fpos⟩
    | (heap, some p) => return .inl (⟨heap, d.dev, ⟨some p, entry.size⟩⟩, .copy)
  | (d, .copy) =>
    match d.pending.buffptr with
    | none => .error .nullDereference
    | some p => do
      let (heap, left) ← copyFromUser d.heap p d.pending.size.toNat w.payload w.copy
      if left ≠ 0 then
        let heap ← kfree heap (some p)
        return .inr ⟨⟨heap, d.dev, ⟨none, 0⟩⟩, -Errno.efault, fpos⟩
      else return .inl ({ d with heap }, .extend)
  | (d, .extend) =>
    .ok (.inl ({ d with pending := ⟨d.pending.buffptr, d.pending.size + w.count⟩ }, .test))
  | (d, .test) =>
    match d.pending.buffptr with
    | none => .error .nullDereference
    | some p => do
      let last ← d.heap.load p (d.pending.size - 1).toNat 1
      return .inl (d, if last = [newline] then .findOld else .finish)
  | (d, .findOld) =>
    if d.ring.full then do
      match ← aesdCircularBufferFindEntryOffsetForFpos d.ring 0 0 with
      | (none, _) => .error .nullDereference
      | (some oldEntry, _) =>
        return .inl (d, .addEntry (some (oldEntry, (d.ring.entry oldEntry).buffptr)))
    else .ok (.inl (d, .addEntry none))
  | (d, .addEntry old) => do
    let ring ← aesdCircularBufferAddEntry d.ring d.pending
    return .inl ({ d with dev := { d.dev with circularBuffer := ring } }, .evict old)
  | (d, .evict none) => .ok (.inl (d, .account))
  | (d, .evict (some (oldEntry, oldEntryBuff))) => do
    let size := (d.dev.size.toUInt64 - (d.ring.entry oldEntry).size).toInt64
    let heap ← kfree d.heap oldEntryBuff
    return .inl (⟨heap, { d.dev with size }, d.pending⟩, .account)
  | (d, .account) =>
    let size := (d.dev.size.toUInt64 + w.count).toInt64
    .ok (.inl (⟨d.heap, { d.dev with size }, ⟨none, 0⟩⟩, .finish))
  | (d, .finish) => .ok (.inr ⟨d, w.count.toInt64, fpos + w.count.toInt64⟩)

/-- The local variables of a call that has the lock. -/
inductive DeviceSection
  | read (c : ReadCall) (fpos : Int64) (s : ReadState)
  | write (w : WriteCall) (fpos : Int64) (pc : WritePc)
  | llseek (fpos offset : Int64) (origin : ℕ)
  /-- The state of the traversal, once it has begun. -/
  | adjust (fpos : Int64) (seekto : AesdSeekto) (loop : Option (ℕ × Bool × Int64))

namespace Device

/-- What a call does without the lock. -/
def outside (fpos : Int64) : Call → Except (LockError Fault) (Int64 × CallReply)
  | .openFile _ => .ok (0, aesdOpen, none)
  | .release _ => .ok (fpos, aesdRelease, none)
  | .read _ c user =>
    if c.interrupted then .ok (fpos, -Errno.erestartsys, some user) else .error .disabled
  | .write _ w => if w.interrupted then .ok (fpos, -Errno.erestartsys, none) else .error .disabled
  | .llseek _ interrupted _ _ =>
    if interrupted then .ok (fpos, -Errno.erestartsys, none) else .error .disabled
  | .ioctl _ c =>
    if c.cmd = aesdcharIocseekto then
      if copied c.copy 8 < 8 then .ok (fpos, -Errno.efault, none)
      else if c.interrupted then .ok (fpos, -Errno.erestartsys, none)
      else .error .disabled
    else .ok (fpos, -Errno.enotty, none)

def enter (fpos : Int64) : Call → Except (LockError Fault) DeviceSection
  | .openFile _ => .error .disabled
  | .release _ => .error .disabled
  | .read _ c user =>
    if c.interrupted then .error .disabled
    else .ok (.read c fpos ⟨fpos, c.count, c.buf, 0, 0, user, 0⟩)
  | .write _ w => if w.interrupted then .error .disabled else .ok (.write w fpos .grow)
  | .llseek _ interrupted offset origin =>
    if interrupted then .error .disabled else .ok (.llseek fpos offset origin)
  | .ioctl _ c =>
    if c.cmd = aesdcharIocseekto then
      if copied c.copy 8 < 8 then .error .disabled
      else if c.interrupted then .error .disabled
      else .ok (.adjust fpos c.seekto none)
    else .error .disabled

/-- One access to the device, by the call that has the lock. -/
def access (K : FixedSizeLlseek) : Driver × DeviceSection →
    Except (LockError Fault) ((Driver × DeviceSection) ⊕ (Driver × Int64 × CallReply))
  | (d, .read c fpos s) =>
    match readPass d c s with
    | .error f => .error (.fault f)
    | .ok (.inl s') => .ok (.inl (d, .read c fpos s'))
    | .ok (.inr r) => .ok (.inr (d, System.writeBack fpos r, r.ret, some r.user))
  | (d, .write w fpos pc) =>
    match writeAccess w fpos (d, pc) with
    | .error f => .error (.fault f)
    | .ok (.inl (d', pc')) => .ok (.inl (d', .write w fpos pc'))
    | .ok (.inr r) => .ok (.inr (r.driver, r.fpos, r.ret, none))
  | (d, .llseek fpos offset origin) =>
    let (ret, pos) := K.seek fpos offset origin d.dev.size
    .ok (.inr (d, pos, ret, none))
  | (d, .adjust fpos seekto none) =>
    .ok (.inl (d, .adjust fpos seekto (some (0, d.ring.full, 0))))
  | (d, .adjust fpos seekto (some loop)) =>
    match foreachPass d.ring (adjustBody d.ring seekto.writeCmd seekto.writeCmdOffset) loop with
    | .error f => .error (.fault f)
    | .ok (.inl loop') => .ok (.inl (d, .adjust fpos seekto (some loop')))
    | .ok (.inr (.inl _)) => .ok (.inr (d, fpos, -Errno.einval, none))
    | .ok (.inr (.inr pos)) => .ok (.inr (d, pos, 0, none))

/-- The open files and `aesd_device.lock`. -/
def locking (K : FixedSizeLlseek) :
    Locking ℕ Driver Int64 Call DeviceSection CallReply (LockError Fault) :=
  ⟨Call.file, outside, enter, access K, .disabled⟩

end Device

/-! ## A section without interruption -/

section Write

variable {d : Driver} {w : WriteCall} {fpos : Int64} {r : WriteResult}

private def written (d : Driver) (w : WriteCall) (fpos : Int64) : WriteResult :=
  ⟨d, w.count.toInt64, fpos + w.count.toInt64⟩

private theorem leaves_finish_iff :
    Loop.Leaves (writeAccess w fpos) (d, .finish) r ↔ r = written d w fpos :=
  Loop.leaves_of_leave rfl

private theorem leaves_findOld_iff :
    Loop.Leaves (writeAccess w fpos) (d, .findOld) r ↔
      ∃ d', commitEntry d w.count = .ok d' ∧ r = written d' w fpos := by
  have hfail : ∀ {d : Driver} {pc : WritePc} {e : Fault}, writeAccess w fpos (d, pc) = .error e →
      (Loop.Leaves (writeAccess w fpos) (d, pc) r ↔
        ∃ d', (.error e : Except Fault Driver) = .ok d' ∧ r = written d' w fpos) := by
    intro d pc e h
    apply iff_of_false (Loop.not_leaves_of_error h)
    rintro ⟨_, heq, -⟩
    cases heq
  rw [commitEntry]
  cases hfull : d.ring.full with
  | false =>
    have hfind : writeAccess w fpos (d, .findOld) = .ok (.inl (d, .addEntry none)) := by
      rw [writeAccess, hfull]
      rfl
    rw [Loop.leaves_of_next hfind]
    simp only [Bool.false_eq_true, if_false]
    cases hadd : aesdCircularBufferAddEntry d.ring d.pending with
    | error e => exact hfail (by rw [writeAccess, hadd]; rfl)
    | ok ring =>
      rw [Loop.leaves_of_next (by rw [writeAccess, hadd]; rfl), Loop.leaves_of_next rfl,
        Loop.leaves_of_next rfl, leaves_finish_iff]
      simp
  | true =>
    simp only [if_true]
    cases hold : aesdCircularBufferFindEntryOffsetForFpos d.ring 0 0 with
    | error e => exact hfail (by rw [writeAccess, hfull, hold]; rfl)
    | ok found =>
    obtain ⟨oldEntry, rtn⟩ := found
    cases oldEntry with
    | none => exact hfail (by rw [writeAccess, hfull, hold]; rfl)
    | some oldEntry =>
    rw [Loop.leaves_of_next (by rw [writeAccess, hfull, hold]; rfl)]
    simp only [ok_bind]
    cases hadd : aesdCircularBufferAddEntry d.ring d.pending with
    | error e => exact hfail (by rw [writeAccess, hadd]; rfl)
    | ok ring =>
    rw [Loop.leaves_of_next (by rw [writeAccess, hadd]; rfl)]
    simp only [ok_bind]
    cases hfree : kfree d.heap (d.ring.entry oldEntry).buffptr with
    | error e => exact hfail (by rw [writeAccess, hfree]; rfl)
    | ok heap =>
      rw [Loop.leaves_of_next (by rw [writeAccess, hfree]; rfl), Loop.leaves_of_next rfl,
        leaves_finish_iff]
      simp

private theorem leaves_test_iff {heap : Heap UInt8} {dev : AesdDev} {p : ℕ} {size : UInt64} :
    Loop.Leaves (writeAccess w fpos) (⟨heap, dev, ⟨some p, size⟩⟩, .test) r ↔
      (do
        let last ← heap.load p (size - 1).toNat 1
        let stored ← if last = [newline] then commitEntry ⟨heap, dev, ⟨some p, size⟩⟩ w.count
          else .ok ⟨heap, dev, ⟨some p, size⟩⟩
        return written stored w fpos) = Except.ok r := by
  cases hload : heap.load p (size - 1).toNat 1 with
  | error e =>
    apply iff_of_false
    · exact Loop.not_leaves_of_error (by simp only [writeAccess, hload]; rfl)
    · intro heq
      cases heq
  | ok last =>
    rw [Loop.leaves_of_next (by simp only [writeAccess, hload]; rfl), ok_bind]
    by_cases hlast : last = [newline]
    · rw [if_pos hlast, if_pos hlast, leaves_findOld_iff]
      cases commitEntry ⟨heap, dev, ⟨some p, size⟩⟩ w.count with
      | error e => simp
      | ok stored => simp [eq_comm]
    · rw [if_neg hlast, if_neg hlast, leaves_finish_iff]
      simp [eq_comm]

/-- **The accesses of a write make up `aesd_write`.** -/
theorem leaves_writeAccess_iff (hint : w.interrupted = false) :
    Loop.Leaves (writeAccess w fpos) (d, .grow) r ↔ aesdWrite d w fpos = .ok r := by
  have hfail : ∀ {d : Driver} {pc : WritePc} {e : Fault}, writeAccess w fpos (d, pc) = .error e →
      (Loop.Leaves (writeAccess w fpos) (d, pc) r ↔
        (.error e : Except Fault WriteResult) = .ok r) := by
    intro d pc e h
    apply iff_of_false (Loop.not_leaves_of_error h)
    intro heq
    cases heq
  have hleave : ∀ {d : Driver} {pc : WritePc} {r' : WriteResult},
      writeAccess w fpos (d, pc) = .ok (.inr r') →
      (Loop.Leaves (writeAccess w fpos) (d, pc) r ↔
        (.ok r' : Except Fault WriteResult) = .ok r) := by
    intro d pc r' h
    rw [Loop.leaves_of_leave h, Except.ok.injEq, eq_comm]
  rw [aesdWrite, hint, if_neg Bool.false_ne_true]
  cases hentry : d.entryStruct with
  | error e => exact hfail (by rw [writeAccess, hentry]; rfl)
  | ok entry =>
  rw [ok_bind]
  cases hgrow : growEntry d.heap entry w with
  | error e => exact hfail (by rw [writeAccess, hentry, ok_bind, hgrow]; rfl)
  | ok grown =>
  obtain ⟨heap, p⟩ := grown
  cases p with
  | none => exact hleave (by rw [writeAccess, hentry, ok_bind, hgrow]; rfl)
  | some p =>
  rw [Loop.leaves_of_next (by rw [writeAccess, hentry, ok_bind, hgrow]; rfl)]
  simp only [ok_bind]
  cases hcopy : copyFromUser heap p entry.size.toNat w.payload w.copy with
  | error e => exact hfail (by simp only [writeAccess, hcopy]; rfl)
  | ok copied =>
  obtain ⟨heap', left⟩ := copied
  simp only [ok_bind]
  by_cases hleft : left = 0
  · rw [if_neg (not_not.mpr hleft), Loop.leaves_of_next (by
        simp only [writeAccess, hcopy, ok_bind, if_neg (not_not.mpr hleft)]; rfl),
      Loop.leaves_of_next rfl]
    exact leaves_test_iff
  · rw [if_pos hleft]
    cases hfree : kfree heap' (some p) with
    | error e => exact hfail (by simp only [writeAccess, hcopy, ok_bind, if_pos hleft, hfree]; rfl)
    | ok heap'' =>
      exact hleave (by simp only [writeAccess, hcopy, ok_bind, if_pos hleft, hfree]; rfl)

end Write

section Section

variable {K : FixedSizeLlseek} {d : Driver} {y : Driver × Int64 × CallReply}

/-- A read, whose passes are its accesses. -/
private theorem leaves_read_iff {cmds : List (List UInt8)} {part : List UInt8}
    (h : Represents d cmds part) {c : ReadCall} (hint : c.interrupted = false)
    {user : UserMemory} {fpos : Int64} :
    Loop.Leaves (Device.access K) (d, .read c fpos ⟨fpos, c.count, c.buf, 0, 0, user, 0⟩) y ↔
      ∃ r, aesdRead d c user fpos = .ok r ∧
        y = (d, System.writeBack fpos r, r.ret, some r.user) := by
  have hmap := Loop.leaves_map_iff (readPass d c) (Device.access K) (fun s ↦ (d, .read c fpos s))
    (fun r ↦ (d, System.writeBack fpos r, r.ret, some r.user)) (y := y)
    (s := ⟨fpos, c.count, c.buf, 0, 0, user, 0⟩)
    (fun hs ↦ by rw [Device.access, hs]) (fun hs ↦ by rw [Device.access, hs])
    (fun hs ↦ ⟨_, by rw [Device.access, hs]⟩)
  obtain ⟨r, hr⟩ := aesdRead_total h.toStores c user fpos
  have hrun := hr
  rw [aesdRead, hint, if_neg Bool.false_ne_true] at hrun
  rw [hmap, hr]
  simp only [Loop.leaves_iff_of_run hrun, Except.ok.injEq, eq_comm (a := r)]

private theorem leaves_write_iff {w : WriteCall} (hint : w.interrupted = false) {fpos : Int64} :
    Loop.Leaves (Device.access K) (d, .write w fpos .grow) y ↔
      ∃ r, aesdWrite d w fpos = .ok r ∧ y = (r.driver, r.fpos, r.ret, none) := by
  have hmap := Loop.leaves_map_iff (writeAccess w fpos) (Device.access K)
    (fun s ↦ (s.1, .write w fpos s.2)) (fun r ↦ (r.driver, r.fpos, r.ret, none)) (y := y)
    (s := (d, .grow))
    (fun hs ↦ by rw [Device.access, hs]) (fun hs ↦ by rw [Device.access, hs])
    (fun hs ↦ ⟨_, by rw [Device.access, hs]⟩)
  rw [hmap]
  simp only [leaves_writeAccess_iff hint]

private theorem leaves_llseek_iff {fpos offset : Int64} {origin : ℕ} :
    Loop.Leaves (Device.access K) (d, .llseek fpos offset origin) y ↔
      y = (d, (K.seek fpos offset origin d.dev.size).2,
        (K.seek fpos offset origin d.dev.size).1, none) :=
  Loop.leaves_of_leave rfl

private theorem leaves_adjust_iff {cmds : List (List UInt8)} {part : List UInt8}
    (h : Represents d cmds part) {seekto : AesdSeekto} {fpos : Int64} :
    Loop.Leaves (Device.access K) (d, .adjust fpos seekto none) y ↔
      ∃ r, aesdAdjustFileOffset d false fpos seekto.writeCmd seekto.writeCmdOffset = .ok r ∧
        y = (d, r.2, r.1, none) := by
  have hmap := Loop.leaves_map_iff
    (foreachPass d.ring (adjustBody d.ring seekto.writeCmd seekto.writeCmdOffset))
    (Device.access K) (fun loop ↦ (d, .adjust fpos seekto (some loop)))
    (Sum.elim (fun _ ↦ (d, fpos, -Errno.einval, none)) fun pos ↦ (d, pos, 0, none)) (y := y)
    (s := (0, d.ring.full, 0))
    (fun hs ↦ by rw [Device.access, hs])
    (fun {_ r} hs ↦ by rw [Device.access, hs]; cases r <;> rfl)
    (fun hs ↦ ⟨_, by rw [Device.access, hs]⟩)
  have hrun := foreach_eq_foldExit h.wf
    (adjustBody d.ring seekto.writeCmd seekto.writeCmdOffset) (liveCount_lt_foreachFuel h.wf) 0
  rw [Loop.leaves_of_next rfl, hmap, aesdAdjustFileOffset, if_neg Bool.false_ne_true, hrun]
  rw [aesdCircularBufferForeach] at hrun
  simp only [Loop.leaves_iff_of_run hrun, exists_eq_left]
  cases foldExit _ (0 : Int64) _ with
  | inl total => simp
  | inr pos => simp

end Section

/-! ## Atomicity -/

/-- A driver that stores some commands and some unfinished bytes. -/
def Driver.Consistent (d : Driver) : Prop := ∃ cmds part, Represents d cmds part

theorem Driver.consistent_of_init {c : InitCall} {d : Driver}
    (hinit : aesdInitModule c = .ok (d, 0)) : d.Consistent :=
  ⟨[], [], (represents_of_loaded hinit).1⟩

namespace Device

section Atomic

variable {K : FixedSizeLlseek} {d : Driver} {fpos : ℕ → Int64} {e : Call} {a : System}
  {r r' : CallReply}

private theorem served_outside (t : Int64) (r' : CallReply)
    (hout : outside (fpos e.file) e = .ok (t, r'))
    (henter : enter (fpos e.file) e = .error .disabled)
    (hstep : System.stepShowing K ⟨d, fpos⟩ e = .ok (⟨d, Function.update fpos e.file t⟩, r')) :
    System.stepShowing K ⟨d, fpos⟩ e = .ok (a, r) ↔
      ∃ d' fpos', a = ⟨d', fpos'⟩ ∧ (locking K).Whole d fpos e d' fpos' r := by
  simp only [Locking.whole_iff_of_enter_error (L := locking K) henter]
  constructor
  · intro heq
    cases hstep.symm.trans heq
    exact ⟨d, _, rfl, t, hout, rfl, rfl⟩
  · rintro ⟨_, _, rfl, t', hout', rfl, rfl⟩
    cases hout.symm.trans hout'
    exact hstep

private theorem served_inside {k : DeviceSection}
    (hout : outside (fpos e.file) e = .error .disabled)
    (henter : enter (fpos e.file) e = .ok k)
    (hstep : System.stepShowing K ⟨d, fpos⟩ e = .ok (a, r) ↔
      ∃ y, Loop.Leaves (access K) (d, k) y ∧
        (a, r) = (⟨y.1, Function.update fpos e.file y.2.1⟩, y.2.2)) :
    System.stepShowing K ⟨d, fpos⟩ e = .ok (a, r) ↔
      ∃ d' fpos', a = ⟨d', fpos'⟩ ∧ (locking K).Whole d fpos e d' fpos' r := by
  simp only [hstep, Locking.whole_iff_of_enter (L := locking K) hout henter]
  constructor
  · rintro ⟨⟨d', t, r'⟩, hleaves, heq⟩
    cases heq
    exact ⟨d', _, rfl, t, hleaves, rfl⟩
  · rintro ⟨d', _, rfl, t, hleaves, rfl⟩
    exact ⟨(d', t, r), hleaves, rfl⟩

private theorem step_ioctl_iff {cmds : List (List UInt8)} {part : List UInt8}
    (h : Represents d cmds part) (file : ℕ) (c : IoctlCall) :
    System.stepShowing K ⟨d, fpos⟩ (.ioctl file c) = .ok (a, r) ↔
      ∃ d' fpos', a = ⟨d', fpos'⟩ ∧ (locking K).Whole d fpos (.ioctl file c) d' fpos' r := by
  by_cases hcmd : c.cmd = aesdcharIocseekto
  swap
  · apply served_outside (fpos file) (-Errno.enotty, none)
    · simp [Call.file, outside, hcmd]
    · simp [enter, hcmd]
    · simp [System.stepShowing, System.step, aesdIoctl, hcmd, System.moveTo, Call.file,
        Except.map]
  by_cases hcopy : copied c.copy 8 < 8
  · apply served_outside (fpos file) (-Errno.efault, none)
    · simp [Call.file, outside, hcmd, hcopy]
    · simp [enter, hcmd, hcopy]
    · simp [System.stepShowing, System.step, aesdIoctl, hcmd, hcopy, System.moveTo, Call.file,
        Except.map]
  cases hint : c.interrupted with
  | true =>
    apply served_outside (fpos file) (-Errno.erestartsys, none)
    · simp [Call.file, outside, hcmd, hcopy, hint]
    · simp [enter, hcmd, hcopy, hint]
    · simp [System.stepShowing, System.step, aesdIoctl, aesdAdjustFileOffset, hcmd, hcopy, hint,
        System.moveTo, Call.file, Except.map]
  | false =>
    apply served_inside (k := .adjust (fpos file) c.seekto none)
    · simp [outside, hcmd, hcopy, hint]
    · simp [Call.file, enter, hcmd, hcopy, hint]
    simp only [leaves_adjust_iff h, System.stepShowing, System.step, aesdIoctl, if_pos hcmd,
      if_neg hcopy, hint]
    cases aesdAdjustFileOffset d false (fpos file) c.seekto.writeCmd c.seekto.writeCmdOffset with
    | error e => simp [Except.map]
    | ok r => simp [System.moveTo, Call.file, eq_comm, Except.map]

private theorem step_iff (h : d.Consistent) :
    System.stepShowing K ⟨d, fpos⟩ e = .ok (a, r) ↔
      ∃ d' fpos', a = ⟨d', fpos'⟩ ∧ (locking K).Whole d fpos e d' fpos' r := by
  obtain ⟨cmds, part, h⟩ := h
  cases e with
  | openFile file => exact served_outside _ _ rfl rfl rfl
  | release file =>
    apply served_outside _ _ rfl rfl
    rw [Function.update_eq_self]
    rfl
  | read file c user =>
    cases hint : c.interrupted with
    | true =>
      apply served_outside (fpos file) (-Errno.erestartsys, some user)
      · simp [Call.file, outside, hint]
      · simp [enter, hint]
      · simp [System.stepShowing, aesdRead, hint, System.moveTo, Call.file]
    | false =>
      apply served_inside
        (k := .read c (fpos file) ⟨fpos file, c.count, c.buf, 0, 0, user, 0⟩)
      · simp [outside, hint]
      · simp [Call.file, enter, hint]
      simp only [leaves_read_iff h hint, System.stepShowing]
      cases aesdRead d c user (fpos file) with
      | error e => simp
      | ok r => simp [System.moveTo, Call.file, eq_comm]
  | write file w =>
    cases hint : w.interrupted with
    | true =>
      apply served_outside (fpos file) (-Errno.erestartsys, none)
      · simp [Call.file, outside, hint]
      · simp [enter, hint]
      · simp [System.stepShowing, System.step, aesdWrite, hint, Call.file, Except.map]
    | false =>
      apply served_inside (k := .write w (fpos file) .grow)
      · simp [outside, hint]
      · simp [Call.file, enter, hint]
      simp only [leaves_write_iff hint, System.stepShowing, System.step]
      cases aesdWrite d w (fpos file) with
      | error e => simp [Except.map]
      | ok r => simp [Call.file, eq_comm, Except.map]
  | llseek file interrupted offset origin =>
    cases interrupted with
    | true => exact served_outside _ _ rfl rfl rfl
    | false =>
      apply served_inside rfl rfl
      simp [leaves_llseek_iff, System.stepShowing, System.step, System.moveTo, aesdLlseek,
        Call.file, eq_comm, Except.map]
  | ioctl file c => exact step_ioctl_iff h file c

theorem atomic (K : FixedSizeLlseek) :
    (locking K).Atomic (System.showing K) System.mk Driver.Consistent where
  step_iff := step_iff
  keeps := by
    intro d fpos e d' fpos' r h hwhole
    have hstep := (step_iff h).mpr ⟨d', fpos', rfl, hwhole⟩
    obtain ⟨cmds, part, h⟩ := h
    have hcall : System.step K ⟨d, fpos⟩ e = .ok (⟨d', fpos'⟩, r.1) := by
      rw [System.step_eq_stepShowing, hstep]
      rfl
    exact System.step_represents h hcall

theorem exists_leaves_of_enter (h : d.Consistent) {pos : Int64} {k : DeviceSection}
    (hne : ∀ file w, e = .write file w → w.payload ≠ []) (henter : enter pos e = .ok k) :
    ∃ y, Loop.Leaves (access K) (d, k) y := by
  obtain ⟨cmds, part, h⟩ := h
  cases e with
  | openFile file | release file => cases henter
  | read file c user =>
    rw [enter] at henter
    split at henter
    · cases henter
    rename_i hint
    cases henter
    obtain ⟨r, hr⟩ := aesdRead_total h.toStores c user pos
    exact ⟨_, (leaves_read_iff h (by simpa using hint)).mpr ⟨r, hr, rfl⟩⟩
  | write file w =>
    rw [enter] at henter
    split at henter
    · cases henter
    rename_i hint
    cases henter
    obtain ⟨r, hr, -⟩ := aesdWrite_total h w pos (hne file w rfl)
    exact ⟨_, (leaves_write_iff (by simpa using hint)).mpr ⟨r, hr, rfl⟩⟩
  | llseek file interrupted offset origin =>
    rw [enter] at henter
    split at henter
    · cases henter
    cases henter
    exact ⟨_, leaves_llseek_iff.mpr rfl⟩
  | ioctl file c =>
    rw [enter] at henter
    split at henter
    swap
    · cases henter
    rename_i hcmd
    split at henter
    · cases henter
    rename_i hcopy
    split at henter
    · cases henter
    rename_i hint
    cases henter
    obtain ⟨r, hr⟩ := h.aesdIoctl_total c pos
    rw [aesdIoctl, if_pos hcmd, if_neg hcopy, (by simpa using hint : c.interrupted = false)] at hr
    exact ⟨_, (leaves_adjust_iff h).mpr ⟨r, hr, rfl⟩⟩

end Atomic

end Device

/-! ## The device -/

section Device

variable {K : FixedSizeLlseek} {c : InitCall} {d : Driver}

/-- A device that was just loaded, with its lock free. -/
def unlockedDevice (d : Driver) : Locked ℕ Driver Int64 Call DeviceSection := ⟨d, fun _ ↦ 0, none⟩

/-- **The lock makes calls atomic.** However processes interleave their accesses to the device, they
see what they would see if each call were done at once, in the order in which the calls let go of
the lock: the values returned, the bytes read, and the device whenever the lock is free. -/
theorem device_history_iff (hinit : aesdInitModule c = .ok (d, 0))
    {history : List (Call × CallReply)} {s : System} :
    (∃ tr l, (Device.locking K).machine.Run (unlockedDevice d) tr l ∧ l.holder = none ∧
        s = ⟨l.shared, l.threads⟩ ∧ answers tr = history) ↔
      ∃ tr, (System.showing K).Run (System.loaded d) tr s ∧ tr.map Move.answer = history :=
  (Device.atomic K).history_iff (Driver.consistent_of_init hinit)

/-- Two processes. The second one opens the device and is interrupted while the first one writes,
and reads what was written. -/
private def twoCalls : List (LockEvent Call) :=
  [.outside (.openFile 0), .lock (writeCall 0 [97, newline] (by decide)), .access,
    .outside (.openFile 1), .access, .access,
    .outside (.read 1 ⟨true, 0, 2, fun _ ↦ none⟩ fun _ ↦ 0), .access, .access, .access, .access,
    .access, .access, .lock (.read 1 ⟨false, 0, 2, fun _ ↦ none⟩ fun _ ↦ 0)]

/-- The bytes at the start of the user memory that a call shows. -/
private def shown (n : ℕ) (r : CallReply) : Option (List UInt8) := r.2.map fun user ↦ user.read 0 n

/-- The second process is interrupted, and then reads the whole command. -/
theorem device_history_of_two : ∃ tr s,
    (System.showing .documented).Run (System.loaded loadedDriver) tr s ∧
      tr.map (fun m ↦ m.ret.1) = [0, 0, -Errno.erestartsys, 2, 2] ∧
      tr.map (fun m ↦ shown 2 m.ret) = [none, none, some [0, 0], none, some [97, newline]] := by
  obtain ⟨tr, l, hrun, htest⟩ := exists_run_of_exec (Device.locking .documented).machine
    (unlockedDevice loadedDriver) (twoCalls ++ [.access])
    (fun tr l ↦ decide (l.holder.isNone = true ∧
      (answers tr).map (fun a ↦ a.2.1) = [0, 0, -Errno.erestartsys, 2, 2] ∧
      (answers tr).map (fun a ↦ shown 2 a.2) = [none, none, some [0, 0], none, some [97, newline]]))
    (by decide +kernel)
  obtain ⟨hfree, hrets, hshown⟩ := of_decide_eq_true htest
  obtain ⟨tr', hrun', hanswers⟩ := (device_history_iff loadedDriver_init).mp
    ⟨tr, l, hrun, Option.isNone_iff_eq_none.mp hfree, rfl, rfl⟩
  refine ⟨tr', _, hrun', ?_, ?_⟩
  · rw [← hrets, ← hanswers, List.map_map]
    rfl
  · rw [← hshown, ← hanswers, List.map_map]
    rfl

/-- **The lock is let go.** In whatever state the calls are, the one that has the lock returns on
its own, without a fault, unless it writes no bytes. -/
theorem device_lock_released (hinit : aesdInitModule c = .ok (d, 0))
    {tr : List (Move _ (LockEvent Call) (Option (Call × CallReply)))}
    {l : Locked ℕ Driver Int64 Call DeviceSection}
    (hrun : (Device.locking K).machine.Run (unlockedDevice d) tr l)
    (hne : ∀ g ∈ l.holder, ∀ file w, g.request = .write file w → w.payload ≠ []) :
    ∃ tr' l', (Device.locking K).machine.Run l tr' l' ∧ (∀ m ∈ tr', m.event = .access) ∧
      l'.holder = none ∧
      (answers tr').map Prod.fst = l.holder.toList.map CriticalSection.request :=
  (Device.atomic K).refines.released (A := fun e ↦ ∀ file w, e = .write file w → w.payload ≠ [])
    ⟨rfl, Driver.consistent_of_init hinit⟩
    (fun h hA henter ↦ Device.exists_leaves_of_enter h.2 hA henter) hrun hne

private def writesNothing : Call → Bool
  | .write _ w => w.payload.isEmpty
  | _ => false

/-- The first process is in the middle of its write. -/
theorem device_lock_released_of_two : ∃ l l' : Locked ℕ Driver Int64 Call DeviceSection,
    l.holder.isSome = true ∧ l.shared.commands = some [] ∧
      l.shared.pendingBytes = some [97, newline] ∧ l'.holder = none ∧
      ∃ tr, (Device.locking .documented).machine.Run l tr l' := by
  obtain ⟨tr, l, hrun, htest⟩ := exists_run_of_exec (Device.locking .documented).machine
    (unlockedDevice loadedDriver) (twoCalls.take 6)
    (fun _ l ↦ decide (l.holder.isSome = true ∧ l.shared.commands = some [] ∧
      l.shared.pendingBytes = some [97, newline] ∧
      l.holder.all (fun g ↦ !writesNothing g.request) = true)) (by decide +kernel)
  obtain ⟨hheld, hstored, hpending, hne⟩ := of_decide_eq_true htest
  obtain ⟨tr', l', hrun', -, hfree, -⟩ := device_lock_released loadedDriver_init hrun (by
    intro g hg file w hw hnil
    rw [Option.mem_def] at hg
    rw [hg, Option.all_some, hw] at hne
    simp [writesNothing, hnil] at hne)
  exact ⟨l, l', hheld, hstored, hpending, hfree, tr', hrun'⟩

end Device

end Aesd
