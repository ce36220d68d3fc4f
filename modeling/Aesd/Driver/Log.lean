import Aesd.Driver.Runs

/-!
# The log of commands

From outside, the device is a log: the payloads of the writes, in the order in which they took the
mutex, cut into commands at the writes that end in a newline. `Records` is that log, and
`write_log` says that the driver stores its last ten commands and its unfinished bytes after every
run in which the kernel served all writes.

## The refinement

`StoresLog` relates a state to a log, and one served step keeps it (`StoresLog.step`); the log of a
run is the fold of `logMove` over its steps. The driver drops the oldest of its last ten commands,
while the log keeps all of them and shows the last ten, so the step comes down to a fact about the
ends of lists. A write is `Served` when its allocation and its copy go through; this is a condition
on its inputs.

## Writes that fail

`failed_write_keeps_iff` is about the writes that were not served. A write that fails before any
byte of its command was stored changes nothing; one that fails later takes the bytes of the earlier
writes with it, though these were told that their bytes were taken.
-/

namespace Aesd

open AesdCircularBuffer Machine

/-! ## The history of a run -/

/-- The payload that a step of a run wrote. A write that never got the mutex wrote nothing. -/
def loggedPayload (m : Move System Call Int64) : Option (List UInt8) :=
  match m.event with
  | .write _ w => if w.interrupted then none else some w.payload
  | _ => none

/-- The payloads written in a run, in order. -/
def payloads (tr : List (Move System Call Int64)) : List (List UInt8) := tr.filterMap loggedPayload

/-- A write that gets the mutex is given the memory it asks for, and its copy goes through. -/
def Served (m : Move System Call Int64) : Prop :=
  match m.event with
  | .write _ w =>
    w.interrupted = false → w.Allocates m.pre.driver.pending.size.toNat ∧ w.Copies
  | _ => True

instance : DecidablePred Served
  | ⟨_, .write _ _, _⟩ => inferInstanceAs (Decidable (_ → _))
  | ⟨_, .openFile _, _⟩ => .isTrue trivial
  | ⟨_, .release _, _⟩ => .isTrue trivial
  | ⟨_, .read _ _ _, _⟩ => .isTrue trivial
  | ⟨_, .llseek _ _ _ _, _⟩ => .isTrue trivial
  | ⟨_, .ioctl _ _, _⟩ => .isTrue trivial

/-! ## The driver refines the log -/

/-- The memory stores the last ten closed commands and the unfinished bytes of a log. -/
def StoresLog (s : System) (log : Records UInt8) : Prop :=
  Represents s.driver (log.closed.rtake 10) log.pending

def logMove (log : Records UInt8) (m : Move System Call Int64) : Records UInt8 :=
  match loggedPayload m with
  | some payload => log.write newline payload
  | none => log

theorem StoresLog.step {K : FixedSizeLlseek} {s s' : System} {log : Records UInt8}
    {e : Call} {ret : Int64} (h : StoresLog s log) (hstep : System.step K s e = .ok (s', ret))
    (hserved : Served ⟨s, e, ret⟩) : StoresLog s' (logMove log ⟨s, e, ret⟩) := by
  rw [logMove]
  rcases System.step_cases h hstep with ⟨hne, hd⟩ | ⟨file, w, r, rfl, hout, hd, rfl⟩
  · have hnone : loggedPayload ⟨s, e, ret⟩ = none := by
      cases e with
      | write file w => exact absurd rfl (hne file w)
      | _ => rfl
    rw [hnone, StoresLog, hd]
    exact h
  · have hgets : w.interrupted = false →
        w.Allocates s.driver.pending.size.toNat ∧ w.Copies := hserved
    rw [h.pending.size_eq] at hgets
    have hpay : loggedPayload ⟨s, .write file w, r.ret⟩
        = if w.interrupted then none else some w.payload := rfl
    rw [StoresLog, hd, hpay]
    cases hout with
    | interrupted hint =>
      rw [if_pos hint]
      exact h
    | refused hint halloc => exact absurd (hgets hint).1 halloc
    | faulted hint _ hcopy => exact absurd (hgets hint).2 hcopy
    | continued hint _ _ hlast hrep =>
      rw [if_neg (by simp [hint])]
      simp only [Records.write_of_ne newline hlast]
      exact hrep
    | closed hint _ _ hlast hrep =>
      rw [if_neg (by simp [hint])]
      simp only [Records.write_of_eq newline hlast]
      -- the driver drops the oldest of its last ten, the log keeps all and shows the last ten
      rw [← rtake_rtake_append]
      exact hrep

/-- **The driver is a log of commands.** After every run of calls in which no allocation and no user
copy of a write failed, the live entries hold, oldest first, exactly the last ten of the commands
that the payloads make up, the entry structure holds exactly the bytes written since, and the
commands and these bytes are all that was written, in order. -/
theorem write_log {K : FixedSizeLlseek} {c : InitCall} {d : Driver}
    (hinit : aesdInitModule c = .ok (d, 0)) {tr : List (Move System Call Int64)} {s : System}
    (hrun : (System.machine K).Run (System.loaded d) tr s) (hserved : ∀ m ∈ tr, Served m) :
    s.driver.commands = some ((Records.writes newline (payloads tr)).closed.rtake 10) ∧
      s.driver.pendingBytes = some (Records.writes newline (payloads tr)).pending ∧
      (Records.writes newline (payloads tr)).closed.flatten
        ++ (Records.writes newline (payloads tr)).pending = (payloads tr).flatten := by
  have h₀ : StoresLog (System.loaded d) ⟨[], []⟩ := (represents_of_loaded hinit).1
  have hlog := hrun.refines logMove h₀ StoresLog.step
    (along_of_forall logMove hserved)
  have hfold : tr.foldl logMove ⟨[], []⟩ = Records.writes newline (payloads tr) := by
    rw [Records.writes, payloads, List.foldl_filterMap]
    congr 1
    funext log m
    rw [logMove]
    cases loggedPayload m <;> rfl
  rw [hfold] at hlog
  exact ⟨hlog.commands_eq, hlog.pendingBytes_eq, Records.flatten_writes newline _⟩

/-- Three writes through two files: two parts of a command, then an unfinished one. -/
theorem write_log_two_parts : ∃ tr s,
    (System.machine .documented).Run (System.loaded loadedDriver) tr s ∧
      payloads tr = [[97, 98], [99, newline], [100]] ∧
      s.driver.commands = some [[97, 98, 99, newline]] ∧ s.driver.pendingBytes = some [100] := by
  obtain ⟨tr, s, hrun, htest⟩ := exists_run_of_exec (System.machine .documented)
    (System.loaded loadedDriver)
    [writeCall 0 [97, 98] (by decide), writeCall 1 [99, newline] (by decide),
      writeCall 0 [100] (by decide)]
    (fun tr _ ↦ decide ((∀ m ∈ tr, Served m) ∧ payloads tr = [[97, 98], [99, newline], [100]]))
    (by decide +kernel)
  obtain ⟨hserved, hpay⟩ := of_decide_eq_true htest
  obtain ⟨hc, hp, -⟩ := write_log loadedDriver_init hrun hserved
  rw [hpay] at hc hp
  exact ⟨tr, s, hrun, hpay, hc, hp⟩

/-! ## Writes that fail -/

/-- A write that failed left everything as it was, so that the pending bytes still end up in the
command that a later write closes. -/
structure KeepsLog (d : Driver) (fpos : Int64) (r : WriteResult) : Prop where
  ring : r.driver.ring = d.ring
  commands : r.driver.commands = d.commands
  size : r.driver.dev.size = d.dev.size
  fpos : r.fpos = fpos
  pendingBytes : r.driver.pendingBytes = d.pendingBytes
  later : ∀ w fpos' r', aesdWrite r.driver w fpos' = .ok r' → 0 ≤ r'.ret.toInt →
    w.payload.getLast? = some newline → ∃ cmds part, d.commands = some cmds ∧
      d.pendingBytes = some part ∧
      r'.driver.commands = some ((cmds ++ [part ++ w.payload]).rtake 10)

section Failures

variable {d : Driver} {cmds : List (List UInt8)} {part : List UInt8} {w : WriteCall}
  {fpos : Int64} {r : WriteResult}

private theorem toInt_ret_nonneg (w : WriteCall) : 0 ≤ w.count.toInt64.toInt := by
  rw [w.toInt_count]
  exact Int.natCast_nonneg _

private theorem keepsLog_of_represents (h : Represents d cmds part)
    (hr : Represents r.driver cmds part) (hdev : r.driver.dev = d.dev) (hfpos : r.fpos = fpos) :
    KeepsLog d fpos r where
  ring := by rw [Driver.ring, hdev]
  commands := by rw [hr.commands_eq, h.commands_eq]
  size := by rw [hdev]
  fpos := hfpos
  pendingBytes := by rw [hr.pendingBytes_eq, h.pendingBytes_eq]
  later w fpos' r' hw hret hlast :=
    ⟨cmds, part, h.commands_eq, h.pendingBytes_eq,
      ((WriteOutcome.of_ok hr hw).of_closing hret hlast).1.commands_eq⟩

/-- **When a failed write changes nothing.** A write that returns an error leaves the ring, the
size, the position and the pending bytes as they were exactly when it was interrupted or no bytes
were pending. -/
theorem failed_write_keeps_iff {K : FixedSizeLlseek} {s : System} (hs : Reachable K s)
    (hr : aesdWrite s.driver w fpos = .ok r) (hfail : r.ret.toInt < 0) :
    KeepsLog s.driver fpos r ↔ w.interrupted = true ∨ s.driver.pendingBytes = some [] := by
  obtain ⟨cmds, part, h⟩ := hs.represents
  -- both late exits drop the pending bytes, so they keep the log when there were none
  have hlost : Represents r.driver cmds [] → r.driver.dev = s.driver.dev → r.fpos = fpos →
      w.interrupted = false →
      (KeepsLog s.driver fpos r ↔ w.interrupted = true ∨ s.driver.pendingBytes = some []) := by
    intro hrep hdev hfpos hint
    rw [hint, h.pendingBytes_eq, Option.some.injEq]
    constructor
    · intro hkeeps
      have hbytes := hkeeps.pendingBytes
      rw [hrep.pendingBytes_eq, h.pendingBytes_eq, Option.some.injEq] at hbytes
      exact .inr hbytes.symm
    · rintro (hfalse | rfl)
      · cases hfalse
      · exact keepsLog_of_represents h hrep hdev hfpos
  cases WriteOutcome.of_ok h hr with
  | interrupted hint => exact iff_of_true (keepsLog_of_represents h h rfl rfl) (.inl hint)
  | refused hint _ hrep => exact hlost hrep rfl rfl hint
  | faulted hint _ _ hrep => exact hlost hrep rfl rfl hint
  | continued | closed =>
    have := toInt_ret_nonneg w
    simp only [] at hfail
    omega

end Failures

/-- After a whole command, the first write of the next one is refused, and changes nothing. -/
theorem refused_first_write_keeps : ∃ (s : System) (r : WriteResult), Reachable .documented s ∧
    s.driver.commands = some [[97, newline]] ∧
    aesdWrite s.driver ⟨false, [98], by decide, false, none⟩ 2 = .ok r ∧
    r.ret = -Errno.enomem ∧ KeepsLog s.driver 2 r := by
  obtain ⟨tr, s, hrun, htest⟩ := exists_run_of_exec (System.machine .documented)
    (System.loaded loadedDriver) [writeCall 0 [97, newline] (by decide)]
    (fun _ s ↦ match aesdWrite s.driver ⟨false, [98], by decide, false, none⟩ 2 with
      | .ok r => decide (r.ret = -Errno.enomem ∧ s.driver.commands = some [[97, newline]] ∧
          s.driver.pendingBytes = some [])
      | .error _ => false) (by decide +kernel)
  split at htest
  · rename_i r hr
    obtain ⟨hret, hcommands, hpending⟩ := of_decide_eq_true htest
    have hs : Reachable .documented s := ⟨_, _, tr, loadedDriver_init, hrun⟩
    have hfail : r.ret.toInt < 0 := by
      rw [hret]
      decide
    exact ⟨s, r, hs, hcommands, hr, hret, (failed_write_keeps_iff hs hr hfail).mpr (.inr hpending)⟩
  · cases htest

/-- After `ab` was written, a refused `krealloc` returns `-ENOMEM` and the two bytes are gone. -/
theorem refused_later_write_loses : ∃ (s : System) (r : WriteResult), Reachable .documented s ∧
    aesdWrite s.driver ⟨false, [99, newline], by decide, false, none⟩ 2 = .ok r ∧
    r.ret = -Errno.enomem ∧ ¬KeepsLog s.driver 2 r := by
  obtain ⟨tr, s, hrun, htest⟩ := exists_run_of_exec (System.machine .documented)
    (System.loaded loadedDriver) [writeCall 0 [97, 98] (by decide)]
    (fun _ s ↦ match aesdWrite s.driver ⟨false, [99, newline], by decide, false, none⟩ 2 with
      | .ok r => decide (r.ret = -Errno.enomem ∧ r.driver.pendingBytes ≠ s.driver.pendingBytes)
      | .error _ => false) (by decide +kernel)
  split at htest
  · rename_i r hr
    obtain ⟨hret, hbytes⟩ := of_decide_eq_true htest
    exact ⟨s, r, ⟨_, _, tr, loadedDriver_init, hrun⟩, hr, hret,
      fun hkeeps ↦ hbytes hkeeps.pendingBytes⟩
  · cases htest

end Aesd
