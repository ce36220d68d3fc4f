import Mathlib.Algebra.Ring.Nat
import Mathlib.Data.List.Basic

/-!
# Running commands

`do_system`, `do_exec` and `do_exec_redirect`, for a program that calls them in any way it likes.
The program is a tree: it ends, or calls one of the functions and goes on with what the call
returns. A kernel is any behaviour of the system, with a state of its own.

## Two processes for one call

After `fork` there are two processes, and the one that calls waits until the other one has ended.
Where `execv` replaces the new process by the command, this is the end of the command. Where `execv`
fails, the new process returns from the call as well, and runs the rest of the program before the
process that called goes on: the rest of the program is run twice (`ends_eq`), and the value that
the caller gets is made of the status that the rest of its own program ends with.

## The status

The result of `waitpid` is not looked at. When it fails, `status` was never set, and the value that
`do_exec` returns is made of whatever is in the variable. A `waitpid` that is interrupted by the
handler of a signal, while the new process is still running, is outside of this model, and so is a
signal that ends a process while it runs the program.

## The promise

`Program.documented` is what the comments promise: a call returns true exactly when the command was
run and has ended with `exit(0)`. `Program.Regular` says when the code keeps to it
(`log_eq_documented_iff`); for `do_system` the promise fails for a null pointer only, where there is
no command.
-/

namespace Aesd.Systemcalls

/-- The number of a signal, with the flag for a core file. -/
structure Signal where
  number : UInt8
  ne_zero : number ≠ 0
  deriving DecidableEq

inductive WaitStatus
  | exited (code : UInt8)
  | signalled (signal : Signal)
  deriving DecidableEq

/-- The `int` that a status is encoded as. -/
def WaitStatus.word : WaitStatus → Int32
  | exited code => Int32.ofNat (code.toNat * 256)
  | signalled signal => Int32.ofNat signal.number.toNat

/-- What the macros of `sys/wait.h` make of the variable `status`. -/
inductive StatusWord
  | ended (status : WaitStatus)
  /-- Neither `WIFEXITED` nor `WIFSIGNALED`. -/
  | other

/-- Where the output of a process goes. -/
inductive Stdout
  | inherited
  | file (path : List UInt8)
  deriving DecidableEq

/-- What the functions ask the system for, in states `σ`. A command that is run has ended when the
state is given. -/
structure Kernel (σ : Type) where
  /-- Whether there is a shell. -/
  shell : σ → Bool
  /-- The shell runs a command, if it can be started and waited for. -/
  system : σ → Stdout → List UInt8 → σ × Option WaitStatus
  /-- `fork`, if it succeeds. -/
  fork : σ → Option σ
  /-- `open` of the output file, if it succeeds. -/
  openOutput : σ → List UInt8 → Option σ
  /-- Whether `dup2` succeeds. -/
  dup2 : σ → Bool
  /-- `execv`, if the command can be executed. -/
  execv : σ → Stdout → List (List UInt8) → Option (σ × WaitStatus)
  /-- `waitpid`, for a process that has ended. When it fails, this is what is in the variable
  `status`, which nobody has set. -/
  waitpid : σ → Option StatusWord

section Calls

variable {σ : Type} (K : Kernel σ)

/-- `system`, with the value that it returns. -/
def Kernel.systemCall (s : σ) (stdout : Stdout) : Option (List UInt8) → σ × Int32
  | none => (s, if K.shell s then 1 else 0)
  | some cmd =>
    ((K.system s stdout cmd).1, ((K.system s stdout cmd).2.map WaitStatus.word).getD (-1))

/-- The variable `status` after `waitpid`. -/
def Kernel.waited (s : σ) (status : WaitStatus) : StatusWord :=
  (K.waitpid s).getD (.ended status)

end Calls

inductive Program
  | exit (code : UInt8)
  | doSystem (cmd : Option (List UInt8)) (next : Bool → Program)
  | doExec (command : List (List UInt8)) (next : Bool → Program)
  | doExecRedirect (outputfile : List UInt8) (command : List (List UInt8)) (next : Bool → Program)

/-- What happens, in order: a call returns in some process, with the output that the process has, an
`execv` fails, or a process that runs the program ends. -/
inductive Entry
  | returned (stdout : Stdout) (value : Bool)
  | execFailed
  | ended (status : WaitStatus)
  deriving DecidableEq

/-- What a process leaves: the state of the system, how it has ended, and what has happened. -/
structure Outcome (σ : Type) where
  state : σ
  status : WaitStatus
  log : List Entry

def Outcome.after {σ : Type} (entries : List Entry) (o : Outcome σ) : Outcome σ :=
  { o with log := entries ++ o.log }

/-- What `do_exec` returns after `waitpid`. Only a status of `exit` counts. -/
def StatusWord.execResult : StatusWord → Bool
  | ended (.exited code) => code == 0
  | ended (.signalled _) => true
  | other => true

/-- The status that `exit(EXIT_FAILURE)` gives. -/
def exitFailure : WaitStatus := .exited 1

variable {σ : Type} (K : Kernel σ)

namespace Program

def run : Program → Stdout → σ → Outcome σ
  | exit code, _, s => ⟨s, .exited code, [.ended (.exited code)]⟩
  | doSystem cmd next, stdout, s =>
    let value := (K.systemCall s stdout cmd).2 == 0
    ((next value).run stdout (K.systemCall s stdout cmd).1).after [.returned stdout value]
  | doExec command next, stdout, s =>
    match K.fork s with
    | none => ((next true).run stdout s).after [.returned stdout true]
    | some s =>
      match K.execv s stdout command with
      | some (s, status) =>
        let value := (K.waited s status).execResult
        ((next value).run stdout s).after [.returned stdout value]
      | none =>
        -- the new process goes on with the program, and its end is what the caller waits for
        let child := (next false).run stdout s
        let value := (K.waited child.state child.status).execResult
        ((next value).run stdout child.state).after
          (.execFailed :: .returned stdout false :: child.log ++ [.returned stdout value])
  | doExecRedirect outputfile command next, stdout, s =>
    match K.fork s with
    | none => ⟨s, exitFailure, [.ended exitFailure]⟩
    | some s =>
      -- whatever becomes of the new process, the caller returns true
      match K.openOutput s outputfile with
      | none => ((next true).run stdout s).after [.returned stdout true]
      | some s =>
        if K.dup2 s then
          match K.execv s (.file outputfile) command with
          | some (s, _) => ((next true).run stdout s).after [.returned stdout true]
          | none =>
            let child := (next false).run (.file outputfile) s
            ((next true).run stdout child.state).after
              (.execFailed :: .returned (.file outputfile) false :: child.log ++
                [.returned stdout true])
        else ((next true).run stdout s).after [.returned stdout true]

/-- A command that was run counts when it has ended with `exit(0)` and `waitpid` says so. -/
def success (s : σ) (status : WaitStatus) : Bool :=
  (K.waitpid s).isNone && status == .exited 0

/-- What the comments promise: a call returns true exactly when the command was run and has ended
with `exit(0)`, and every call returns once. -/
def documented : Program → Stdout → σ → Outcome σ
  | exit code, _, s => ⟨s, .exited code, [.ended (.exited code)]⟩
  | doSystem none next, stdout, s =>
    ((next false).documented stdout s).after [.returned stdout false]
  | doSystem (some cmd) next, stdout, s =>
    let value := (K.system s stdout cmd).2 == some (.exited 0)
    ((next value).documented stdout (K.system s stdout cmd).1).after [.returned stdout value]
  | doExec command next, stdout, s =>
    match K.fork s with
    | none => ((next false).documented stdout s).after [.returned stdout false]
    | some s =>
      match K.execv s stdout command with
      | some (s, status) =>
        ((next (success K s status)).documented stdout s).after
          [.returned stdout (success K s status)]
      | none => ((next false).documented stdout s).after [.execFailed, .returned stdout false]
  | doExecRedirect outputfile command next, stdout, s =>
    match K.fork s with
    | none => ((next false).documented stdout s).after [.returned stdout false]
    | some s =>
      match K.openOutput s outputfile with
      | none => ((next false).documented stdout s).after [.returned stdout false]
      | some s =>
        if K.dup2 s then
          match K.execv s (.file outputfile) command with
          | some (s, status) =>
            ((next (success K s status)).documented stdout s).after
              [.returned stdout (success K s status)]
          | none => ((next false).documented stdout s).after [.execFailed, .returned stdout false]
        else ((next false).documented stdout s).after [.returned stdout false]

/-- The value that `do_exec` returns is right: the command has ended by `exit` and `waitpid` says
so, or `waitpid` fails and the variable happens to look like a command that has failed. -/
def Told (s : σ) (status : WaitStatus) (value : Bool) : Prop :=
  (K.waitpid s = none ∧ ∃ code, status = .exited code ∧ value = (code == 0)) ∨
    ∃ code, K.waitpid s = some (.ended (.exited code)) ∧ code ≠ 0 ∧ value = false

/-- No call of a program, as it runs, goes wrong in a way that the code does not report: `do_system`
without a command where there is no shell; in `fork` or `execv`, by a signal that ends the
command, or in `waitpid` for `do_exec`; and for `do_exec_redirect` in any way at all. -/
def Regular : Program → Stdout → σ → Prop
  | exit _, _, _ => True
  | doSystem none next, stdout, s => K.shell s = true ∧ (next false).Regular stdout s
  | doSystem (some cmd) next, stdout, s =>
    (next ((K.system s stdout cmd).2 == some (.exited 0))).Regular stdout (K.system s stdout cmd).1
  | doExec command next, stdout, s => ∃ s₁ s₂ status value, K.fork s = some s₁ ∧
    K.execv s₁ stdout command = some (s₂, status) ∧ Told K s₂ status value ∧
    (next value).Regular stdout s₂
  | doExecRedirect outputfile command next, stdout, s => ∃ s₁ s₂ s₃, K.fork s = some s₁ ∧
    K.openOutput s₁ outputfile = some s₂ ∧ K.dup2 s₂ = true ∧
    K.execv s₂ (.file outputfile) command = some (s₃, .exited 0) ∧ K.waitpid s₃ = none ∧
    (next true).Regular stdout s₃

end Program

/-! ## How many processes run the program -/

/-- A process that runs the program ends. -/
def Entry.isEnd : Entry → Bool
  | ended _ => true
  | _ => false

def Entry.isExecFailure : Entry → Bool
  | execFailed => true
  | _ => false

/-- How often the end of a program is reached, and how often `execv` has failed. -/
def Balanced (log : List Entry) : Prop :=
  log.countP Entry.isEnd = log.countP Entry.isExecFailure + 1

section Balance

variable {K} {log log' : List Entry}

private theorem Balanced.returned (h : Balanced log) (stdout : Stdout) (value : Bool) :
    Balanced (.returned stdout value :: log) := by
  rw [Balanced, List.countP_cons_of_neg (by simp [Entry.isEnd]),
    List.countP_cons_of_neg (by simp [Entry.isExecFailure])]
  exact h

/-- One `execv` has failed, and two processes have run the rest of the program. -/
private theorem Balanced.twice (h : Balanced log) (h' : Balanced log') (stdout stdout' : Stdout)
    (value : Bool) : Balanced
      (.execFailed :: .returned stdout false :: log ++ [.returned stdout' value] ++ log') := by
  rw [Balanced] at h h' ⊢
  simp only [List.countP_append, List.countP_cons, List.countP_nil, Entry.isEnd,
    Entry.isExecFailure, h, h']
  simp only [Bool.false_eq_true, if_false, if_true]
  omega

/-- **Every `execv` that fails is a process more.** In every run of a program, the processes that
run it to its end, or to the `exit` of `do_exec_redirect` where `fork` fails, are one more than the
calls of `execv` that failed. -/
theorem ends_eq (K : Kernel σ) (p : Program) (stdout : Stdout) (s : σ) :
    (p.run K stdout s).log.countP Entry.isEnd
      = (p.run K stdout s).log.countP Entry.isExecFailure + 1 := by
  change Balanced (p.run K stdout s).log
  induction p generalizing stdout s with
  | exit code => rfl
  | doSystem cmd next ih =>
    rw [Program.run]
    exact (ih _ _ _).returned _ _
  | doExec command next ih =>
    rw [Program.run]
    split
    · exact (ih _ _ _).returned _ _
    split
    · exact (ih _ _ _).returned _ _
    · exact (ih _ _ _).twice (ih _ _ _) _ _ _
  | doExecRedirect outputfile command next ih =>
    rw [Program.run]
    split
    · rfl
    split
    · exact (ih _ _ _).returned _ _
    split
    · split
      · exact (ih _ _ _).returned _ _
      · exact (ih _ _ _).twice (ih _ _ _) _ _ _
    · exact (ih _ _ _).returned _ _

end Balance

/-- A program that calls `do_exec` `n` times, and does not look at what it returns. -/
def Program.repeated (command : List (List UInt8)) : ℕ → Program
  | 0 => .exit 0
  | n + 1 => .doExec command fun _ ↦ repeated command n

/-- **Doubling.** When a command cannot be executed, a program that calls `do_exec` with it `n`
times is run to its end by `2 ^ n` processes. -/
theorem ends_repeated {K : Kernel σ} {command : List (List UInt8)}
    (hfork : ∀ s, (K.fork s).isSome = true) (hexecv : ∀ s stdout, K.execv s stdout command = none)
    (n : ℕ) (stdout : Stdout) (s : σ) :
    ((Program.repeated command n).run K stdout s).log.countP Entry.isEnd = 2 ^ n := by
  induction n generalizing s with
  | zero => rfl
  | succ n ih =>
    obtain ⟨s₁, hs₁⟩ := Option.isSome_iff_exists.mp (hfork s)
    simp only [Program.repeated, Program.run, hs₁, hexecv, Outcome.after, List.countP_append,
      List.countP_cons, List.countP_nil, Entry.isEnd, ih]
    simp only [Bool.false_eq_true, if_false]
    omega

/-- A system on which no command can be executed. -/
private def noCommands : Kernel Unit :=
  ⟨fun _ ↦ true, fun s _ _ ↦ (s, none), fun s ↦ some s, fun s _ ↦ some s, fun _ ↦ true,
    fun _ _ _ ↦ none, fun _ ↦ none⟩

/-- Three calls, and eight processes. -/
theorem ends_repeated_three :
    ((Program.repeated [[47, 120]] 3).run noCommands .inherited ()).log.countP Entry.isEnd = 8 :=
  ends_repeated (fun _ ↦ rfl) (fun _ _ ↦ rfl) 3 .inherited ()

/-- The call returns false in the new process, and true where it was made. -/
example : ((Program.repeated [[47, 120]] 1).run noCommands .inherited ()).log
    = [.execFailed, .returned .inherited false, .ended (.exited 0), .returned .inherited true,
        .ended (.exited 0)] := rfl

/-! ## When the code does what its comments promise -/

section Documented

variable {K}

private theorem word_eq_zero_iff (status : WaitStatus) : status.word = 0 ↔ status = .exited 0 := by
  have hzero : ∀ n : ℕ, n < 2 ^ 31 → (Int32.ofNat n = 0 ↔ n = 0) := by
    intro n hn
    rw [← Int32.toInt_inj, Int32.toInt_ofNat_of_lt hn]
    simp
  cases status with
  | exited code =>
    have hlt := code.toNat_lt
    rw [WaitStatus.word, hzero _ (by omega), WaitStatus.exited.injEq, ← UInt8.toNat_inj]
    simp
  | signalled signal =>
    have hlt := signal.number.toNat_lt
    have hne := signal.ne_zero
    rw [WaitStatus.word, hzero _ (by omega)]
    rw [Ne, ← UInt8.toNat_inj] at hne
    exact iff_of_false hne (by simp)

private theorem exited_beq (code : UInt8) :
    (WaitStatus.exited code == .exited 0) = (code == 0) := by
  rw [Bool.eq_iff_iff, beq_iff_eq, beq_iff_eq, WaitStatus.exited.injEq]

private theorem systemCall_some (s : σ) (stdout : Stdout) (cmd : List UInt8) :
    ((K.systemCall s stdout (some cmd)).2 == 0)
      = ((K.system s stdout cmd).2 == some (.exited 0)) := by
  rw [Kernel.systemCall, Bool.eq_iff_iff, beq_iff_eq, beq_iff_eq]
  rcases (K.system s stdout cmd).2 with _ | status
  · simp
  · simp [word_eq_zero_iff]

private theorem told_iff {s : σ} {status : WaitStatus} {value : Bool} :
    Program.Told K s status value ↔ (K.waited s status).execResult = Program.success K s status ∧
      value = Program.success K s status := by
  rw [Program.Told, Kernel.waited, Program.success]
  rcases hwait : K.waitpid s with _ | (⟨code | signal⟩ | _)
  · rcases status with code | signal
    · simp [StatusWord.execResult, exited_beq]
    · simp [StatusWord.execResult]
  · simp [StatusWord.execResult]
  · simp [StatusWord.execResult]
  · simp [StatusWord.execResult]

/-- The log of a program is the one that is promised, and nothing comes after it, exactly when the
program is regular. -/
private theorem log_append_eq_iff (p : Program) (stdout : Stdout) (s : σ) (rest : List Entry) :
    (p.run K stdout s).log ++ rest = (p.documented K stdout s).log ↔
      p.Regular K stdout s ∧ rest = [] := by
  induction p generalizing stdout s rest with
  | exit code => simp [Program.run, Program.documented, Program.Regular]
  | doSystem cmd next ih =>
    cases cmd with
    | none =>
      cases hshell : K.shell s <;>
        simp [Program.run, Program.documented, Program.Regular, Outcome.after,
          Kernel.systemCall, hshell, ih]
    | some cmd =>
      rw [Program.run, Program.documented, Program.Regular, systemCall_some]
      simp [Outcome.after, ih, Kernel.systemCall]
  | doExec command next ih =>
    rw [Program.run, Program.documented, Program.Regular]
    rcases hfork : K.fork s with _ | s₁
    · simp [Outcome.after]
    rcases hexecv : K.execv s₁ stdout command with _ | ⟨s₂, status⟩
    · -- the new process keeps to the promise at most until it ends, and more comes after that
      simp [Outcome.after, hexecv, ih]
    · have hregular : (∃ s₁' s₂' status' value, some s₁ = some s₁' ∧
          K.execv s₁' stdout command = some (s₂', status') ∧ Program.Told K s₂' status' value ∧
            (next value).Regular K stdout s₂') ↔ ∃ value, Program.Told K s₂ status value ∧
              (next value).Regular K stdout s₂ := by
        simp [hexecv]
      rw [hregular]
      simp only [hexecv, Outcome.after, told_iff, List.cons_append, List.nil_append,
        List.cons.injEq, Entry.returned.injEq, true_and]
      by_cases hvalue : (K.waited s₂ status).execResult = Program.success K s₂ status
      · simp [hvalue, ih]
      · simp [hvalue]
  | doExecRedirect outputfile command next ih =>
    rw [Program.run, Program.documented, Program.Regular]
    rcases hfork : K.fork s with _ | s₁
    · simp [Outcome.after]
    rcases hopen : K.openOutput s₁ outputfile with _ | s₂
    · simp [Outcome.after, hopen]
    by_cases hdup : K.dup2 s₂ = true
    swap
    · simp [Outcome.after, hopen, hdup]
    rcases hexecv : K.execv s₂ (.file outputfile) command with _ | ⟨s₃, status⟩
    · by_cases hstdout : stdout = .file outputfile
      · subst hstdout
        simp [Outcome.after, hopen, hdup, hexecv, ih]
      · simp [Outcome.after, hopen, hdup, hexecv, Ne.symm hstdout]
    have hsuccess : Program.success K s₃ status = true ↔
        status = .exited 0 ∧ K.waitpid s₃ = none := by
      rw [Program.success, Bool.and_eq_true, Option.isNone_iff_eq_none, beq_iff_eq, and_comm]
    by_cases hvalue : status = .exited 0 ∧ K.waitpid s₃ = none
    · obtain ⟨rfl, hwait⟩ := hvalue
      simp [Outcome.after, hopen, hdup, hexecv, hwait, hsuccess.mpr ⟨rfl, hwait⟩, ih]
    · have hfalse := eq_false_of_ne_true (mt hsuccess.mp hvalue)
      rw [not_and] at hvalue
      simp only [hopen, hdup, hexecv, hfalse, Outcome.after, if_true]
      refine iff_of_false (by simp) ?_
      rintro ⟨⟨_, _, s₃', hs₁, hs₂, -, hs₃, hwait, -⟩, -⟩
      cases hs₁
      cases hopen.symm.trans hs₂
      cases hexecv.symm.trans hs₃
      exact hvalue rfl hwait

/-- **When the functions do what their comments promise.** What a program sees of its calls, and the
processes that end, are what is promised if and only if the program is regular. -/
theorem log_eq_documented_iff (K : Kernel σ) (p : Program) (stdout : Stdout) (s : σ) :
    (p.run K stdout s).log = (p.documented K stdout s).log ↔ p.Regular K stdout s := by
  rw [← List.append_nil (p.run K stdout s).log, log_append_eq_iff]
  exact and_iff_left rfl

end Documented

end Aesd.Systemcalls
