import Aesd.Foundation.Chain
import Aesd.Foundation.Machine

/-!
# The main thread and its connections

The accept loop of `main` and the sweeps over the list of connection threads, with the threads
themselves running in between. A step of the system is one step of the main thread up to the next
place where another thread can be noticed, one step of a connection thread, or the signal that asks
for the exit.

Only the main thread looks at the list and its nodes; a connection thread reads and writes its own
`thread_arg`. Joining a thread and removing its node are one step, since no other thread can tell
them apart. What a connection does with its socket and the device is left out here.

## What is assumed

The `fopen` of every connection thread succeeds. A thread whose `fopen` fails calls `cleanup`
itself and exits, while the main thread is still working on the list.

## Blocking

`accept` and `pthread_join` wait. A join of a thread that has not returned is disabled, which is no
fault: the step is taken later. An `accept` that has not returned is simply not taken yet, and one
that fails answers `none`. A connection thread serves its client in one step, which is taken when
its `recv`, its `pthread_mutex_lock` and its `send` have returned.
-/

namespace Aesd

structure ThreadArg where
  clientSock : Int32
  finished : Bool
  deriving DecidableEq

/-- `slist_data_t`, without its list entry. -/
structure SlistData where
  threadArg : ℕ
  threadId : ℕ
  deriving DecidableEq

/-! ## The state -/

/-- How far a connection thread has come. -/
inductive Phase
  /-- It has not read its socket yet. -/
  | started
  /-- It serves its client. -/
  | serving
  /-- It has set its `finished` flag and closes its socket. -/
  | closing
  /-- It has returned. -/
  | returned
  deriving DecidableEq

/-- The value that the flag of a thread has. -/
def Phase.finished : Phase → Bool
  | .started => false
  | .serving => false
  | .closing => true
  | .returned => true

/-- A thread that was created and not joined. -/
structure Thread where
  threadArg : ℕ
  phase : Phase
  deriving DecidableEq

/-- What the main thread does next. In the sweeps, `slistData` and `tmp` are its two variables. -/
inductive Pc
  /-- The test of the accept loop. -/
  | loopTest
  | accept
  /-- `malloc` of a `thread_arg`. -/
  | alloc (clientSock : Int32)
  /-- `pthread_create`. -/
  | create (threadArg : ℕ)
  /-- `add_node`. -/
  | add (threadArg threadId : ℕ)
  /-- The test of the sweep in the accept loop, which also reads the next node. -/
  | sweepTest (slistData : Option ℕ)
  /-- The test of the `finished` flag. -/
  | sweepCheck (slistData : ℕ) (tmp : Option ℕ)
  /-- `pthread_join` and `remove_node`. -/
  | sweepJoin (slistData : ℕ) (tmp : Option ℕ)
  /-- The test of the sweep in `cleanup`. -/
  | cleanupTest (slistData : Option ℕ)
  /-- `pthread_join` and `remove_node` in `cleanup`. -/
  | cleanupJoin (slistData : ℕ) (tmp : Option ℕ)
  /-- `cleanup` has returned. -/
  | returned
  deriving DecidableEq

/-- The memory that the threads share, the threads, and where the main thread is. -/
structure Threads where
  exitRequested : Bool
  head : Option ℕ
  nodes : Heap (Node SlistData)
  args : Heap ThreadArg
  threads : ℕ → Option Thread
  pc : Pc

def Threads.start : Threads := ⟨false, none, Heap.empty, Heap.empty, fun _ ↦ none, .loopTest⟩

/-! ## Steps -/

/-- What the environment answers to the next call of the main thread: the socket that `accept`
returns, whether `malloc` is served, and the thread that `pthread_create` starts. -/
structure Answer where
  accepted : Option Int32
  granted : Bool
  created : Option ℕ

inductive ThreadEvent
  /-- `signal_handler` sets `exit_requested`. -/
  | signal
  | main (answer : Answer)
  | connector (threadId : ℕ)

inductive ThreadReply
  | quiet
  /-- The `finished` flag of a thread was found set. -/
  | sawFinished (threadId : ℕ)
  | joined (threadId : ℕ)
  deriving DecidableEq

/-- Why a step is not taken. A thread that is not running or waiting to be joined must not be
joined; a step that has to wait, or that cannot happen, is disabled. -/
inductive ThreadError
  | fault (f : Fault)
  | notJoinable
  | disabled
  deriving DecidableEq

/-- A computation of the C program, as part of a step. -/
def ThreadError.lift {α : Type} (r : Except Fault α) : Except ThreadError α := r.mapError .fault

@[simp] theorem ThreadError.lift_ok {α : Type} (a : α) :
    lift (.ok a : Except Fault α) = .ok a := rfl

theorem ThreadError.lift_eq_ok {α : Type} {r : Except Fault α} {a : α} (h : lift r = .ok a) :
    r = .ok a := by
  cases r with
  | error e => cases h
  | ok b =>
    cases h
    rfl

namespace Threads

open ThreadError (lift)

def addNode (s : Threads) (data : SlistData) (granted : Bool) : Threads :=
  if granted then
    { s with nodes := (Chain.insertHead s.nodes s.head data).1
             head := (Chain.insertHead s.nodes s.head data).2 }
  else s

def removeNode (s : Threads) (node : ℕ) : Except Fault Threads := do
  let (nodes, head) ← Chain.remove s.nodes s.head node
  let data ← nodes.get node
  let args ← s.args.free data.value.threadArg
  let nodes ← nodes.free node
  return { s with nodes, head, args }

/-- `pthread_join`, which waits for the thread to return. -/
def join (s : Threads) (threadId : ℕ) : Except ThreadError Threads :=
  match s.threads threadId with
  | none => .error .notJoinable
  | some thread =>
    if thread.phase = .returned then
      .ok { s with threads := Function.update s.threads threadId none }
    else .error .disabled

/-- The body of both sweeps: join the thread of a node and remove the node. -/
def joinAndRemove (s : Threads) (node : ℕ) (pc : Pc) :
    Except ThreadError (Threads × ThreadReply) := do
  let data ← lift (s.nodes.get node)
  let s ← s.join data.value.threadId
  let s ← lift (s.removeNode node)
  return ({ s with pc }, .joined data.value.threadId)

def mainStep (s : Threads) (answer : Answer) : Except ThreadError (Threads × ThreadReply) :=
  match s.pc with
  | .loopTest =>
    .ok ({ s with pc := if s.exitRequested then .cleanupTest s.head else .accept }, .quiet)
  | .accept =>
    match answer.accepted with
    | none =>
      .ok ({ s with pc := if s.exitRequested then .cleanupTest s.head else .loopTest }, .quiet)
    | some clientSock => .ok ({ s with pc := .alloc clientSock }, .quiet)
  | .alloc clientSock =>
    if answer.granted then
      .ok ({ s with args := (s.args.new ⟨clientSock, false⟩).1
                    pc := .create (s.args.new ⟨clientSock, false⟩).2 }, .quiet)
    else .ok ({ s with pc := .loopTest }, .quiet)
  | .create threadArg =>
    match answer.created with
    | none => do
      let args ← lift (s.args.free threadArg)
      return ({ s with args, pc := .loopTest }, .quiet)
    | some threadId =>
      if s.threads threadId = none then
        .ok ({ s with threads := Function.update s.threads threadId (some ⟨threadArg, .started⟩)
                      pc := .add threadArg threadId }, .quiet)
      else .error .disabled
  | .add threadArg threadId =>
    let s := s.addNode ⟨threadArg, threadId⟩ answer.granted
    .ok ({ s with pc := .sweepTest s.head }, .quiet)
  | .sweepTest none => .ok ({ s with pc := .loopTest }, .quiet)
  | .sweepTest (some slistData) => do
    let data ← lift (s.nodes.get slistData)
    return ({ s with pc := .sweepCheck slistData data.next }, .quiet)
  | .sweepCheck slistData tmp => do
    let data ← lift (s.nodes.get slistData)
    let threadArg ← lift (s.args.get data.value.threadArg)
    if threadArg.finished then
      return ({ s with pc := .sweepJoin slistData tmp }, .sawFinished data.value.threadId)
    else return ({ s with pc := .sweepTest tmp }, .quiet)
  | .sweepJoin slistData tmp => s.joinAndRemove slistData (.sweepTest tmp)
  | .cleanupTest none => .ok ({ s with pc := .returned }, .quiet)
  | .cleanupTest (some slistData) => do
    let data ← lift (s.nodes.get slistData)
    return ({ s with pc := .cleanupJoin slistData data.next }, .quiet)
  | .cleanupJoin slistData tmp => s.joinAndRemove slistData (.cleanupTest tmp)
  | .returned => .error .disabled

/-- One step of `connector`, as far as it touches its `thread_arg`. Its `fopen` has succeeded. -/
def connectorStep (s : Threads) (threadId : ℕ) : Except ThreadError Threads :=
  match s.threads threadId with
  | none => .error .disabled
  | some ⟨threadArg, .started⟩ => do
    -- `client_sock` is read once, into a local variable
    let _ ← lift (s.args.get threadArg)
    return { s with threads := Function.update s.threads threadId (some ⟨threadArg, .serving⟩) }
  | some ⟨threadArg, .serving⟩ => do
    let arg ← lift (s.args.get threadArg)
    let args ← lift (s.args.set threadArg { arg with finished := true })
    return { s with args
                    threads := Function.update s.threads threadId (some ⟨threadArg, .closing⟩) }
  | some ⟨threadArg, .closing⟩ =>
    .ok { s with threads := Function.update s.threads threadId (some ⟨threadArg, .returned⟩) }
  | some ⟨_, .returned⟩ => .error .disabled

def step (s : Threads) : ThreadEvent → Except ThreadError (Threads × ThreadReply)
  | .signal => .ok ({ s with exitRequested := true }, .quiet)
  | .main answer => s.mainStep answer
  | .connector threadId =>
    match s.connectorStep threadId with
    | .error e => .error e
    | .ok s' => .ok (s', .quiet)

def machine : Machine Threads ThreadEvent ThreadReply ThreadError := ⟨step⟩

@[simp] theorem machine_step : machine.step = step := rfl

end Threads

abbrev ThreadMove := Move Threads ThreadEvent ThreadReply

end Aesd
