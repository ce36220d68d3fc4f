import Aesd.Server.Threads

/-!
# The life of the server

The process from its first call to its exit: the handlers of the two signals, the forks of
`daemonize`, the listening socket, the thread that writes timestamps, the accept loop, and `cleanup`
with all that it gives back. A step is one call of `main`, one step of another thread, or a signal.

## What is taken from elsewhere

The accept loop and the sweep of `cleanup` are those of `Threads`. What a connection thread does
with its client is one phase of it here: it opens the data file, serves its client, and ends. In
the middle of that it can take the whole process with it, by `SIGPIPE` when it sends to a client
that is gone, or by `SIGSEGV` when it faults over a message (`Event.fatal`); the messages for which
it faults are the subject of `Connector` and `Commands`.

## What is assumed

Every thread that opens the data file gets it. When `fopen` fails in a connection thread or in the
timestamp thread, that thread calls `cleanup` itself, in competition with the main thread, and
exits; none of this is modelled. A call that blocks is a step that is not taken yet. No signals but
`SIGINT` and `SIGTERM` are sent to the process, `unlink` removes the data file when it is there, and
nobody else makes or removes it. The messages that are printed are left out.
-/

namespace Aesd.Lifecycle

/-! ## The state -/

/-- How the program was built, and what it was called with. -/
structure Config where
  useAesdCharDevice : Bool
  argv : List (List UInt8)

/-- `is_daemon`: the only argument is `-d`. -/
def Config.isDaemon (config : Config) : Bool :=
  match config.argv with
  | [_, arg] => arg = [45, 100]
  | _ => false

/-- The signals that have a handler. -/
inductive Signo
  | sigint
  | sigterm
  deriving DecidableEq

/-- The signals that a connection thread can bring upon the process. -/
inductive Fatal
  /-- `send` to a client that has closed its connection. -/
  | sigpipe
  /-- A fault. -/
  | sigsegv
  deriving DecidableEq

inductive ExitStatus
  | success
  | failure
  /-- By a signal whose handler was not set up yet. -/
  | killed (signo : Signo)
  /-- By what a connection thread has done. -/
  | crashed (signal : Fatal)
  deriving DecidableEq

/-- What has been done to the listening socket. -/
inductive SocketState
  | closed
  | created
  | bound
  | listening
  deriving DecidableEq

inductive TimestampPhase
  /-- It has not opened the data file yet. -/
  | started
  /-- The test of its loop. -/
  | loopTest
  | sleeping
  /-- The test after the sleep. -/
  | woken
  /-- It writes a timestamp. -/
  | writing
  /-- It closes the data file. -/
  | closing
  | returned
  /-- Nothing is left of it. -/
  | joined
  deriving DecidableEq

/-- What the main thread does next. From the accept loop on, the process knows how it will exit. -/
inductive Place
  /-- `setup_signal_handlers`. -/
  | sigaction (signo : Signo)
  /-- The four calls of `daemonize`. -/
  | fork
  | setsid
  | secondFork
  | chdir
  | socket
  | setsockopt
  | bind (bindAttempts : ℕ)
  | listen
  /-- `start_timestamp_thread`. -/
  | startTimestamp
  /-- The accept loop, and then the sweep of `cleanup` over the list. -/
  | running (status : ExitStatus)
  /-- The rest of `cleanup`. -/
  | joinTimestamp (status : ExitStatus)
  | closeSocket (status : ExitStatus)
  | unlink (status : ExitStatus)
  /-- `cleanup` has returned. -/
  | exit (status : ExitStatus)
  | exited (status : ExitStatus)
  deriving DecidableEq

/-- The process and what it has of the system around it. -/
structure State where
  place : Place
  threads : Threads
  sockfd : Int32
  /-- The socket that `sockfd` stands for. -/
  socket : SocketState
  /-- The thread of `timestamp_thread_id`, which is zero before it is created. -/
  timestamp : Option TimestampPhase
  /-- Whether there is a file at `FILE_PATH`. -/
  linked : Bool
  /-- Whether the process leads its session. -/
  leader : Bool

/-- A process that was started with a data file or without, by itself or as the leader of a session.
-/
def State.init (linked leader : Bool) : State :=
  ⟨.sigaction .sigint, .start, -1, .closed, none, linked, leader⟩

/-! ## Steps -/

/-- What happens. `ret` is what the call of `main` returns, `answer` what the environment answers to
it in the accept loop. -/
inductive Event
  | signal (signo : Signo)
  | main (ret : Int32) (answer : Answer)
  | connector (threadId : ℕ)
  /-- A connection thread that serves its client ends the process. -/
  | fatal (threadId : ℕ) (signal : Fatal)
  | timestamp

inductive Observed
  | quiet
  /-- The data file was opened, and made where there was none. -/
  | opened
  deriving DecidableEq

inductive LifecycleError
  | threads (e : ThreadError)
  /-- A call on a socket that is closed, or that has not been made ready for it. -/
  | badSocket
  /-- The timestamp thread is joined, and there is none. -/
  | notJoinable
  deriving DecidableEq

/-- The step has to wait, or cannot happen. -/
abbrev LifecycleError.disabled : LifecycleError := .threads .disabled

namespace State

def goto (s : State) (place : Place) : State := { s with place }

/-- `exit`, or the return from `main`. -/
def exit (s : State) (status : ExitStatus) : State := s.goto (.exited status)

/-- The call of `cleanup` before the accept loop, when something has failed. -/
def cleanup (s : State) : State :=
  { s with threads := { s.threads with pc := .cleanupTest s.threads.head }
           place := .running .failure }

/-- `signal_handler`, for the signals that have it; a signal without a handler ends the process. -/
def deliver (s : State) (signo : Signo) : Except LifecycleError State :=
  match s.place with
  | .exited _ => .error .disabled
  | .sigaction next =>
    -- the handler of `SIGINT` is there when that of `SIGTERM` is set up
    if next = .sigint ∨ signo = .sigterm then .ok (s.exit (.killed signo))
    else .ok { s with threads := { s.threads with exitRequested := true } }
  | _ => .ok { s with threads := { s.threads with exitRequested := true } }

/-- A call of `main` before the accept loop. -/
def startupStep (config : Config) (s : State) (ret : Int32) : Except LifecycleError State :=
  match s.place with
  | .sigaction .sigint =>
    if ret ≠ 0 then .ok (s.exit .failure) else .ok (s.goto (.sigaction .sigterm))
  | .sigaction .sigterm =>
    if ret ≠ 0 then .ok (s.exit .failure)
    else .ok (s.goto (if config.isDaemon then .fork else .socket))
  | .fork =>
    if ret < 0 then .ok (s.exit .failure)
    else if 0 < ret then .ok (s.exit .success)
    else .ok ({ s with leader := false }.goto .setsid)
  | .setsid =>
    if ret = -1 then .ok (s.exit .failure)
    else .ok ({ s with leader := true }.goto .secondFork)
  | .secondFork =>
    if ret < 0 then .ok (s.exit .failure)
    else if 0 < ret then .ok (s.exit .success)
    else .ok ({ s with leader := false }.goto .chdir)
  | .chdir => if ret < 0 then .ok (s.exit .failure) else .ok (s.goto .socket)
  | .socket =>
    if ret = -1 then .ok { s with sockfd := ret }.cleanup
    else .ok ({ s with sockfd := ret, socket := .created }.goto .setsockopt)
  | .setsockopt =>
    if s.socket = .closed then .error .badSocket
    else if ret ≠ 0 then .ok s.cleanup
    else .ok (s.goto (.bind 0))
  | .bind bindAttempts =>
    if s.socket ≠ .created then .error .badSocket
    else if ret = 0 then .ok ({ s with socket := .bound }.goto .listen)
    else if bindAttempts ≥ 5 then .ok s.cleanup
    else .ok (s.goto (.bind (bindAttempts + 1)))
  | .listen =>
    if s.socket ≠ .bound then .error .badSocket
    else if ret ≠ 0 then .ok s.cleanup
    else .ok ({ s with socket := .listening }.goto
      (if config.useAesdCharDevice then .running .success else .startTimestamp))
  | .startTimestamp =>
    if ret ≠ 0 then .ok (s.exit .failure)
    else .ok ({ s with timestamp := some .started }.goto (.running .success))
  | _ => .error .disabled

/-- A step of `main` in the accept loop, or in `cleanup`. -/
def servingStep (config : Config) (s : State) (answer : Answer) : Except LifecycleError State :=
  match s.place with
  | .running status =>
    if s.threads.pc = .returned then
      .ok (s.goto (if s.timestamp.isSome then .joinTimestamp status else .closeSocket status))
    else if s.threads.pc = .accept ∧ s.socket ≠ .listening then .error .badSocket
    else
      match s.threads.mainStep answer with
      | .error e => .error (.threads e)
      | .ok (threads, _) => .ok { s with threads }
  | .joinTimestamp status =>
    match s.timestamp with
    | some .returned => .ok ({ s with timestamp := some .joined }.goto (.closeSocket status))
    | some .joined => .error .notJoinable
    | some _ => .error .disabled
    | none => .error .notJoinable
  | .closeSocket status =>
    let next := if config.useAesdCharDevice then .exit status else .unlink status
    if s.sockfd = -1 then .ok (s.goto next)
    else if s.socket = .closed then .error .badSocket
    else .ok ({ s with socket := .closed }.goto next)
  | .unlink status => .ok ({ s with linked := false }.goto (.exit status))
  | .exit status => .ok (s.exit status)
  | _ => .error .disabled

end State

/-- The main thread is before its accept loop. -/
def Place.startup : Place → Bool
  | .running _ | .joinTimestamp _ | .closeSocket _ | .unlink _ | .exit _ | .exited _ => false
  | _ => true

namespace State

def mainStep (config : Config) (s : State) (ret : Int32) (answer : Answer) :
    Except LifecycleError State :=
  if s.place.startup then s.startupStep config ret else s.servingStep config answer

def alive (s : State) : Bool :=
  match s.place with
  | .exited _ => false
  | _ => true

/-- A connection thread opens the data file. -/
def opens : Option Thread → Bool
  | some ⟨_, .started⟩ => true
  | _ => false

/-- A step of a connection thread. Its first one is an `fopen` that succeeds; one that fails, after
which the thread calls `cleanup` and `exit`, is no step here. -/
def connectorStep (s : State) (threadId : ℕ) : Except LifecycleError (State × Observed) :=
  if s.alive then
    match s.threads.connectorStep threadId with
    | .error e => .error (.threads e)
    | .ok threads =>
      if opens (s.threads.threads threadId) then .ok ({ s with threads, linked := true }, .opened)
      else .ok ({ s with threads }, .quiet)
  else .error .disabled

/-- A connection thread faults, or sends to a client that is gone. -/
def fatalStep (s : State) (threadId : ℕ) (signal : Fatal) : Except LifecycleError State :=
  if s.alive then
    match s.threads.threads threadId with
    | some ⟨_, .serving⟩ => .ok (s.exit (.crashed signal))
    | _ => .error .disabled
  else .error .disabled

/-- A step of the timestamp thread. Its first one is an `fopen` that succeeds, here too. -/
def timestampStep (s : State) : Except LifecycleError (State × Observed) :=
  if s.alive then
    match s.timestamp with
    | some .started => .ok ({ s with timestamp := some .loopTest, linked := true }, .opened)
    | some .loopTest =>
      let next := if s.threads.exitRequested then .closing else .sleeping
      .ok ({ s with timestamp := some next }, .quiet)
    | some .sleeping => .ok ({ s with timestamp := some .woken }, .quiet)
    | some .woken =>
      let next := if s.threads.exitRequested then .closing else .writing
      .ok ({ s with timestamp := some next }, .quiet)
    | some .writing => .ok ({ s with timestamp := some .loopTest }, .quiet)
    | some .closing => .ok ({ s with timestamp := some .returned }, .quiet)
    | some .returned => .error .disabled
    | some .joined => .error .disabled
    | none => .error .disabled
  else .error .disabled

def step (config : Config) (s : State) : Event → Except LifecycleError (State × Observed)
  | .signal signo => (s.deliver signo).map fun s ↦ (s, .quiet)
  | .main ret answer => (s.mainStep config ret answer).map fun s ↦ (s, .quiet)
  | .connector threadId => s.connectorStep threadId
  | .fatal threadId signal => (s.fatalStep threadId signal).map fun s ↦ (s, .quiet)
  | .timestamp => s.timestampStep

end State

def machine (config : Config) : Machine State Event Observed LifecycleError := ⟨State.step config⟩

@[simp] theorem machine_step (config : Config) : (machine config).step = State.step config := rfl

end Aesd.Lifecycle
