import Aesd.Server.Connector

/-!
# The socket server

The server over the driver: any number of connections, whose threads receive in any order and
answer in the order in which they take `file_mutex`. A step of the system is one call of
`accept` or `recv`, or the whole section under the mutex.

That the section is one step is an assumption of this module, which `Interleaving` removes. The
threads share nothing else: a message is assembled in memory that belongs to its thread alone, so
each `Connector` has a heap of its own.
-/

namespace Aesd

open Machine

/-- The driver, and the threads of the open connections. -/
structure Server where
  driver : Driver
  conns : ℕ → Option Connector

inductive ServerEvent
  /-- A connection is accepted. Its thread opens the device. -/
  | accept (conn : ℕ)
  /-- `recv` returns a chunk, and `realloc` is served or not. -/
  | recv (conn : ℕ) (chunk : Chunk) (granted : Bool)
  /-- `recv` returns no bytes or an error. -/
  | hangup (conn : ℕ)
  /-- A thread whose receive loop has ended takes `file_mutex`, answers and ends. -/
  | serve (conn : ℕ) (io : Stdio)

/-- What a client, or an observer of the thread, sees of a step. -/
inductive Reply
  | quiet
  /-- A `realloc` failed. -/
  | refused
  | sent (bytes : List UInt8)
  deriving DecidableEq

namespace Server

def started (d : Driver) : Server := ⟨d, fun _ ↦ none⟩

def setConn (s : Server) (i : ℕ) (c : Option Connector) : Server :=
  { s with conns := Function.update s.conns i c }

def step (K : FixedSizeLlseek) (s : Server) : ServerEvent → Except ServerError (Server × Reply)
  | .accept i =>
    match s.conns i with
    | some _ => .error .disabled
    | none => .ok (s.setConn i (some .start), .quiet)
  | .recv i chunk granted =>
    match s.conns i with
    | none => .error .disabled
    | some c =>
      if c.receiving then
        match receivePass c chunk granted with
        | .error f => .error (.fault f)
        | .ok (c', served) => .ok (s.setConn i (some c'), if served then .quiet else .refused)
      else .error .disabled
  | .hangup i =>
    match s.conns i with
    | none => .error .disabled
    | some c =>
      if c.receiving then .ok (s.setConn i (some { c with receiving := false }), .quiet)
      else .error .disabled
  | .serve i io =>
    match s.conns i with
    | none => .error .disabled
    | some c =>
      if c.receiving then .error .disabled
      else
        match connectorServe K s.driver c io with
        | .error e => .error e
        | .ok (d, reply) => .ok ({ s with driver := d }.setConn i none, reply.elim .quiet .sent)

def machine (K : FixedSizeLlseek) : Machine Server ServerEvent Reply ServerError := ⟨step K⟩

@[simp] theorem machine_step (K : FixedSizeLlseek) : (machine K).step = step K := rfl

theorem step_driver {K : FixedSizeLlseek} {s s' : Server} {e : ServerEvent} {r : Reply}
    (hne : ∀ i io, e ≠ .serve i io) (hstep : step K s e = .ok (s', r)) :
    s'.driver = s.driver := by
  cases e with
  | serve i io => exact absurd rfl (hne i io)
  | accept i =>
    rw [step] at hstep
    split at hstep
    · cases hstep
    · cases hstep
      rfl
  | recv i chunk granted =>
    rw [step] at hstep
    split at hstep
    · cases hstep
    split at hstep
    · split at hstep
      · cases hstep
      · cases hstep
        rfl
    · cases hstep
  | hangup i =>
    rw [step] at hstep
    split at hstep
    · cases hstep
    split at hstep
    · cases hstep
      rfl
    · cases hstep

@[simp] theorem setConn_self (s : Server) (i : ℕ) (c : Option Connector) :
    (s.setConn i c).conns i = c := Function.update_self ..

theorem setConn_of_ne (s : Server) {i j : ℕ} (h : j ≠ i) (c : Option Connector) :
    (s.setConn i c).conns j = s.conns j := Function.update_of_ne h ..

end Server

abbrev ServerMove := Move Server ServerEvent Reply

end Aesd
