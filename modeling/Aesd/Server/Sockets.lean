import Aesd.Foundation.Holders
import Aesd.Server.ThreadList

/-!
# The sockets of the clients

Which descriptors the server has open for its clients. `main` keeps the descriptor that `accept`
returned in a local variable until it has passed it on to a thread, or closes it when there is no
memory or no thread for it; a connection thread reads the descriptor from its `thread_arg` and
closes it at its end. `Sockets` adds the table of open descriptors and the local variables to the
threads. As in `Threads`, every connection thread has opened its file.

A socket that is open is in the hands of exactly one of them (`sockets_safe`), so no descriptor is
closed twice, when it could be that of another client already. When `cleanup` has returned, every
socket is closed unless a thread that was lost is still running (`sockets_closed_iff`).

## Descriptors are handed out again

The kernel gives a new connection the lowest descriptor that is free, often one that was closed just
before. Closing a descriptor twice would then close the socket of a client that has nothing to do
with it. The environment may therefore answer `accept` with any descriptor that is not open, and
the invariant `Tidy` is `OneHolder` for the descriptors.
-/

namespace Aesd

open Machine Threads
open Function (update update_self update_of_ne)

/-! ## The state -/

/-- The threads and the sockets of the clients. -/
structure Sockets where
  threads : Threads
  /-- Whether a descriptor is that of an open socket. -/
  isOpen : Int32 → Bool
  /-- `client_sock` of `main`. -/
  clientSock : Int32
  /-- `client_sock` of each connection thread. -/
  locals : ℕ → Int32

def Sockets.start : Sockets := ⟨.start, fun _ ↦ false, 0, fun _ ↦ 0⟩

inductive SocketReply
  | quiet
  | opened (sock : Int32)
  | closed (sock : Int32)
  deriving DecidableEq

inductive SocketError
  | threads (e : ThreadError)
  /-- `close` of a descriptor that is not open. -/
  | badDescriptor
  deriving DecidableEq

namespace Sockets

def close (s : Sockets) (sock : Int32) : Except SocketError (Sockets × SocketReply) :=
  if s.isOpen sock then .ok ({ s with isOpen := update s.isOpen sock false }, .closed sock)
  else .error .badDescriptor

/-- What `main` does with the descriptors in a step. -/
def mainCall (s : Sockets) (answer : Answer) : Except SocketError (Sockets × SocketReply) :=
  match s.threads.pc with
  | .accept =>
    match answer.accepted with
    | none => .ok (s, .quiet)
    | some sock =>
      -- a new descriptor is not one that is open
      if s.isOpen sock then .error (.threads .disabled)
      else .ok ({ s with isOpen := update s.isOpen sock true, clientSock := sock }, .opened sock)
  | .alloc _ => if answer.granted then .ok (s, .quiet) else s.close s.clientSock
  | .create _ => if answer.created = none then s.close s.clientSock else .ok (s, .quiet)
  | _ => .ok (s, .quiet)

/-- What `connector` does with the descriptors in a step. -/
def connectorCall (s : Sockets) (threadId : ℕ) : Except SocketError (Sockets × SocketReply) :=
  match s.threads.threads threadId with
  | some ⟨threadArg, .started⟩ =>
    match s.threads.args.get threadArg with
    | .error e => .error (.threads (.fault e))
    | .ok arg => .ok ({ s with locals := update s.locals threadId arg.clientSock }, .quiet)
  | some ⟨_, .closing⟩ => s.close (s.locals threadId)
  | _ => .ok (s, .quiet)

def call (s : Sockets) : ThreadEvent → Except SocketError (Sockets × SocketReply)
  | .signal => .ok (s, .quiet)
  | .main answer => s.mainCall answer
  | .connector threadId => s.connectorCall threadId

def step (s : Sockets) (e : ThreadEvent) : Except SocketError (Sockets × SocketReply) :=
  match s.threads.step e with
  | .error err => .error (.threads err)
  | .ok (threads, _) =>
    match s.call e with
    | .error err => .error err
    | .ok (s', r) => .ok ({ s' with threads }, r)

def machine : Machine Sockets ThreadEvent SocketReply SocketError := ⟨step⟩

@[simp] theorem machine_step : machine.step = step := rfl

/-! ## Who has a socket -/

/-- The socket of a connection thread: the one in its argument until it has read it, then the one in
its local variable, until it has closed it. -/
def threadSock (s : Sockets) (i : ℕ) : Option Int32 :=
  match s.threads.threads i with
  | none => none
  | some ⟨a, .started⟩ => (s.threads.args.get a).toOption.map ThreadArg.clientSock
  | some ⟨_, .returned⟩ => none
  | some ⟨_, _⟩ => some (s.locals i)

/-- The main thread has accepted a connection and not passed it on. -/
def hasSocket : Pc → Bool
  | .alloc _ => true
  | .create _ => true
  | _ => false

/-- The sockets of `main`, as user `none`, and of the connection threads. -/
def held (s : Sockets) : Option ℕ → Option Int32
  | none => if hasSocket s.threads.pc then some s.clientSock else none
  | some i => s.threadSock i

/-- What holds between any two steps: every open socket is in one place, and what `main` has
accepted is in its local variable. -/
structure Tidy (s : Sockets) : Prop where
  oneHolder : OneHolder s.held s.isOpen
  alloc : ∀ sock, s.threads.pc = .alloc sock → s.clientSock = sock
  create : ∀ a, s.threads.pc = .create a → s.threads.args.Holds a [⟨s.clientSock, false⟩]

theorem tidy_start : Tidy start where
  oneHolder := by
    have hheld : ∀ u, start.held u = none := by rintro (_ | i) <;> rfl
    exact ⟨fun x ↦ iff_of_false Bool.false_ne_true (by simp [hheld]),
      fun {u _ _} hu ↦ by rw [hheld u] at hu; cases hu⟩
  alloc := nofun
  create := nofun

/-! ## What a step of the main thread does -/

/-- An argument whose flag is not set before and after a step has the same socket. -/
def SameSocks (args args' : Heap ThreadArg) : Prop :=
  ∀ a sock sock', args.Holds a [⟨sock, false⟩] → args'.Holds a [⟨sock', false⟩] → sock' = sock

section SameSocks

variable {args args' : Heap ThreadArg}

private theorem sock_eq {a : ℕ} {sock sock' : Int32} (h : args.Holds a [⟨sock, false⟩])
    (h' : args.Holds a [⟨sock', false⟩]) : sock' = sock := by
  have hget := Heap.get_of_holds h'
  rw [Heap.get_of_holds h, Except.ok.injEq, ThreadArg.mk.injEq] at hget
  exact hget.1.symm

theorem sameSocks_refl (args : Heap ThreadArg) : SameSocks args args := fun _ _ _ ↦ sock_eq

theorem sameSocks_new (args : Heap ThreadArg) (arg : ThreadArg) :
    SameSocks args (args.new arg).1 := by
  intro a sock sock' h h'
  exact sock_eq (h.congr (Heap.new_cells_of_ne _ _ (Heap.ne_next_of_live h.live))) h'

theorem sameSocks_free {b : ℕ} (hfree : args.free b = .ok args') : SameSocks args args' := by
  intro a sock sock' h h'
  have hne := ((Heap.live_of_free hfree).mp h'.live).2
  exact sock_eq (h.congr (Heap.cells_of_free hfree hne)) h'

theorem sameSocks_set {b : ℕ} {arg : ThreadArg} (hb : args.Holds b [arg])
    (hset : args.set b { arg with finished := true } = .ok args') : SameSocks args args' := by
  obtain ⟨_, hset', hself, hother⟩ := Heap.set_of_holds hb { arg with finished := true }
  rw [hset, Except.ok.injEq] at hset'
  subst hset'
  intro a sock sock' h h'
  have hne : a ≠ b := by
    rintro rfl
    have hget := Heap.get_of_holds h'
    rw [Heap.get_of_holds hself, Except.ok.injEq] at hget
    cases congrArg ThreadArg.finished hget
  exact sock_eq (h.congr (hother a hne)) h'

end SameSocks

/-- What a step of the main thread does to what the sockets depend on. -/
inductive MainEffect (t : Threads) (answer : Answer) (t' : Threads) : Prop
  | quiet (hpc : hasSocket t.pc = false) (hacc : t.pc = .accept → answer.accepted = none)
      (hpc' : hasSocket t'.pc = false) (hargs : SameSocks t.args t'.args)
      (hthreads : ∀ i, t'.threads i = t.threads i ∨
        (∃ a, t.threads i = some ⟨a, .returned⟩) ∧ t'.threads i = none)
  | accepted (sock : Int32) (hpc : t.pc = .accept) (hacc : answer.accepted = some sock)
      (h : t' = { t with pc := .alloc sock })
  | granted (sock : Int32) (hpc : t.pc = .alloc sock) (hgranted : answer.granted = true)
      (h : t' = { t with args := (t.args.new ⟨sock, false⟩).1
                         pc := .create (t.args.new ⟨sock, false⟩).2 })
  | refused (sock : Int32) (hpc : t.pc = .alloc sock) (hgranted : answer.granted = false)
      (h : t' = { t with pc := .loopTest })
  | failed (a : ℕ) (args : Heap ThreadArg) (hpc : t.pc = .create a)
      (hcreated : answer.created = none) (hfree : t.args.free a = .ok args)
      (h : t' = { t with args, pc := .loopTest })
  | created (a i : ℕ) (hpc : t.pc = .create a) (hcreated : answer.created = some i)
      (hi : t.threads i = none)
      (h : t' = { t with threads := update t.threads i (some ⟨a, .started⟩), pc := .add a i })

private theorem MainEffect.goto {t : Threads} {answer : Answer} {pc : Pc}
    (hpc : hasSocket t.pc = false) (hacc : t.pc = .accept → answer.accepted = none)
    (hpc' : hasSocket pc = false) :
    MainEffect t answer { t with pc } :=
  .quiet hpc hacc hpc' (sameSocks_refl _) fun _ ↦ .inl rfl

private theorem MainEffect.join {t t' : Threads} {answer : Answer} {r : ThreadReply} {node : ℕ}
    {pc : Pc} (hpc : hasSocket t.pc = false) (hacc : t.pc ≠ .accept) (hpc' : hasSocket pc = false)
    (h : t.joinAndRemove node pc = .ok (t', r)) : MainEffect t answer t' := by
  obtain ⟨data, thread, b, -, hthread, hphase, hthreads, hfree, rfl, -⟩ :=
    Threads.joinAndRemove_eq_ok h
  refine .quiet hpc (fun h ↦ absurd h hacc) hpc' (sameSocks_free hfree) fun i ↦ ?_
  rw [hthreads]
  by_cases hi : i = data.value.threadId
  · right
    obtain ⟨a, phase⟩ := thread
    obtain rfl : phase = .returned := hphase
    rw [hi]
    exact ⟨⟨a, hthread⟩, update_self ..⟩
  · exact .inl (update_of_ne hi ..)

/-- **What a step of the main thread can do** to the sockets. -/
theorem MainEffect.of_ok {t t' : Threads} {answer : Answer} {r : ThreadReply}
    (h : t.mainStep answer = .ok (t', r)) : MainEffect t answer t' := by
  rw [Threads.mainStep] at h
  split at h
  · rename_i hpc
    cases h
    refine .goto (by rw [hpc]; rfl) (by simp [hpc]) ?_
    split <;> rfl
  · rename_i hpc
    split at h
    · rename_i hacc
      cases h
      refine .goto (by rw [hpc]; rfl) (fun _ ↦ hacc) ?_
      split <;> rfl
    · rename_i sock hacc
      cases h
      exact .accepted sock hpc hacc rfl
  · rename_i sock hpc
    split at h
    · rename_i hgranted
      cases h
      exact .granted sock hpc hgranted rfl
    · rename_i hgranted
      cases h
      exact .refused sock hpc (eq_false_of_ne_true hgranted) rfl
  · rename_i a hpc
    split at h
    · rename_i hcreated
      obtain ⟨args, hfree, h⟩ := exists_of_bind_eq_ok h
      cases h
      exact .failed a args hpc hcreated (ThreadError.lift_eq_ok hfree) rfl
    · rename_i i hcreated
      split at h
      · rename_i hi
        cases h
        exact .created a i hpc hcreated hi rfl
      · cases h
  · rename_i a i hpc
    cases h
    have hargs : (t.addNode ⟨a, i⟩ answer.granted).args = t.args := by
      rw [Threads.addNode]
      split <;> rfl
    have hthreads : (t.addNode ⟨a, i⟩ answer.granted).threads = t.threads := by
      rw [Threads.addNode]
      split <;> rfl
    refine .quiet (by rw [hpc]; rfl) (by simp [hpc]) rfl ?_ fun j ↦ .inl ?_
    · dsimp only
      rw [hargs]
      exact sameSocks_refl _
    · dsimp only
      rw [hthreads]
  · rename_i hpc
    cases h
    exact .goto (by rw [hpc]; rfl) (by simp [hpc]) rfl
  · rename_i hpc
    obtain ⟨data, -, h⟩ := exists_of_bind_eq_ok h
    cases h
    exact .goto (by rw [hpc]; rfl) (by simp [hpc]) rfl
  · rename_i hpc
    obtain ⟨data, -, h⟩ := exists_of_bind_eq_ok h
    obtain ⟨arg, -, h⟩ := exists_of_bind_eq_ok h
    split at h <;> cases h <;> exact .goto (by rw [hpc]; rfl) (by simp [hpc]) rfl
  · rename_i hpc
    exact .join (by rw [hpc]; rfl) (by simp [hpc]) rfl h
  · rename_i hpc
    cases h
    exact .goto (by rw [hpc]; rfl) (by simp [hpc]) rfl
  · rename_i hpc
    obtain ⟨data, -, h⟩ := exists_of_bind_eq_ok h
    cases h
    exact .goto (by rw [hpc]; rfl) (by simp [hpc]) rfl
  · rename_i hpc
    exact .join (by rw [hpc]; rfl) (by simp [hpc]) rfl h
  · cases h

/-! ## Every step keeps the sockets in place -/

section Step

variable {s s' : Sockets} {t' : Threads} {l l' : List (ℕ × SlistData)} {lost lost' : List SlistData}
  {answer : Answer} {i : ℕ}

private theorem exists_arg {t : Threads} (h : t.Inv l lost) {a : ℕ}
    (ht : t.threads i = some ⟨a, .started⟩) : ∃ sock, t.args.Holds a [⟨sock, false⟩] := by
  obtain ⟨sock, -, hholds⟩ := h.linked.owns.holds ht
  exact ⟨sock, hholds⟩

/-- A thread has a socket until it returns. -/
private theorem exists_threadSock (h : s.threads.Inv l lost) {thread : Thread}
    (ht : s.threads.threads i = some thread) (hphase : thread.phase ≠ .returned) :
    ∃ sock, s.threadSock i = some sock := by
  obtain ⟨a, phase⟩ := thread
  rw [threadSock, ht]
  cases phase with
  | started =>
    obtain ⟨sock, hholds⟩ := exists_arg h ht
    dsimp only
    exact ⟨sock, by rw [Heap.get_of_holds hholds]; rfl⟩
  | serving => exact ⟨_, rfl⟩
  | closing => exact ⟨_, rfl⟩
  | returned => exact absurd rfl hphase

private theorem phase_of_threadSock {sock : Int32} (h : s.threadSock i = some sock) :
    ∃ thread, s.threads.threads i = some thread ∧ thread.phase ≠ .returned := by
  rw [threadSock] at h
  split at h
  · cases h
  · rename_i ht
    exact ⟨_, ht, nofun⟩
  · cases h
  · rename_i hphase ht
    exact ⟨_, ht, hphase⟩

private theorem threadSock_congr (h : s.threads.Inv l lost) (h' : s'.threads.Inv l' lost')
    (hargs : SameSocks s.threads.args s'.threads.args)
    (hthread : s'.threads.threads i = s.threads.threads i) (hlocal : s'.locals i = s.locals i) :
    s'.threadSock i = s.threadSock i := by
  rw [threadSock, threadSock, hthread, hlocal]
  split
  · rfl
  · rename_i a ht
    obtain ⟨sock, hholds⟩ := exists_arg h ht
    obtain ⟨sock', hholds'⟩ := exists_arg h' (hthread.trans ht)
    rw [Heap.get_of_holds hholds, Heap.get_of_holds hholds', hargs a sock sock' hholds hholds']
  · rfl
  · rfl

private theorem oneHolder_of_update {u : Option ℕ} {x : Option Int32} {isOpen : Int32 → Bool}
    (h : OneHolder (update s.held u x) isOpen) (hu : s'.held u = x)
    (hother : ∀ v, v ≠ u → s'.held v = s.held v) : OneHolder s'.held isOpen := by
  rwa [Function.eq_update_iff.mpr ⟨hu, hother⟩]

private theorem oneHolder_of_main {x : Option Int32} {isOpen : Int32 → Bool}
    (h : OneHolder (update s.held none x) isOpen) (hmain : s'.held none = x)
    (hthreads : ∀ i, s'.threadSock i = s.threadSock i) : OneHolder s'.held isOpen := by
  apply oneHolder_of_update h hmain
  rintro (_ | i) hne
  · exact absurd rfl hne
  · exact hthreads i

private theorem oneHolder_of_eq {isOpen : Int32 → Bool} (h : OneHolder s.held isOpen)
    (hmain : s'.held none = s.held none) (hthreads : ∀ i, s'.threadSock i = s.threadSock i) :
    OneHolder s'.held isOpen := by
  rw [← Function.update_eq_self none s.held] at h
  exact oneHolder_of_main h hmain hthreads

private theorem close_clientSock (hs : s.Tidy) (hpc : hasSocket s.threads.pc = true) :
    s.close s.clientSock = .ok ({ s with isOpen := update s.isOpen s.clientSock false },
      .closed s.clientSock) ∧
    OneHolder (update s.held none none) (update s.isOpen s.clientSock false) := by
  have hheld : s.held none = some s.clientSock := by rw [held, if_pos hpc]
  exact ⟨by rw [close, if_pos (hs.oneHolder.used_of_held hheld)], hs.oneHolder.drop hheld⟩

private theorem Tidy.mainQuiet (hs : s.Tidy) (h : s.threads.Inv l lost) (h' : t'.Inv l' lost')
    (hpc : hasSocket s.threads.pc = false) (hacc : s.threads.pc = .accept → answer.accepted = none)
    (hpc' : hasSocket t'.pc = false) (hargs : SameSocks s.threads.args t'.args)
    (hthreads : ∀ i, t'.threads i = s.threads.threads i ∨
      (∃ a, s.threads.threads i = some ⟨a, .returned⟩) ∧ t'.threads i = none) :
    s.mainCall answer = .ok (s, .quiet) ∧ ({ s with threads := t' } : Sockets).Tidy := by
  refine ⟨?_, ?_, fun sock heq ↦ ?_, fun a heq ↦ ?_⟩
  · rw [mainCall]
    split
    · rename_i haccept
      rw [hacc haccept]
    · rename_i halloc
      rw [halloc] at hpc
      cases hpc
    · rename_i hcreate
      rw [hcreate] at hpc
      cases hpc
    · rfl
  · refine oneHolder_of_eq hs.oneHolder ?_ fun i ↦ ?_
    · simp only [held, hpc, hpc']
    · rcases hthreads i with hsame | ⟨⟨a, hreturned⟩, hnone⟩
      · exact threadSock_congr h h' hargs hsame rfl
      · simp only [threadSock, hreturned, hnone]
  · rw [heq] at hpc'
    cases hpc'
  · rw [heq] at hpc'
    cases hpc'

private theorem Tidy.mainCreated (hs : s.Tidy) {a : ℕ} (hpc : s.threads.pc = .create a)
    (hi : s.threads.threads i = none) : OneHolder (held { s with threads := { s.threads with
      threads := update s.threads.threads i (some ⟨a, .started⟩), pc := .add a i } }) s.isOpen := by
  have hmain : s.held none = some s.clientSock := by simp [held, hpc, hasSocket]
  have hnone : s.held (some i) = none := by simp [held, threadSock, hi]
  have hpass : ∀ u, held { s with threads := { s.threads with
      threads := update s.threads.threads i (some ⟨a, .started⟩), pc := .add a i } } u
      = update (update s.held none none) (some i) (some s.clientSock) u := by
    rintro (_ | j)
    · rfl
    · by_cases hj : j = i
      · subst hj
        simp [held, threadSock, Heap.get_of_holds (hs.create a hpc), Except.toOption]
      · simp [held, threadSock, hj]
  rw [funext hpass]
  exact hs.oneHolder.pass hmain hnone

private theorem Tidy.main (hs : s.Tidy) (h : s.threads.Inv l lost) (h' : t'.Inv l' lost')
    (heff : MainEffect s.threads answer t') :
    s.mainCall answer = .error (.threads .disabled) ∨ ∃ s₁ r, s.mainCall answer = .ok (s₁, r) ∧
      ({ s₁ with threads := t' } : Sockets).Tidy := by
  cases heff with
  | quiet hpc hacc hpc' hargs hthreads =>
    obtain ⟨hcall, htidy⟩ := hs.mainQuiet h h' hpc hacc hpc' hargs hthreads
    exact .inr ⟨s, .quiet, hcall, htidy⟩
  | accepted sock hpc hacc heq =>
    subst heq
    rw [mainCall, hpc, hacc]
    dsimp only
    cases hopen : s.isOpen sock with
    | true => exact .inl rfl
    | false =>
      right
      refine ⟨_, _, rfl, ?_, fun sock' heq ↦ ?_, nofun⟩
      · have hnone : s.held none = none := by simp [held, hpc, hasSocket]
        exact oneHolder_of_main (hs.oneHolder.take hnone hopen) rfl fun i ↦ rfl
      · exact Pc.alloc.inj heq
  | granted sock hpc hgranted heq =>
    subst heq
    rw [mainCall, hpc]
    simp only [hgranted, if_true]
    refine .inr ⟨s, .quiet, rfl, ?_, nofun, ?_⟩
    · refine oneHolder_of_eq hs.oneHolder ?_ fun i ↦ ?_
      · simp [held, hpc, hasSocket]
      · exact threadSock_congr h h' (sameSocks_new _ _) rfl rfl
    · rintro a heq
      obtain rfl : (s.threads.args.new ⟨sock, false⟩).2 = a := Pc.create.inj heq
      rw [hs.alloc sock hpc]
      exact Heap.holds_new ..
  | refused sock hpc hgranted heq =>
    subst heq
    obtain ⟨hclose, hone⟩ := close_clientSock hs (by rw [hpc]; rfl)
    rw [mainCall, hpc]
    simp only [hgranted, Bool.false_eq_true, if_false, hclose]
    refine .inr ⟨_, _, rfl, ?_, nofun, nofun⟩
    exact oneHolder_of_main hone rfl fun i ↦ rfl
  | failed a args hpc hcreated hfree heq =>
    subst heq
    obtain ⟨hclose, hone⟩ := close_clientSock hs (by rw [hpc]; rfl)
    rw [mainCall, hpc]
    simp only [hcreated, if_true, hclose]
    refine .inr ⟨_, _, rfl, ?_, nofun, nofun⟩
    exact oneHolder_of_main hone rfl fun i ↦ threadSock_congr h h' (sameSocks_free hfree) rfl rfl
  | created a i hpc hcreated hi heq =>
    subst heq
    rw [mainCall, hpc]
    simp only [hcreated, reduceCtorEq, if_false]
    exact .inr ⟨s, .quiet, rfl, hs.mainCreated hpc hi, nofun, nofun⟩

private theorem Tidy.connector (hs : s.Tidy) (h : s.threads.Inv l lost) (h' : t'.Inv l' lost')
    (hstep : s.threads.connectorStep i = .ok t') :
    ∃ s₁ r, s.connectorCall i = .ok (s₁, r) ∧ ({ s₁ with threads := t' } : Sockets).Tidy := by
  rcases Threads.connectorStep_eq_ok hstep with ⟨a, arg, ht, hget, rfl⟩ |
    ⟨a, arg, args, ht, hget, hset, rfl⟩ | ⟨a, ht, rfl⟩
  · rw [connectorCall, ht]
    dsimp only
    rw [hget]
    refine ⟨_, _, rfl, ?_, hs.alloc, hs.create⟩
    refine oneHolder_of_eq hs.oneHolder rfl fun j ↦ ?_
    by_cases hj : j = i
    · subst hj
      simp [threadSock, ht, hget, Except.toOption]
    · simp [threadSock, hj]
  · rw [connectorCall, ht]
    obtain ⟨sock, hholds⟩ : ∃ sock, s.threads.args.Holds a [⟨sock, false⟩] := by
      obtain ⟨sock, -, hholds⟩ := h.linked.owns.holds ht
      exact ⟨sock, hholds⟩
    obtain rfl : ⟨sock, false⟩ = arg := Except.ok.inj ((Heap.get_of_holds hholds).symm.trans hget)
    have hsame := sameSocks_set hholds hset
    refine ⟨s, .quiet, rfl, ?_, hs.alloc, fun b hpc ↦ ?_⟩
    · refine oneHolder_of_eq hs.oneHolder rfl fun j ↦ ?_
      by_cases hj : j = i
      · subst hj
        simp [threadSock, ht]
      · exact threadSock_congr h h' hsame (update_of_ne hj ..) rfl
    · -- the argument of the next thread is not that of this one
      have hpc' : s.threads.pc.fresh = some b := by rw [show s.threads.pc = .create b from hpc]; rfl
      obtain ⟨sock', hholds'⟩ := h'.linked.owns.held b hpc'
      rwa [← hsame b _ sock' (hs.create b hpc) hholds']
  · have hheld : s.held (some i) = some (s.locals i) := by simp [held, threadSock, ht]
    rw [connectorCall, ht]
    dsimp only
    rw [close, if_pos (hs.oneHolder.used_of_held hheld)]
    refine ⟨_, _, rfl, ?_, hs.alloc, hs.create⟩
    refine oneHolder_of_update (hs.oneHolder.drop hheld) (by simp [held, threadSock]) ?_
    rintro (_ | j) hne
    · rfl
    · have hj : j ≠ i := fun heq ↦ hne (by rw [heq])
      simp [held, threadSock, hj]

/-- **One step.** From a tidy state, no step closes a descriptor that is not open, and every step
leads to a tidy state. -/
theorem Tidy.step (hs : s.Tidy) (h : s.threads.Inv l lost) (e : ThreadEvent) :
    s.step e = .error (.threads .disabled) ∨ ∃ s' r l', s.step e = .ok (s', r) ∧ s'.Tidy ∧
      s'.threads.Inv l' (lost ++ s.threads.loses e) := by
  rw [Sockets.step]
  rcases Threads.step_spec h e with hwait | ⟨t', r, l', hstep, h'⟩
  · exact .inl (by rw [hwait])
  rw [hstep]
  dsimp only
  cases e with
  | signal =>
    cases hstep
    exact .inr ⟨_, _, l', rfl, ⟨hs.oneHolder, hs.alloc, hs.create⟩, h'⟩
  | main answer =>
    rcases hs.main h h' (.of_ok hstep) with hwait | ⟨s₁, r₁, hcall, htidy⟩
    · exact .inl (by rw [call, hwait])
    · exact .inr ⟨_, r₁, l', by rw [call, hcall], htidy, h'⟩
  | connector i =>
    rw [Threads.step] at hstep
    split at hstep
    · cases hstep
    rename_i hconnector
    cases hstep
    obtain ⟨s₁, r₁, hcall, htidy⟩ := hs.connector h h' hconnector
    exact .inr ⟨_, r₁, l', by rw [call, hcall], htidy, h'⟩

end Step

/-! ## Runs -/

abbrev SocketMove := Move Sockets ThreadEvent SocketReply

variable {s : Sockets} {tr : List SocketMove}

theorem tidy_of_run (hrun : machine.Run start tr s) :
    s.Tidy ∧ ∃ l, s.threads.Inv l (tr.flatMap fun m ↦ m.pre.threads.loses m.event) := by
  apply Run.invariant (I := fun tr s ↦ s.Tidy ∧
    ∃ l, s.threads.Inv l (tr.flatMap fun m ↦ m.pre.threads.loses m.event))
    ⟨tidy_start, [], Threads.inv_start⟩ _ hrun
  rintro tr s e s' r - ⟨hs, l, hinv⟩ hstep
  rw [machine_step] at hstep
  rcases hs.step hinv e with hwait | ⟨s₁, r₁, l₁, hstep₁, hs₁, hinv₁⟩
  · rw [hwait] at hstep
    cases hstep
  · rw [hstep₁] at hstep
    cases hstep
    refine ⟨hs₁, l₁, ?_⟩
    rwa [List.flatMap_append, List.flatMap_singleton]

/-- **No descriptor is closed twice.** After every run, each open socket is that of `main` or of one
connection thread, and no two of them have the same one; a step that closes a descriptor closes one
that is open. The `fopen` of every connection thread succeeds. -/
theorem sockets_safe (hrun : machine.Run start tr s) :
    OneHolder s.held s.isOpen ∧ ∀ e, s.step e ≠ .error .badDescriptor := by
  obtain ⟨hs, l, hinv⟩ := tidy_of_run hrun
  refine ⟨hs.oneHolder, fun e herror ↦ ?_⟩
  rcases hs.step hinv e with hwait | ⟨s', r, l', hstep, -⟩
  · rw [hwait] at herror
    cases herror
  · rw [hstep] at herror
    cases herror

/-- Two connections on two sockets, the first of which is closed while the second is served. -/
private def twoSockets : List ThreadEvent :=
  mainSteps 8 0 ++ [.connector 0, .connector 0] ++
    List.replicate 9 (.main ⟨some 6, true, some 1⟩) ++ [.connector 0] ++ mainSteps 1 1 ++
    [.signal] ++ mainSteps 3 1 ++ List.replicate 3 (.connector 1) ++ mainSteps 2 1

/-- Both sockets are open, and each has one thread. -/
theorem sockets_safe_of_two : ∃ tr s, machine.Run start tr s ∧ s.isOpen 5 = true ∧
    s.isOpen 6 = true ∧ (∃! u, s.held u = some 5) ∧ ∃! u, s.held u = some 6 := by
  obtain ⟨tr, s, hrun, htest⟩ := exists_run_of_exec machine start (twoSockets.take 18)
    (fun _ s ↦ decide (s.isOpen 5 = true ∧ s.isOpen 6 = true)) (by decide +kernel)
  obtain ⟨hfive, hsix⟩ := of_decide_eq_true htest
  obtain ⟨hone, -⟩ := sockets_safe hrun
  obtain ⟨u, hu⟩ := (hone.used_iff 5).mp hfive
  obtain ⟨v, hv⟩ := (hone.used_iff 6).mp hsix
  exact ⟨tr, s, hrun, hfive, hsix, ⟨u, hu, fun w hw ↦ hone.unique hw hu⟩,
    ⟨v, hv, fun w hw ↦ hone.unique hw hv⟩⟩

/-! ## Every connection is closed -/

/-- What an observer sees of the table of descriptors. -/
structure Counts (s s' : Sockets) (r : SocketReply) : Prop where
  count : ∀ x, (if r = .opened x then 1 else 0) + (s.isOpen x).toNat
    = (if r = .closed x then 1 else 0) + (s'.isOpen x).toNat

section Counts

variable {s' : Sockets} {r : SocketReply} {sock : Int32} {i : ℕ} {answer : Answer}

private theorem counts_quiet (h : s'.isOpen = s.isOpen) : Counts s s' .quiet :=
  ⟨fun x ↦ by rw [h]; rfl⟩

private theorem counts_close (h : s.close sock = .ok (s', r)) : Counts s s' r := by
  rw [close] at h
  split at h
  · rename_i hopen
    cases h
    refine ⟨fun x ↦ ?_⟩
    by_cases hx : x = sock
    · simp [hx, hopen]
    · simp [hx, Ne.symm hx]
  · cases h

private theorem counts_mainCall (h : s.mainCall answer = .ok (s', r)) : Counts s s' r := by
  rw [mainCall] at h
  split at h
  · split at h
    · cases h
      exact counts_quiet rfl
    · rename_i sock _
      split at h
      · cases h
      rename_i hclosed
      cases h
      refine ⟨fun x ↦ ?_⟩
      by_cases hx : x = sock
      · simp [hx, eq_false_of_ne_true hclosed]
      · simp [hx, Ne.symm hx]
  · split at h
    · cases h
      exact counts_quiet rfl
    · exact counts_close h
  · split at h
    · exact counts_close h
    · cases h
      exact counts_quiet rfl
  · cases h
    exact counts_quiet rfl

private theorem counts_connectorCall (h : s.connectorCall i = .ok (s', r)) : Counts s s' r := by
  rw [connectorCall] at h
  split at h
  · split at h
    · cases h
    · cases h
      exact counts_quiet rfl
  · exact counts_close h
  · cases h
    exact counts_quiet rfl

private theorem counts_step {e : ThreadEvent} (h : s.step e = .ok (s', r)) : Counts s s' r := by
  rw [step] at h
  split at h
  · cases h
  split at h
  · cases h
  rename_i s₁ r₁ hcall
  cases h
  cases e with
  | signal =>
    cases hcall
    exact counts_quiet rfl
  | main answer => exact ⟨(counts_mainCall hcall).count⟩
  | connector i => exact ⟨(counts_connectorCall hcall).count⟩

end Counts

theorem count_of_run (hrun : machine.Run start tr s) (x : Int32) :
    tr.countP (fun m ↦ m.ret = .opened x)
      = tr.countP (fun m ↦ m.ret = .closed x) + (s.isOpen x).toNat := by
  apply Run.invariant (I := fun tr s ↦ tr.countP (fun m ↦ m.ret = .opened x)
    = tr.countP (fun m ↦ m.ret = .closed x) + (s.isOpen x).toNat) rfl _ hrun
  rintro tr s e s' r - hcount hstep
  have hstep := (counts_step hstep).count x
  simp only [List.countP_append, List.countP_singleton, decide_eq_true_eq]
  omega

/-- **Every connection is closed.** When `cleanup` has returned, every socket was closed as often as
it was opened exactly when the threads that were not joined have returned, and when `malloc` served
every `add_node` there are none of these. -/
theorem sockets_closed_iff (hrun : machine.Run start tr s) (hend : s.threads.pc = .returned) :
    ((∀ x, tr.countP (fun m ↦ m.ret = .opened x) = tr.countP fun m ↦ m.ret = .closed x) ↔
      ∀ i t, s.threads.threads i = some t → t.phase = .returned) ∧
    ((∀ m ∈ tr, m.pre.threads.loses m.event = []) → ∀ i, s.threads.threads i = none) := by
  obtain ⟨hs, l, hinv⟩ := tidy_of_run hrun
  constructor
  · have hclosed : (∀ x, tr.countP (fun m ↦ m.ret = .opened x)
        = tr.countP fun m ↦ m.ret = .closed x) ↔ ∀ x, s.isOpen x = false := by
      refine forall_congr' fun x ↦ ?_
      rw [count_of_run hrun x]
      cases s.isOpen x <;> simp
    rw [hclosed]
    constructor
    · intro hfalse i t ht
      by_contra hphase
      obtain ⟨sock, hsock⟩ := exists_threadSock hinv ht hphase
      have hopen : s.isOpen sock = true := hs.oneHolder.used_of_held (u := some i) hsock
      rw [hfalse sock] at hopen
      cases hopen
    · intro hreturned x
      by_contra hopen
      obtain ⟨_ | i, hu⟩ := (hs.oneHolder.used_iff x).mp (eq_true_of_ne_false hopen)
      · rw [held, hend] at hu
        cases hu
      · obtain ⟨thread, ht, hphase⟩ := phase_of_threadSock hu
        exact hphase (hreturned i thread ht)
  · intro hnone i
    rw [List.flatMap_eq_nil_iff.mpr hnone] at hinv
    obtain ⟨hlinked, hat⟩ := hinv
    rw [hend] at hlinked hat
    obtain rfl : l = [] := hat
    by_contra hi
    cases hlinked.owns.mem_ids i hi

/-- The two sockets were opened and closed once. -/
theorem sockets_closed_of_two : ∃ tr s, machine.Run start tr s ∧
    tr.countP (fun m ↦ m.ret = .opened 5) = 1 ∧ tr.countP (fun m ↦ m.ret = .opened 6) = 1 ∧
      ∀ x, tr.countP (fun m ↦ m.ret = .opened x) = tr.countP fun m ↦ m.ret = .closed x := by
  obtain ⟨tr, s, hrun, htest⟩ := exists_run_of_exec machine start twoSockets
    (fun tr s ↦ decide (s.threads.pc = .returned ∧ (∀ m ∈ tr, m.pre.threads.loses m.event = []) ∧
      tr.countP (fun m ↦ m.ret = .opened 5) = 1 ∧ tr.countP (fun m ↦ m.ret = .opened 6) = 1))
    (by decide +kernel)
  obtain ⟨hend, hloses, hfive, hsix⟩ := of_decide_eq_true htest
  obtain ⟨hclosed, hnone⟩ := sockets_closed_iff hrun hend
  refine ⟨tr, s, hrun, hfive, hsix, hclosed.mpr fun i t ht ↦ ?_⟩
  rw [hnone hloses i] at ht
  cases ht

end Sockets

end Aesd
