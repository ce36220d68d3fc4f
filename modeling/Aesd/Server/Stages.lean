import Aesd.Server.Lifecycle
import Aesd.Server.Shutdown

/-!
# The startup of the server

What is known about the process at each place of the main thread (`AtPlace`): before the accept loop
it has no threads and its socket is as far as the calls have come; in the accept loop the socket
listens; and `cleanup` gives back one thing after another.

A step of another thread, or a signal, leaves the main thread where it is (`Beside`). A call before
the accept loop leads to the next call, to the loop, to the exit or to `cleanup` (`Leads`), and does
not fault (`startupStep_spec`).

## Three ways to leave the startup

A call of `setup_signal_handlers` or `daemonize` that fails exits at once. A call on the socket that
fails goes to `cleanup`, which finds an empty list and no timestamp thread; so `cleanup` has two
callers, and `Running` tells them apart by the exit status that the process will have. A
`pthread_create` of the timestamp thread that fails exits as well, with the socket still open.
-/

namespace Aesd.Lifecycle

open Chain

/-! ## What holds between any two steps -/

def inCleanup : Pc → Bool
  | .cleanupTest _ => true
  | .cleanupJoin _ _ => true
  | .returned => true
  | _ => false

/-- There are no threads but the main thread, and the list was not looked at yet. -/
structure Unused (s : State) : Prop where
  pc : s.threads.pc = .loopTest
  threads : ∀ i, s.threads.threads i = none
  timestamp : s.timestamp = none

/-- `sockfd` is minus one when there is no socket. -/
def Described (s : State) : Prop := s.sockfd = -1 ↔ s.socket = .closed

/-- A process that will exit with success was asked for the exit. -/
def Asked (s : State) (status : ExitStatus) : Prop :=
  status = .failure ∨ status = .success ∧ s.threads.exitRequested = true

/-- The timestamp thread is joined, or was never created. -/
def NoTimestamp (s : State) : Prop := s.timestamp = none ∨ s.timestamp = some .joined

/-- `cleanup` has joined the threads of the list. -/
structure Swept (s : State) (status : ExitStatus) : Prop where
  pc : s.threads.pc = .returned
  asked : Asked s status

/-- In the accept loop the socket listens. The sweep of `cleanup` is what is left of it when the
exit was requested, or all that is done when something has failed. -/
def Running (s : State) : ExitStatus → Prop
  | .success => s.socket = .listening ∧ s.sockfd ≠ -1 ∧ s.timestamp ≠ some .joined ∧
      (inCleanup s.threads.pc = true → s.threads.exitRequested = true)
  | .failure => Described s ∧ s.timestamp = none ∧ (∀ i, s.threads.threads i = none) ∧
      inCleanup s.threads.pc = true
  | .killed _ => False
  | .crashed _ => False

/-- What is known about the process at the place where the main thread is. -/
def AtPlace (config : Config) (s : State) : Prop :=
  match s.place with
  | .setsockopt => Unused s ∧ s.socket = .created ∧ s.sockfd ≠ -1
  | .bind bindAttempts => Unused s ∧ s.socket = .created ∧ s.sockfd ≠ -1 ∧ bindAttempts ≤ 5
  | .listen => Unused s ∧ s.socket = .bound ∧ s.sockfd ≠ -1
  | .startTimestamp => Unused s ∧ s.socket = .listening ∧ s.sockfd ≠ -1 ∧
      config.useAesdCharDevice = false
  | .running status => Running s status
  | .joinTimestamp status => Swept s status ∧ Described s ∧
      ∃ phase, s.timestamp = some phase ∧ phase ≠ .joined
  | .closeSocket status => Swept s status ∧ Described s ∧ NoTimestamp s
  | .unlink status => Swept s status ∧ s.socket = .closed ∧ NoTimestamp s
  | .exit status => Swept s status ∧ s.socket = .closed ∧ NoTimestamp s
  | .exited status => (∃ signal, status = .crashed signal) ∨ Unused s ∨
      Swept s status ∧ s.socket = .closed ∧ NoTimestamp s
  -- before the call of `socket`
  | _ => Unused s ∧ s.socket = .closed ∧ s.sockfd = -1

/-- The threads that a step loses, as in the accept loop. -/
def State.loses (s : State) : Event → List SlistData
  | .signal _ => []
  | .main _ answer => s.threads.loses (.main answer)
  | .connector _ => []
  | .fatal _ _ => []
  | .timestamp => []

structure Inv (config : Config) (s : State) (l : List (ℕ × SlistData)) (lost : List SlistData) :
    Prop where
  threads : s.threads.Inv l lost
  position : AtPlace config s

theorem inv_init (config : Config) (linked leader : Bool) :
    Inv config (.init linked leader) [] [] :=
  ⟨Threads.inv_start, ⟨rfl, fun _ ↦ rfl, rfl⟩, rfl, rfl⟩

section Step

variable {config : Config} {s s' : State} {status : ExitStatus} {l : List (ℕ × SlistData)}
  {lost : List SlistData} {e : Event} {r : Observed} {ret : Int32} {answer : Answer} {i : ℕ}

/-! ## Steps of the other threads -/

/-- A step that leaves the main thread where it is, and its socket alone. -/
structure Beside (s s' : State) : Prop where
  place : s'.place = s.place
  sockfd : s'.sockfd = s.sockfd
  socket : s'.socket = s.socket
  leader : s'.leader = s.leader
  pc : s'.threads.pc = s.threads.pc
  exitRequested : s.threads.exitRequested = true → s'.threads.exitRequested = true
  threads : (∀ i, s.threads.threads i = none) → ∀ i, s'.threads.threads i = none
  timestamp : s'.timestamp = s.timestamp ∨
    (∃ phase, s.timestamp = some phase ∧ phase ≠ .joined) ∧
      ∃ phase, s'.timestamp = some phase ∧ phase ≠ .joined

namespace Beside

theorem unused (h : Beside s s') (hs : Unused s) : Unused s' := by
  refine ⟨h.pc.trans hs.pc, h.threads hs.threads, ?_⟩
  rcases h.timestamp with hsame | ⟨⟨phase, hphase, -⟩, -⟩
  · exact hsame.trans hs.timestamp
  · exact absurd (hs.timestamp.symm.trans hphase) (by simp)

theorem described (h : Beside s s') (hs : Described s) : Described s' := by
  rwa [Described, h.sockfd, h.socket]

theorem swept (h : Beside s s') (hs : Swept s status) : Swept s' status :=
  ⟨h.pc.trans hs.pc, hs.asked.imp_right fun ⟨hstatus, hexit⟩ ↦ ⟨hstatus, h.exitRequested hexit⟩⟩

theorem noTimestamp (h : Beside s s') (hs : NoTimestamp s) : NoTimestamp s' := by
  rcases h.timestamp with hsame | ⟨⟨phase, hphase, hne⟩, -⟩
  · rwa [NoTimestamp, hsame]
  · rw [NoTimestamp, hphase, Option.some.injEq] at hs
    exact absurd hs (by simp [hne])

theorem unjoined (h : Beside s s') (hs : s.timestamp ≠ some .joined) :
    s'.timestamp ≠ some .joined := by
  rcases h.timestamp with hsame | ⟨-, phase, hphase, hne⟩
  · rwa [hsame]
  · rw [hphase, Ne, Option.some.injEq]
    exact hne

theorem running (h : Beside s s') (hs : Running s status) : Running s' status := by
  cases status with
  | success =>
    obtain ⟨hsocket, hsockfd, hunjoined, hasked⟩ := hs
    exact ⟨h.socket.trans hsocket, h.sockfd ▸ hsockfd, h.unjoined hunjoined,
      fun hpc ↦ h.exitRequested (hasked (h.pc ▸ hpc))⟩
  | failure =>
    obtain ⟨hdescribed, htimestamp, hnone, hpc⟩ := hs
    refine ⟨h.described hdescribed, ?_, h.threads hnone, h.pc ▸ hpc⟩
    rcases h.timestamp with hsame | ⟨⟨phase, hphase, -⟩, -⟩
    · exact hsame.trans htimestamp
    · exact absurd (htimestamp.symm.trans hphase) (by simp)
  | killed signo => exact hs
  | crashed signal => exact hs

theorem atPlace (h : Beside s s') (hs : AtPlace config s) : AtPlace config s' := by
  rw [AtPlace] at hs ⊢
  rw [h.place]
  split at hs
  · exact ⟨h.unused hs.1, h.socket.trans hs.2.1, h.sockfd ▸ hs.2.2⟩
  · exact ⟨h.unused hs.1, h.socket.trans hs.2.1, h.sockfd ▸ hs.2.2.1, hs.2.2.2⟩
  · exact ⟨h.unused hs.1, h.socket.trans hs.2.1, h.sockfd ▸ hs.2.2⟩
  · exact ⟨h.unused hs.1, h.socket.trans hs.2.1, h.sockfd ▸ hs.2.2.1, hs.2.2.2⟩
  · exact h.running hs
  · obtain ⟨hswept, hdescribed, phase, hphase, hne⟩ := hs
    refine ⟨h.swept hswept, h.described hdescribed, ?_⟩
    rcases h.timestamp with hsame | ⟨-, hother⟩
    · exact ⟨phase, hsame.trans hphase, hne⟩
    · exact hother
  · exact ⟨h.swept hs.1, h.described hs.2.1, h.noTimestamp hs.2.2⟩
  · exact ⟨h.swept hs.1, h.socket.trans hs.2.1, h.noTimestamp hs.2.2⟩
  · exact ⟨h.swept hs.1, h.socket.trans hs.2.1, h.noTimestamp hs.2.2⟩
  · refine hs.imp_right fun hs ↦ hs.imp h.unused fun hs ↦ ?_
    exact ⟨h.swept hs.1, h.socket.trans hs.2.1, h.noTimestamp hs.2.2⟩
  · exact ⟨h.unused hs.1, h.socket.trans hs.2.1, h.sockfd.trans hs.2.2⟩

end Beside

theorem connectorStep_cases (h : s.connectorStep i = .ok (s', r)) :
    s.threads.connectorStep i = .ok s'.threads ∧
      s' = { s with threads := s'.threads, linked := s'.linked } ∧
      (r = .opened ∧ s'.linked = true ∨ r = .quiet ∧ s'.linked = s.linked) := by
  rw [State.connectorStep] at h
  split at h
  swap
  · cases h
  split at h
  · cases h
  rename_i hstep
  split at h
  · cases h
    exact ⟨hstep, rfl, .inl ⟨rfl, rfl⟩⟩
  · cases h
    exact ⟨hstep, rfl, .inr ⟨rfl, rfl⟩⟩

theorem timestampStep_cases (h : s.timestampStep = .ok (s', r)) :
    (∃ phase phase', s.timestamp = some phase ∧ phase ≠ .joined ∧ phase' ≠ .joined ∧
      s' = { s with timestamp := some phase', linked := s'.linked }) ∧
      (r = .opened ∧ s'.linked = true ∨ r = .quiet ∧ s'.linked = s.linked) := by
  rw [State.timestampStep] at h
  split at h
  swap
  · cases h
  split at h
  · rename_i hphase
    cases h
    exact ⟨⟨_, .loopTest, hphase, nofun, nofun, rfl⟩, .inl ⟨rfl, rfl⟩⟩
  · rename_i hphase
    cases h
    refine ⟨⟨_, _, hphase, nofun, ?_, rfl⟩, .inr ⟨rfl, rfl⟩⟩
    split <;> nofun
  · rename_i hphase
    cases h
    exact ⟨⟨_, .woken, hphase, nofun, nofun, rfl⟩, .inr ⟨rfl, rfl⟩⟩
  · rename_i hphase
    cases h
    refine ⟨⟨_, _, hphase, nofun, ?_, rfl⟩, .inr ⟨rfl, rfl⟩⟩
    split <;> nofun
  · rename_i hphase
    cases h
    exact ⟨⟨_, .loopTest, hphase, nofun, nofun, rfl⟩, .inr ⟨rfl, rfl⟩⟩
  · rename_i hphase
    cases h
    exact ⟨⟨_, .returned, hphase, nofun, nofun, rfl⟩, .inr ⟨rfl, rfl⟩⟩
  · cases h
  · cases h
  · cases h

private theorem threads_beside {t t' : Threads} (h : t.connectorStep i = .ok t') :
    t'.pc = t.pc ∧ t'.exitRequested = t.exitRequested ∧
      ((∀ i, t.threads i = none) → ∀ i, t'.threads i = none) := by
  have hsome : ∀ {thread}, t.threads i = some thread → ¬∀ i, t.threads i = none := by
    intro thread hthread hnone
    rw [hnone i] at hthread
    cases hthread
  rcases Threads.connectorStep_eq_ok h with ⟨a, -, ht, -, rfl⟩ | ⟨a, -, -, ht, -, -, rfl⟩ |
    ⟨a, ht, rfl⟩
  · exact ⟨rfl, rfl, fun hnone ↦ absurd hnone (hsome ht)⟩
  · exact ⟨rfl, rfl, fun hnone ↦ absurd hnone (hsome ht)⟩
  · exact ⟨rfl, rfl, fun hnone ↦ absurd hnone (hsome ht)⟩

theorem beside_connectorStep (h : s.connectorStep i = .ok (s', r)) : Beside s s' := by
  obtain ⟨hstep, hs', -⟩ := connectorStep_cases h
  obtain ⟨hpc, hexit, hnone⟩ := threads_beside hstep
  rw [hs']
  exact ⟨rfl, rfl, rfl, rfl, hpc, fun hs ↦ hexit.trans hs, hnone, .inl rfl⟩

theorem beside_timestampStep (h : s.timestampStep = .ok (s', r)) : Beside s s' := by
  obtain ⟨⟨phase, phase', hphase, hne, hne', hs'⟩, -⟩ := timestampStep_cases h
  rw [hs']
  exact ⟨rfl, rfl, rfl, rfl, rfl, id, id, .inr ⟨⟨phase, hphase, hne⟩, phase', rfl, hne'⟩⟩

theorem beside_signal : Beside s { s with threads := { s.threads with exitRequested := true } } :=
  ⟨rfl, rfl, rfl, rfl, rfl, fun _ ↦ rfl, id, .inl rfl⟩

/-! ## Calls before the accept loop -/

/-- Where a call of the main thread before its accept loop leads to. -/
inductive Leads (s s' : State) : Prop
  | startup (hplace : s'.place.startup = true ∨ ∃ status, s'.place = .exited status)
      (htimestamp : s'.timestamp = s.timestamp) (hthreads : s'.threads = s.threads)
      (hlinked : s'.linked = s.linked)
  | serving (hplace : s'.place = .running .success) (hthreads : s'.threads = s.threads)
      (hlinked : s'.linked = s.linked)
  | cleanup (hplace : s'.place = .running .failure)
      (hthreads : s'.threads = { s.threads with pc := .cleanupTest s.threads.head })
      (hlinked : s'.linked = s.linked)

private theorem Leads.next {place : Place} {sockfd : Int32} {socket : SocketState} {leader : Bool}
    (h : place.startup = true ∨ ∃ status, place = .exited status) :
    Leads s { s with place, sockfd, socket, leader } :=
  .startup h rfl rfl rfl

private theorem Unused.next (h : Unused s) {place : Place} {sockfd : Int32} {socket : SocketState}
    {leader : Bool} : Unused { s with place, sockfd, socket, leader } :=
  ⟨h.pc, h.threads, h.timestamp⟩

private theorem inv_cleanup (h : s.threads.Inv l lost) (hunused : Unused s)
    (hdescribed : Described s) : Inv config s.cleanup l lost := by
  obtain ⟨hlinked, -⟩ := h
  rw [hunused.pc] at hlinked
  exact ⟨⟨⟨hlinked.chain, hlinked.nodup, hlinked.owns⟩, hlinked.chain.eq_firstId⟩,
    hdescribed, hunused.timestamp, hunused.threads, rfl⟩

private theorem exists_of_ite {c : Prop} [Decidable c] {t : State} {P : State → Prop}
    {x : Except LifecycleError State} (ht : c → P t) (hx : ¬c → ∃ s', x = .ok s' ∧ P s') :
    ∃ s', (if c then .ok t else x) = .ok s' ∧ P s' := by
  split
  · rename_i hc
    exact ⟨t, rfl, ht hc⟩
  · rename_i hc
    exact hx hc

private theorem beforeSocket_spec (h : Inv config s l lost)
    (hplace : (∃ signo, s.place = .sigaction signo) ∨ s.place = .fork ∨ s.place = .setsid ∨
      s.place = .secondFork ∨ s.place = .chdir ∨ s.place = .socket) :
    ∃ s', s.startupStep config ret = .ok s' ∧ Inv config s' l lost ∧ Leads s s' := by
  obtain ⟨h, hat⟩ := h
  have hbefore : Unused s ∧ s.socket = .closed ∧ s.sockfd = -1 := by
    rw [AtPlace] at hat
    rcases hplace with ⟨signo, hplace⟩ | hplace | hplace | hplace | hplace | hplace
    all_goals rwa [hplace] at hat
  obtain ⟨hunused, hsocket, hsockfd⟩ := hbefore
  have hexit : ∀ status, Inv config (s.exit status) l lost ∧ Leads s (s.exit status) :=
    fun status ↦ ⟨⟨h, .inr (.inl hunused.next)⟩, .next (.inr ⟨status, rfl⟩)⟩
  rw [State.startupStep]
  rcases hplace with ⟨_ | _, hplace⟩ | hplace | hplace | hplace | hplace | hplace
  all_goals
    rw [hplace]
    dsimp only
    refine exists_of_ite ?_ fun hret ↦ ?_
  -- the handler of `SIGINT`
  · exact fun _ ↦ hexit _
  · exact ⟨_, rfl, ⟨h, hunused.next, hsocket, hsockfd⟩, .next (.inl rfl)⟩
  -- the handler of `SIGTERM`, after which `main` looks at its arguments
  · exact fun _ ↦ hexit _
  · refine ⟨_, rfl, ⟨h, ?_⟩, .next (.inl ?_)⟩
    · cases config.isDaemon <;> exact ⟨hunused.next, hsocket, hsockfd⟩
    · cases config.isDaemon <;> rfl
  -- the first fork, in which the parent exits
  · exact fun _ ↦ hexit _
  · refine exists_of_ite (fun _ ↦ hexit _) fun _ ↦ ?_
    exact ⟨_, rfl, ⟨h, hunused.next, hsocket, hsockfd⟩, .next (.inl rfl)⟩
  -- the session
  · exact fun _ ↦ hexit _
  · exact ⟨_, rfl, ⟨h, hunused.next, hsocket, hsockfd⟩, .next (.inl rfl)⟩
  -- the second fork
  · exact fun _ ↦ hexit _
  · refine exists_of_ite (fun _ ↦ hexit _) fun _ ↦ ?_
    exact ⟨_, rfl, ⟨h, hunused.next, hsocket, hsockfd⟩, .next (.inl rfl)⟩
  -- the working directory
  · exact fun _ ↦ hexit _
  · exact ⟨_, rfl, ⟨h, hunused.next, hsocket, hsockfd⟩, .next (.inl rfl)⟩
  -- the socket, without which there is nothing to close
  · exact fun hret ↦ ⟨inv_cleanup h hunused.next (iff_of_true hret hsocket), .cleanup rfl rfl rfl⟩
  · exact ⟨_, rfl, ⟨h, hunused.next, rfl, hret⟩, .next (.inl rfl)⟩

private theorem withSocket_spec (h : Inv config s l lost)
    (hplace : s.place = .setsockopt ∨ (∃ n, s.place = .bind n) ∨ s.place = .listen ∨
      s.place = .startTimestamp) :
    ∃ s', s.startupStep config ret = .ok s' ∧ Inv config s' l lost ∧ Leads s s' := by
  obtain ⟨hthreads, hat⟩ := h
  have hcleanup : Unused s → s.sockfd ≠ -1 → s.socket ≠ .closed →
      Inv config s.cleanup l lost ∧ Leads s s.cleanup := fun hunused hsockfd hsocket ↦
    ⟨inv_cleanup hthreads hunused (iff_of_false hsockfd hsocket), .cleanup rfl rfl rfl⟩
  rw [AtPlace] at hat
  rw [State.startupStep]
  rcases hplace with hplace | ⟨n, hplace⟩ | hplace | hplace
  · rw [hplace] at hat ⊢
    obtain ⟨hunused, hsocket, hsockfd⟩ := hat
    dsimp only
    rw [if_neg (by simp [hsocket])]
    refine exists_of_ite (fun _ ↦ hcleanup hunused hsockfd (by simp [hsocket])) fun _ ↦ ?_
    refine ⟨_, rfl, ⟨hthreads, ?_⟩, .next (.inl rfl)⟩
    exact ⟨hunused.next, hsocket, hsockfd, Nat.zero_le 5⟩
  · rw [hplace] at hat ⊢
    obtain ⟨hunused, hsocket, hsockfd, hattempts⟩ := hat
    dsimp only
    rw [if_neg (by simp [hsocket])]
    refine exists_of_ite (fun _ ↦ ?_) fun _ ↦ exists_of_ite (fun _ ↦ ?_) fun hlt ↦ ?_
    · exact ⟨⟨hthreads, hunused.next, rfl, hsockfd⟩, .next (.inl rfl)⟩
    · exact hcleanup hunused hsockfd (by simp [hsocket])
    · refine ⟨_, rfl, ⟨hthreads, ?_⟩, .next (.inl rfl)⟩
      exact ⟨hunused.next, hsocket, hsockfd, Nat.lt_of_not_le hlt⟩
  · rw [hplace] at hat ⊢
    obtain ⟨hunused, hsocket, hsockfd⟩ := hat
    dsimp only
    rw [if_neg (by simp [hsocket])]
    refine exists_of_ite (fun _ ↦ hcleanup hunused hsockfd (by simp [hsocket])) fun _ ↦ ?_
    -- with the character device, the accept loop begins
    cases hconfig : config.useAesdCharDevice with
    | true =>
      refine ⟨_, rfl, ⟨hthreads, rfl, hsockfd, ?_, fun hpc ↦ ?_⟩, .serving rfl rfl rfl⟩
      · simp [State.goto, hunused.timestamp]
      · exact absurd hpc (by simp [State.goto, hunused.pc, inCleanup])
    | false =>
      refine ⟨_, rfl, ⟨hthreads, ?_⟩, .next (.inl rfl)⟩
      exact ⟨hunused.next, rfl, hsockfd, hconfig⟩
  · rw [hplace] at hat ⊢
    obtain ⟨hunused, hsocket, hsockfd, -⟩ := hat
    dsimp only
    refine exists_of_ite (fun _ ↦ ?_) fun _ ↦ ?_
    · exact ⟨⟨hthreads, .inr (.inl hunused.next)⟩, .next (.inr ⟨_, rfl⟩)⟩
    · refine ⟨_, rfl, ⟨hthreads, hsocket, hsockfd, ?_, fun hpc ↦ ?_⟩, .serving rfl rfl rfl⟩
      · simp [State.goto]
      · exact absurd hpc (by simp [State.goto, hunused.pc, inCleanup])

theorem startup_cases {place : Place} (h : place.startup = true) :
    ((∃ signo, place = .sigaction signo) ∨ place = .fork ∨ place = .setsid ∨
      place = .secondFork ∨ place = .chdir ∨ place = .socket) ∨
    place = .setsockopt ∨ (∃ n, place = .bind n) ∨ place = .listen ∨ place = .startTimestamp := by
  cases place <;> simp_all [Place.startup]

theorem unused_of_startup (h : AtPlace config s) (hstartup : s.place.startup = true) :
    Unused s := by
  rw [AtPlace] at h
  rcases startup_cases hstartup with
    (⟨signo, hplace⟩ | hplace | hplace | hplace | hplace | hplace) |
    (hplace | ⟨n, hplace⟩ | hplace | hplace)
  all_goals
    rw [hplace] at h
    exact h.1

/-- **A call before the accept loop** does not fault. -/
theorem startupStep_spec (h : Inv config s l lost) (hstartup : s.place.startup = true)
    (ret : Int32) :
    ∃ s', s.startupStep config ret = .ok s' ∧ Inv config s' l lost ∧ Leads s s' := by
  rcases startup_cases hstartup with hplace | hplace
  · exact beforeSocket_spec h hplace
  · exact withSocket_spec h hplace

end Step

end Aesd.Lifecycle
