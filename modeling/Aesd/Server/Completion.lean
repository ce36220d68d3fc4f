import Aesd.Server.Cleanup

/-!
# The server comes to its exit

After the signal that asks for the exit, the process goes on with its startup if it is not through
with it, leaves the accept loop at its first test, and `cleanup` gives everything back. Each call
that is left to the main thread and each step that is left to the timestamp thread is counted
(`Place.cost`, `timestampCost`) and added to the rank of `Threads`. Every step lowers the sum, and
until the process has exited some thread can go on (`process_exits`).

## What counts as a step

A call that blocks is a step that its thread can take, whenever and with whatever result the call
returns. So the bound is on the steps that are taken, and the process comes to its exit provided
that `accept` and the calls by which the threads serve their clients return: a client that stays
silent and keeps its connection open keeps `pthread_join` waiting, and the process with it.
-/

namespace Aesd.Lifecycle

open Chain Machine

/-- A step of one of the threads that does not end the process by a signal. -/
def Event.Ordinary : Event → Prop
  | .signal _ => False
  | .fatal _ _ => False
  | .main _ _ => True
  | .connector _ => True
  | .timestamp => True

theorem Event.Ordinary.ne_signal {e : Event} (h : e.Ordinary) (signo : Signo) :
    e ≠ .signal signo := by
  rintro rfl
  exact h

/-! ## Costs -/

/-- How many steps of its own the main thread has still to take at most, without those of the accept
loop and the sweep. -/
def Place.cost : Place → ℕ
  | .sigaction .sigint => 24
  | .sigaction .sigterm => 23
  | .fork => 22
  | .setsid => 21
  | .secondFork => 20
  | .chdir => 19
  | .socket => 18
  | .setsockopt => 17
  | .bind bindAttempts => 16 - bindAttempts
  | .listen => 10
  -- the thread has three steps to take
  | .startTimestamp => 9
  | .running _ => 5
  | .joinTimestamp _ => 4
  | .closeSocket _ => 3
  | .unlink _ => 2
  | .exit _ => 1
  | .exited _ => 0

theorem Place.cost_le (place : Place) : place.cost ≤ 24 := by
  cases place with
  | sigaction signo => cases signo <;> decide
  | bind n => exact (Nat.sub_le 16 n).trans (by decide)
  | _ => exact Nat.le_of_ble_eq_true rfl

/-- How many steps the timestamp thread has still to take at most, when the exit was requested. -/
def timestampCost : Option TimestampPhase → ℕ
  | some .started => 3
  | some .loopTest => 2
  | some .sleeping => 3
  | some .woken => 2
  | some .writing => 3
  | some .closing => 1
  | some .returned => 0
  | some .joined => 0
  | none => 0

theorem timestampCost_le (timestamp : Option TimestampPhase) : timestampCost timestamp ≤ 3 := by
  rcases timestamp with _ | phase
  · exact Nat.zero_le 3
  · cases phase <;> decide

def State.cost (s : State) : ℕ := s.place.cost + timestampCost s.timestamp

/-- After the exit was requested, at most `n` steps are left. -/
def Rank (config : Config) (s : State) (n : ℕ) : Prop :=
  (∃ l lost, Inv config s l lost) ∧ ∃ k, s.threads.Rank k ∧ n = s.cost + k

section Rank

variable {config : Config} {s s' : State} {status : ExitStatus} {l : List (ℕ × SlistData)}
  {lost : List SlistData} {e : Event} {r : Observed} {ret : Int32} {answer : Answer} {i n : ℕ}

/-! ## Every step lowers the rank -/

private theorem place_cost_pos (hinv : Inv config s l lost)
    (hplace : ∀ status, s.place ≠ .exited status) : 0 < s.place.cost := by
  have hat := hinv.position
  rw [AtPlace] at hat
  cases hs : s.place with
  | exited status => exact absurd hs (hplace status)
  | sigaction signo => cases signo <;> decide
  | bind n =>
    rw [hs] at hat
    obtain ⟨-, -, -, hattempts⟩ := hat
    dsimp only [Place.cost]
    omega
  | _ => exact Nat.le_of_ble_eq_true rfl

private theorem startupStep_cost (hinv : Inv config s l lost) (hstartup : s.place.startup = true)
    (hstep : s.startupStep config ret = .ok s') : s'.cost < s.cost := by
  have hunused := unused_of_startup hinv.position hstartup
  have hcost : s.cost = s.place.cost := by
    rw [State.cost, hunused.timestamp]
    rfl
  have hgoto : ∀ {place : Place} {threads sockfd socket leader}, place.cost < s.place.cost →
      State.cost { s with place, threads, sockfd, socket, leader } < s.cost := by
    intro place threads sockfd socket leader hlt
    rw [hcost, State.cost, hunused.timestamp]
    exact hlt
  have hexit : ∀ {status}, 0 < s.place.cost → (s.exit status).cost < s.cost := fun h ↦ hgoto h
  have hcleanup : ∀ {sockfd}, 5 < s.place.cost →
      (State.cleanup { s with sockfd }).cost < s.cost := fun h ↦ hgoto h
  have hat := hinv.position
  rw [AtPlace] at hat
  rw [State.startupStep] at hstep
  cases hplace : s.place with
  | sigaction signo =>
    rw [hplace] at hstep hgoto hexit
    cases signo with
    | sigint =>
      dsimp only at hstep
      split at hstep <;> cases hstep
      · exact hexit (by decide)
      · exact hgoto (by decide)
    | sigterm =>
      dsimp only at hstep
      split at hstep <;> cases hstep
      · exact hexit (by decide)
      · cases config.isDaemon <;> exact hgoto (by decide)
  | fork =>
    rw [hplace] at hstep hgoto hexit
    dsimp only at hstep
    repeat' split at hstep
    all_goals cases hstep
    · exact hexit (by decide)
    · exact hexit (by decide)
    · exact hgoto (by decide)
  | setsid =>
    rw [hplace] at hstep hgoto hexit
    dsimp only at hstep
    split at hstep <;> cases hstep
    · exact hexit (by decide)
    · exact hgoto (by decide)
  | secondFork =>
    rw [hplace] at hstep hgoto hexit
    dsimp only at hstep
    repeat' split at hstep
    all_goals cases hstep
    · exact hexit (by decide)
    · exact hexit (by decide)
    · exact hgoto (by decide)
  | chdir =>
    rw [hplace] at hstep hgoto hexit
    dsimp only at hstep
    split at hstep <;> cases hstep
    · exact hexit (by decide)
    · exact hgoto (by decide)
  | socket =>
    rw [hplace] at hstep hgoto hcleanup
    dsimp only at hstep
    split at hstep <;> cases hstep
    · exact hcleanup (by decide)
    · exact hgoto (by decide)
  | setsockopt =>
    rw [hplace] at hstep hgoto hcleanup
    dsimp only at hstep
    repeat' split at hstep
    all_goals cases hstep
    · exact hcleanup (by decide)
    · exact hgoto (by decide)
  | bind bindAttempts =>
    rw [hplace] at hstep hgoto hcleanup hat
    obtain ⟨-, -, -, hattempts⟩ := hat
    dsimp only at hstep
    repeat' split at hstep
    all_goals cases hstep
    · refine hgoto ?_
      dsimp only [Place.cost]
      omega
    · refine hcleanup ?_
      dsimp only [Place.cost]
      omega
    · refine hgoto ?_
      dsimp only [Place.cost]
      omega
  | listen =>
    rw [hplace] at hstep hgoto hcleanup
    dsimp only at hstep
    repeat' split at hstep
    all_goals cases hstep
    · exact hcleanup (by decide)
    · exact hgoto (by decide)
    · exact hgoto (by decide)
  | startTimestamp =>
    rw [hplace] at hstep hexit
    dsimp only at hstep
    split at hstep <;> cases hstep
    · exact hexit (by decide)
    · rw [hcost, hplace]
      exact (by decide : 5 + 3 < 9)
  | _ => exact absurd hstartup (by simp [hplace, Place.startup])

/-- Calling `cleanup` before the accept loop is as good as its first test. -/
private theorem rank_cleanup {k : ℕ} (hpc : s.threads.pc = .loopTest) (h : s.threads.Rank k) :
    ∃ m < k, ({ s.threads with pc := .cleanupTest s.threads.head } : Threads).Rank m := by
  have htest : s.threads.mainStep ⟨none, true, none⟩
      = .ok ({ s.threads with pc := .cleanupTest s.threads.head }, .quiet) := by
    rw [Threads.mainStep, hpc]
    dsimp only
    rw [if_pos h.1]
  have hquiet : ThreadEvent.main ⟨none, true, none⟩ ≠ .signal := ThreadEvent.noConfusion
  exact Threads.ranked.lowers h hquiet htest

private theorem timestampStep_cost (hexit : s.threads.exitRequested = true)
    (hstep : s.timestampStep = .ok (s', r)) :
    s'.threads = s.threads ∧ s'.cost < s.cost := by
  rw [State.timestampStep] at hstep
  split at hstep
  swap
  · cases hstep
  split at hstep <;> cases hstep
  all_goals
    rename_i hphase
    refine ⟨rfl, Nat.add_lt_add_left ?_ _⟩
    rw [hphase]
    dsimp only
    decide

private theorem serves_lowers {k : ℕ} (hrank : s.threads.Rank k) (h : Serves config s answer s') :
    ∃ m, s'.threads.Rank m ∧ s'.cost + m < s.cost + k := by
  cases h with
  | thread hplace hstep =>
    have hquiet : ThreadEvent.main answer ≠ .signal := ThreadEvent.noConfusion
    obtain ⟨m, hlt, hm⟩ := Threads.ranked.lowers hrank hquiet hstep
    exact ⟨m, hm, Nat.add_lt_add_left hlt _⟩
  | swept hplace hpc =>
    refine ⟨k, hrank, Nat.add_lt_add_right ?_ _⟩
    rw [State.cost, State.cost, hplace]
    apply Nat.add_lt_add_right
    split
    · exact (by decide : 4 < 5)
    · exact (by decide : 3 < 5)
  | joined hplace hreturned =>
    refine ⟨k, hrank, Nat.add_lt_add_right ?_ _⟩
    rw [State.cost, State.cost, hplace, hreturned]
    exact (by decide : 3 < 4)
  | closed hplace hsocket =>
    refine ⟨k, hrank, Nat.add_lt_add_right ?_ _⟩
    rw [State.cost, State.cost, hplace]
    apply Nat.add_lt_add_right
    split
    · exact (by decide : 1 < 3)
    · exact (by decide : 2 < 3)
  | unlinked hplace =>
    refine ⟨k, hrank, Nat.add_lt_add_right ?_ _⟩
    rw [State.cost, State.cost, hplace]
    exact Nat.add_lt_add_right (by decide : 1 < 2) _
  | exited hplace =>
    refine ⟨k, hrank, Nat.add_lt_add_right ?_ _⟩
    rw [State.cost, State.cost, hplace]
    exact Nat.add_lt_add_right (by decide : 0 < 1) _

private theorem connectorStep_lowers {k : ℕ} (hrank : s.threads.Rank k)
    (h : s.connectorStep i = .ok (s', r)) :
    ∃ m, s'.threads.Rank m ∧ s'.cost + m < s.cost + k := by
  obtain ⟨hstep, hs', -⟩ := connectorStep_cases h
  have hthreads : s.threads.step (.connector i) = .ok (s'.threads, .quiet) := by
    rw [Threads.step, hstep]
  have hquiet : ThreadEvent.connector i ≠ .signal := ThreadEvent.noConfusion
  obtain ⟨m, hlt, hm⟩ := Threads.ranked.lowers hrank hquiet hthreads
  refine ⟨m, hm, ?_⟩
  rw [hs']
  exact Nat.add_lt_add_left hlt _

private theorem step_lowers (h : Rank config s n) (hquiet : ∀ signo, e ≠ .signal signo)
    (hstep : s.step config e = .ok (s', r)) : ∃ m < n, Rank config s' m := by
  obtain ⟨⟨l, lost, hinv⟩, k, hrank, rfl⟩ := h
  have hinv' : ∃ l lost, Inv config s' l lost := by
    rcases step_spec hinv e with hwait | ⟨s₁, r₁, l₁, hstep₁, hinv₁⟩
    · rw [hwait] at hstep
      cases hstep
    · rw [hstep, Except.ok.injEq, Prod.mk.injEq] at hstep₁
      obtain ⟨rfl, -⟩ := hstep₁
      exact ⟨l₁, _, hinv₁⟩
  suffices hlower : ∃ m, s'.threads.Rank m ∧ s'.cost + m < s.cost + k by
    obtain ⟨m, hm, hlt⟩ := hlower
    exact ⟨_, hlt, hinv', m, hm, rfl⟩
  cases e with
  | signal signo => exact absurd rfl (hquiet signo)
  | main ret answer =>
    obtain ⟨-, ⟨hstartup, hstartupStep, hleads⟩ | ⟨-, hserves⟩⟩ := main_cases hinv hstep
    · have hlt := startupStep_cost hinv hstartup hstartupStep
      have hkeep : s'.threads = s.threads → ∃ m, s'.threads.Rank m ∧ s'.cost + m < s.cost + k :=
        fun hthreads ↦ ⟨k, hthreads ▸ hrank, Nat.add_lt_add_right hlt _⟩
      cases hleads with
      | startup _ _ hthreads _ => exact hkeep hthreads
      | serving _ hthreads _ => exact hkeep hthreads
      | cleanup _ hthreads _ =>
        have hpc := (unused_of_startup hinv.position hstartup).pc
        obtain ⟨m, hle, hm⟩ := rank_cleanup hpc hrank
        exact ⟨m, hthreads ▸ hm, Nat.add_lt_add hlt hle⟩
    · exact serves_lowers hrank hserves
  | connector i => exact connectorStep_lowers hrank hstep
  | fatal i signal =>
    obtain ⟨hfatal, -⟩ := eq_ok_of_map hstep
    obtain ⟨-, rfl⟩ := fatalStep_cases hfatal
    refine ⟨k, hrank, Nat.add_lt_add_right (Nat.add_lt_add_right ?_ _) _⟩
    exact place_cost_pos hinv fun status ↦ not_exited_of_ok hstep
  | timestamp =>
    obtain ⟨hthreads, hlt⟩ := timestampStep_cost hrank.1 hstep
    exact ⟨k, hthreads ▸ hrank, Nat.add_lt_add_right hlt _⟩

/-! ## Some step is possible -/

private theorem exists_timestampStep (halive : s.alive = true) {phase : TimestampPhase}
    (hphase : s.timestamp = some phase) (hreturned : phase ≠ .returned)
    (hjoined : phase ≠ .joined) :
    ∃ s' r, s.timestampStep = .ok (s', r) := by
  rw [State.timestampStep, if_pos halive, hphase]
  cases phase with
  | returned => exact absurd rfl hreturned
  | joined => exact absurd rfl hjoined
  | _ => exact ⟨_, _, rfl⟩

private theorem main_advances (hinv : Inv config s l lost) (hserving : s.place.startup = false)
    (hne : s.servingStep config answer ≠ .error .disabled) :
    ∃ e s' r, e.Ordinary ∧ s.step config e = .ok (s', r) := by
  rcases servingStep_spec hinv answer with hwait | ⟨s', l', hstep, -⟩
  · exact absurd hwait hne
  · refine ⟨.main 0 answer, s', .quiet, trivial, ?_⟩
    rw [State.step, State.mainStep, if_neg (by simp [hserving]), hstep]
    rfl

private theorem running_advances (hinv : Inv config s l lost) {k : ℕ} (hrank : s.threads.Rank k)
    (hplace : s.place = .running status) :
    ∃ e s' r, e.Ordinary ∧ s.step config e = .ok (s', r) := by
  have halive : s.alive = true := by rw [State.alive, hplace]
  have hserving : s.place.startup = false := by rw [hplace, Place.startup]
  by_cases hpc : s.threads.pc = .returned
  · apply @main_advances config s l lost ⟨none, true, none⟩ hinv hserving
    rw [State.servingStep, hplace]
    dsimp only
    rw [if_pos hpc]
    simp
  obtain ⟨e, t, r, hquiet, hstep⟩ := Threads.ranked.advances hrank hpc
  cases e with
  | signal => exact absurd rfl hquiet
  | main answer =>
    have hthreads : s.threads.mainStep answer = .ok (t, r) := hstep
    apply @main_advances config s l lost answer hinv hserving
    rw [State.servingStep, hplace]
    dsimp only
    rw [if_neg hpc, hthreads]
    split <;> simp
  | connector i =>
    rw [Threads.machine_step, Threads.step] at hstep
    cases hconnector : s.threads.connectorStep i with
    | error err =>
      rw [hconnector] at hstep
      cases hstep
    | ok t' =>
      refine ⟨.connector i, ?_⟩
      rw [State.step, State.connectorStep, if_pos halive, hconnector]
      dsimp only
      split
      · exact ⟨_, _, trivial, rfl⟩
      · exact ⟨_, _, trivial, rfl⟩

private theorem exists_step (hinv : Inv config s l lost) {k : ℕ} (hrank : s.threads.Rank k)
    (hplace : ∀ status, s.place ≠ .exited status) :
    ∃ e s' r, e.Ordinary ∧ s.step config e = .ok (s', r) := by
  by_cases hstartup : s.place.startup = true
  · obtain ⟨s', hstep, -⟩ := startupStep_spec hinv hstartup 0
    refine ⟨.main 0 ⟨none, true, none⟩, s', .quiet, trivial, ?_⟩
    rw [State.step, State.mainStep, if_pos hstartup, hstep]
    rfl
  have hserving := eq_false_of_ne_true hstartup
  have hmain := @main_advances config s l lost ⟨none, true, none⟩ hinv hserving
  have hat := hinv.position
  rw [AtPlace] at hat
  cases hs : s.place with
  | running status => exact running_advances hinv hrank hs
  | joinTimestamp status =>
    rw [hs] at hat
    obtain ⟨-, -, phase, hphase, hjoined⟩ := hat
    by_cases hreturned : phase = .returned
    · subst hreturned
      apply hmain
      rw [State.servingStep, hs]
      dsimp only
      rw [hphase]
      simp
    · have halive : s.alive = true := by rw [State.alive, hs]
      obtain ⟨s', r, hstep⟩ := exists_timestampStep halive hphase hreturned hjoined
      exact ⟨.timestamp, s', r, trivial, hstep⟩
  | closeSocket status =>
    apply hmain
    rw [State.servingStep, hs]
    dsimp only
    split
    · simp
    · split <;> simp
  | unlink status =>
    apply hmain
    rw [State.servingStep, hs]
    simp
  | exit status =>
    apply hmain
    rw [State.servingStep, hs]
    simp
  | exited status => exact absurd hs (hplace status)
  | _ => exact absurd (by rw [hs]; rfl) hstartup

/-- After the signal, the process comes to its exit, whether a thread can end it by a signal or not.
-/
theorem ranked (config : Config) {A : Event → Prop} (hquiet : ∀ e, A e → ∀ signo, e ≠ .signal signo)
    (hordinary : ∀ e : Event, e.Ordinary → A e) :
    (machine config).Ranked A (fun s ↦ ∃ status, s.place = .exited status) (Rank config) where
  lowers h he hstep := step_lowers h (hquiet _ he) hstep
  advances := by
    rintro s n ⟨⟨l, lost, hinv⟩, k, hrank, -⟩ hplace
    obtain ⟨e, s', r, he, hstep⟩ := exists_step hinv hrank fun status hs ↦ hplace ⟨status, hs⟩
    exact ⟨e, s', r, hordinary e he, hstep⟩

/-- **The process comes to its exit.** Wherever the signal finds it, at most `8n + 3m + 42` steps
are taken then, where `n` threads are in the list and `m` were lost; from every state on the way the
exit can be reached by ordinary steps, and where none of these is possible the process has exited.
-/
theorem process_exits {linked leader : Bool} {tr : List LifecycleMove}
    (hrun : (machine config).Run (.init linked leader) tr s)
    (hexit : s.threads.exitRequested = true) :
    ∃ l, IsChain s.threads.nodes s.threads.head l ∧ ∀ tr' s', (machine config).Run s tr' s' →
      (∀ m ∈ tr', ∀ signo, m.event ≠ .signal signo) →
      tr'.length ≤ 8 * l.length + 3 * (lostBy tr).length + 42 ∧
      (∃ tr'' t status, (machine config).Run s' tr'' t ∧ (∀ m ∈ tr'', m.event.Ordinary) ∧
        t.place = .exited status) ∧
      ((∀ e : Event, e.Ordinary → ∃ err, s'.step config e = .error err) →
        ∃ status, s'.place = .exited status) := by
  obtain ⟨l, hinv⟩ := inv_of_run hrun
  obtain ⟨k, hcost, hle⟩ := hinv.threads.position.exists_cost
  have hthreads : s.threads.Rank _ := ⟨hexit, l, lostBy tr, k, hinv.threads.linked, hcost, rfl⟩
  have hrank : Rank config s _ := ⟨⟨l, lostBy tr, hinv⟩, _, hthreads, rfl⟩
  refine ⟨l, hinv.threads.linked.chain, fun tr' s' hrun' hquiet ↦ ?_⟩
  have hall := ranked config (fun _ h ↦ h) fun _ ↦ Event.Ordinary.ne_signal
  have hordinary := ranked config (fun _ ↦ Event.Ordinary.ne_signal) fun _ h ↦ h
  obtain ⟨n, hlength, hrank'⟩ := hall.length_le hrun' hquiet hrank
  refine ⟨?_, ?_, hordinary.of_stuck hrank'⟩
  · have hwork := work_le s.threads.threads
      (s.threads.pc.pending ++ (l.map Prod.snd ++ lostBy tr))
    rw [List.length_append, List.length_append, List.length_map] at hwork
    have hplace := s.place.cost_le
    have htimestamp := timestampCost_le s.timestamp
    rw [State.cost] at hlength
    omega
  · obtain ⟨tr'', t, hrun'', he, status, ht⟩ := hordinary.exists_run hrank'
    exact ⟨tr'', t, status, hrun'', he, ht⟩

/-- The signal comes when the address of the socket is in use, before `bind` is tried again. -/
theorem process_exits_of_bind : ∃ tr s n, (machine ⟨false, []⟩).Run (.init true false) tr s ∧
    s.threads.exitRequested = true ∧ s.place = .bind 1 ∧
      ∀ tr' s', (machine ⟨false, []⟩).Run s tr' s' →
        (∀ m ∈ tr', ∀ signo, m.event ≠ .signal signo) → tr'.length ≤ n ∧
          ∃ tr'' t status, (machine ⟨false, []⟩).Run s' tr'' t ∧ t.place = .exited status := by
  obtain ⟨tr, s, hrun, htest⟩ := exists_run_of_exec (machine ⟨false, []⟩) (.init true false)
    (mainCalls 4 ++ [.main (-1) ⟨none, true, none⟩, .signal .sigint])
    (fun _ s ↦ decide (s.threads.exitRequested = true ∧ s.place = .bind 1)) (by decide +kernel)
  obtain ⟨hexit, hplace⟩ := of_decide_eq_true htest
  obtain ⟨l, -, hend⟩ := process_exits hrun hexit
  refine ⟨tr, s, 8 * l.length + 3 * (lostBy tr).length + 42, hrun, hexit, hplace,
    fun tr' s' hrun' hquiet ↦ ?_⟩
  obtain ⟨hlength, ⟨tr'', t, status, hrun'', -, ht⟩, -⟩ := hend tr' s' hrun' hquiet
  exact ⟨hlength, tr'', t, status, hrun'', ht⟩

end Rank

end Aesd.Lifecycle
