import Aesd.Server.Stages

/-!
# The accept loop and the end of the server

From the accept loop on, the main thread takes the steps of `Threads`, and then gives back the
timestamp thread, the socket and the data file (`Serves`). `Effect` is what any step of the process
can do: it leaves the main thread where it is, ends the process, or takes it to its next call.

## What this is good for

The case analysis over all places and all events is done once, in `step_spec` and in the inversion
lemma `Effect.of_ok`. Every later result about runs, on the exit status, the data file or the
leader of the session, only looks at the effects.

So no step uses or closes a socket that is not there, or joins the timestamp thread twice
(`lifecycle_safe`). A fault of a connection thread inside the message of its own client is not
denied by this: it is the event that ends the process by a signal.
-/

namespace Aesd.Lifecycle

open Chain Machine

section Step

variable {config : Config} {s s' : State} {status : ExitStatus} {l : List (ℕ × SlistData)}
  {lost : List SlistData} {e : Event} {r : Observed} {ret : Int32} {answer : Answer} {i : ℕ}

/-! ## The accept loop and `cleanup` -/

private theorem mainStep_comes {t t' : Threads} {r : ThreadReply}
    (h : t.mainStep answer = .ok (t', r)) :
    t'.exitRequested = t.exitRequested ∧
      (inCleanup t'.pc = true → inCleanup t.pc = true ∨ t.exitRequested = true) := by
  rw [Threads.mainStep] at h
  split at h
  · cases h
    refine ⟨rfl, fun hin ↦ .inr ?_⟩
    by_contra hexit
    simp [hexit, inCleanup] at hin
  · split at h
    · cases h
      refine ⟨rfl, fun hin ↦ .inr ?_⟩
      by_contra hexit
      simp [hexit, inCleanup] at hin
    · cases h
      exact ⟨rfl, fun hin ↦ absurd hin Bool.false_ne_true⟩
  · split at h <;> cases h <;> exact ⟨rfl, fun hin ↦ absurd hin Bool.false_ne_true⟩
  · split at h
    · obtain ⟨args, -, h⟩ := exists_of_bind_eq_ok h
      cases h
      exact ⟨rfl, fun hin ↦ absurd hin Bool.false_ne_true⟩
    · split at h <;> cases h
      exact ⟨rfl, fun hin ↦ absurd hin Bool.false_ne_true⟩
  · cases h
    exact ⟨Threads.addNode_exitRequested .., fun hin ↦ absurd hin Bool.false_ne_true⟩
  · cases h
    exact ⟨rfl, fun hin ↦ absurd hin Bool.false_ne_true⟩
  · obtain ⟨data, -, h⟩ := exists_of_bind_eq_ok h
    cases h
    exact ⟨rfl, fun hin ↦ absurd hin Bool.false_ne_true⟩
  · obtain ⟨data, -, h⟩ := exists_of_bind_eq_ok h
    obtain ⟨arg, -, h⟩ := exists_of_bind_eq_ok h
    split at h <;> cases h <;> exact ⟨rfl, fun hin ↦ absurd hin Bool.false_ne_true⟩
  · obtain ⟨-, -, -, -, -, -, -, -, hpc', hexit⟩ := Threads.joinAndRemove_eq_ok h
    exact ⟨hexit, fun hin ↦ absurd hin (by simp [hpc', inCleanup])⟩
  · rename_i hpc
    cases h
    exact ⟨rfl, fun _ ↦ .inl (by rw [hpc]; rfl)⟩
  · rename_i hpc
    obtain ⟨data, -, h⟩ := exists_of_bind_eq_ok h
    cases h
    exact ⟨rfl, fun _ ↦ .inl (by rw [hpc]; rfl)⟩
  · rename_i hpc
    obtain ⟨-, -, -, -, -, -, -, -, -, hexit⟩ := Threads.joinAndRemove_eq_ok h
    exact ⟨hexit, fun _ ↦ .inl (by rw [hpc]; rfl)⟩
  · cases h

private theorem mainStep_stays {t t' : Threads} {r : ThreadReply}
    (h : t.mainStep answer = .ok (t', r)) (hin : inCleanup t.pc = true) :
    inCleanup t'.pc = true ∧ ((∀ i, t.threads i = none) → ∀ i, t'.threads i = none) := by
  rw [Threads.mainStep] at h
  cases hpc : t.pc with
  | cleanupTest p =>
    rw [hpc] at h
    cases p with
    | none =>
      cases h
      exact ⟨rfl, id⟩
    | some node =>
      obtain ⟨data, -, h⟩ := exists_of_bind_eq_ok h
      cases h
      exact ⟨rfl, id⟩
  | cleanupJoin node tmp =>
    rw [hpc] at h
    obtain ⟨data, thread, b, -, hthread, -, -, -, hpc', -⟩ := Threads.joinAndRemove_eq_ok h
    refine ⟨by rw [hpc']; rfl, fun hnone ↦ ?_⟩
    rw [hnone] at hthread
    cases hthread
  | returned =>
    rw [hpc] at h
    cases h
  | _ =>
    rw [hpc] at hin
    cases hin

/-- **What a step of the main thread can do** from its accept loop on. -/
inductive Serves (config : Config) (s : State) (answer : Answer) : State → Prop
  | thread {status : ExitStatus} {threads : Threads} {r : ThreadReply}
      (hplace : s.place = .running status) (hstep : s.threads.mainStep answer = .ok (threads, r)) :
      Serves config s answer { s with threads }
  | swept {status : ExitStatus} (hplace : s.place = .running status)
      (hpc : s.threads.pc = .returned) :
      Serves config s answer { s with place :=
        if s.timestamp.isSome then .joinTimestamp status else .closeSocket status }
  | joined {status : ExitStatus} (hplace : s.place = .joinTimestamp status)
      (hreturned : s.timestamp = some .returned) :
      Serves config s answer { s with timestamp := some .joined, place := .closeSocket status }
  | closed {status : ExitStatus} {socket : SocketState} (hplace : s.place = .closeSocket status)
      (hsocket : socket = .closed ∨ s.sockfd = -1 ∧ socket = s.socket) :
      Serves config s answer { s with socket, place :=
        if config.useAesdCharDevice then .exit status else .unlink status }
  | unlinked {status : ExitStatus} (hplace : s.place = .unlink status) :
      Serves config s answer { s with linked := false, place := .exit status }
  | exited {status : ExitStatus} (hplace : s.place = .exit status) :
      Serves config s answer { s with place := .exited status }

theorem Serves.of_ok (h : s.servingStep config answer = .ok s') : Serves config s answer s' := by
  rw [State.servingStep] at h
  split at h
  · rename_i status hplace
    split at h
    · rename_i hpc
      cases h
      exact .swept hplace hpc
    split at h
    · cases h
    split at h
    · cases h
    · rename_i hstep
      cases h
      exact .thread hplace hstep
  · rename_i status hplace
    split at h
    · rename_i hreturned
      cases h
      exact .joined hplace hreturned
    · cases h
    · cases h
    · cases h
  · rename_i status hplace
    dsimp only at h
    split at h
    · rename_i hsockfd
      cases h
      exact .closed hplace (.inr ⟨hsockfd, rfl⟩)
    split at h
    · cases h
    · cases h
      exact .closed hplace (.inl rfl)
  · rename_i status hplace
    cases h
    exact .unlinked hplace
  · rename_i status hplace
    cases h
    exact .exited hplace
  · cases h

private theorem inv_of_quiet (h : Inv config s' l lost) (hpc : s.threads.pc.pending = []) :
    Inv config s' l (lost ++ s.threads.loses (.main answer)) := by
  rwa [Threads.loses, hpc, ite_self, List.append_nil]

private theorem runningStep_spec (h : Inv config s l lost) (hplace : s.place = .running status)
    (answer : Answer) :
    s.servingStep config answer = .error .disabled ∨
      ∃ s' l', s.servingStep config answer = .ok s' ∧
        Inv config s' l' (lost ++ s.threads.loses (.main answer)) := by
  obtain ⟨hthreads, hat⟩ := h
  rw [AtPlace, hplace] at hat
  rw [State.servingStep, hplace]
  dsimp only at hat ⊢
  by_cases hpc : s.threads.pc = .returned
  · right
    rw [if_pos hpc]
    refine ⟨_, l, rfl, inv_of_quiet ⟨hthreads, ?_⟩ (by rw [hpc]; rfl)⟩
    cases status with
    | success =>
      obtain ⟨hsocket, hsockfd, hunjoined, hasked⟩ := hat
      have hswept : ∀ place, Swept { s with place } .success :=
        fun _ ↦ ⟨hpc, .inr ⟨rfl, hasked (by rw [hpc]; rfl)⟩⟩
      have hdescribed : Described s := iff_of_false hsockfd (by simp [hsocket])
      cases htimestamp : s.timestamp with
      | none => exact ⟨hswept _, hdescribed, .inl htimestamp⟩
      | some phase =>
        refine ⟨hswept _, hdescribed, phase, htimestamp, ?_⟩
        rintro rfl
        exact hunjoined htimestamp
    | failure =>
      obtain ⟨hdescribed, htimestamp, -⟩ := hat
      rw [htimestamp]
      exact ⟨⟨hpc, .inl rfl⟩, hdescribed, .inl htimestamp⟩
    | killed signo => exact hat.elim
    | crashed signal => exact hat.elim
  · rw [if_neg hpc, if_neg]
    swap
    · rintro ⟨haccept, hsocket⟩
      cases status with
      | success => exact hsocket hat.1
      | failure => simp [Running, haccept, inCleanup] at hat
      | killed signo => exact hat
      | crashed signal => exact hat
    rcases Threads.step_spec hthreads (.main answer) with hwait | ⟨t, r, l', hstep, hinv⟩
    · left
      rw [show s.threads.mainStep answer = .error .disabled from hwait]
    · right
      have hmain : s.threads.mainStep answer = .ok (t, r) := hstep
      obtain ⟨hexit, hcomes⟩ := mainStep_comes hmain
      rw [hmain]
      refine ⟨_, l', rfl, hinv, ?_⟩
      rw [AtPlace]
      dsimp only
      cases status with
      | success =>
        obtain ⟨hsocket, hsockfd, hunjoined, hasked⟩ := hat
        refine ⟨hsocket, hsockfd, hunjoined, fun hin ↦ hexit.trans ?_⟩
        exact (hcomes hin).elim hasked id
      | failure =>
        obtain ⟨hdescribed, htimestamp, hnone, hin⟩ := hat
        obtain ⟨hin', hnone'⟩ := mainStep_stays hmain hin
        exact ⟨hdescribed, htimestamp, hnone' hnone, hin'⟩
      | killed signo => exact hat
      | crashed signal => exact hat

/-- **A step from the accept loop on** has to wait, or does not fault. -/
theorem servingStep_spec (h : Inv config s l lost) (answer : Answer) :
    s.servingStep config answer = .error .disabled ∨
      ∃ s' l', s.servingStep config answer = .ok s' ∧
        Inv config s' l' (lost ++ s.threads.loses (.main answer)) := by
  have hat := h.position
  rw [AtPlace] at hat
  cases hplace : s.place with
  | running status => exact runningStep_spec h hplace answer
  | joinTimestamp status =>
    rw [hplace] at hat
    obtain ⟨hswept, hdescribed, phase, hphase, hne⟩ := hat
    rw [State.servingStep, hplace]
    dsimp only
    rw [hphase]
    cases phase with
    | returned =>
      refine .inr ⟨_, l, rfl, inv_of_quiet ⟨h.threads, ?_⟩ (by rw [hswept.pc]; rfl)⟩
      exact ⟨⟨hswept.pc, hswept.asked⟩, hdescribed, .inr rfl⟩
    | joined => exact absurd rfl hne
    | _ => exact .inl rfl
  | closeSocket status =>
    rw [hplace] at hat
    obtain ⟨hswept, hdescribed, htimestamp⟩ := hat
    rw [State.servingStep, hplace]
    dsimp only
    right
    let next : Place := if config.useAesdCharDevice then .exit status else .unlink status
    have hinv : ∀ socket, socket = .closed →
        Inv config { s with socket, place := next } l lost := by
      intro socket hsocket
      refine ⟨h.threads, ?_⟩
      dsimp only [next]
      cases config.useAesdCharDevice <;>
        exact ⟨⟨hswept.pc, hswept.asked⟩, hsocket, htimestamp⟩
    by_cases hsockfd : s.sockfd = -1
    · rw [if_pos hsockfd]
      exact ⟨_, l, rfl, inv_of_quiet (hinv _ (hdescribed.mp hsockfd)) (by rw [hswept.pc]; rfl)⟩
    · rw [if_neg hsockfd, if_neg (mt hdescribed.mpr hsockfd)]
      exact ⟨_, l, rfl, inv_of_quiet (hinv _ rfl) (by rw [hswept.pc]; rfl)⟩
  | unlink status =>
    rw [hplace] at hat
    obtain ⟨hswept, hsocket, htimestamp⟩ := hat
    rw [State.servingStep, hplace]
    refine .inr ⟨_, l, rfl, inv_of_quiet ⟨h.threads, ?_⟩ (by rw [hswept.pc]; rfl)⟩
    exact ⟨⟨hswept.pc, hswept.asked⟩, hsocket, htimestamp⟩
  | exit status =>
    rw [hplace] at hat
    obtain ⟨hswept, hsocket, htimestamp⟩ := hat
    rw [State.servingStep, hplace]
    refine .inr ⟨_, l, rfl, inv_of_quiet ⟨h.threads, ?_⟩ (by rw [hswept.pc]; rfl)⟩
    exact .inr (.inr ⟨⟨hswept.pc, hswept.asked⟩, hsocket, htimestamp⟩)
  | _ => exact .inl (by rw [State.servingStep, hplace])

/-! ## Every step keeps the invariant -/

/-- A step from a state with the invariant: it is disabled, or leads to a state with the invariant.
-/
def StepsOn (config : Config) (s : State) (lost : List SlistData) (e : Event) : Prop :=
  s.step config e = .error .disabled ∨
    ∃ s' r l', s.step config e = .ok (s', r) ∧ Inv config s' l' (lost ++ s.loses e)

theorem deliver_cases {signo : Signo} (h : s.deliver signo = .ok s') :
    (∃ next, s.place = .sigaction next) ∧ s' = s.exit (.killed signo) ∨
      s' = { s with threads := { s.threads with exitRequested := true } } := by
  rw [State.deliver] at h
  split at h
  · cases h
  · rename_i next hplace
    split at h
    · cases h
      exact .inl ⟨⟨next, hplace⟩, rfl⟩
    · cases h
      exact .inr rfl
  · cases h
    exact .inr rfl

private theorem deliver_spec (h : Inv config s l lost) (signo : Signo) :
    s.deliver signo = .error .disabled ∨ ∃ s', s.deliver signo = .ok s' ∧ Inv config s' l lost := by
  cases hstep : s.deliver signo with
  | error err =>
    left
    rw [State.deliver] at hstep
    split at hstep
    · exact hstep.symm
    · split at hstep <;> cases hstep
    · cases hstep
  | ok s' =>
    refine .inr ⟨s', rfl, ?_⟩
    rcases deliver_cases hstep with ⟨⟨next, hplace⟩, rfl⟩ | rfl
    · have hunused := unused_of_startup h.position (by rw [hplace]; rfl)
      exact ⟨h.threads, .inr (.inl ⟨hunused.pc, hunused.threads, hunused.timestamp⟩)⟩
    · exact ⟨⟨⟨h.threads.linked.chain, h.threads.linked.nodup, h.threads.linked.owns⟩,
        h.threads.position⟩, beside_signal.atPlace h.position⟩

theorem fatalStep_cases {signal : Fatal} (h : s.fatalStep i signal = .ok s') :
    (∃ thread, s.threads.threads i = some thread) ∧ s' = s.exit (.crashed signal) := by
  rw [State.fatalStep] at h
  split at h
  swap
  · cases h
  split at h
  · rename_i thread hthread
    cases h
    exact ⟨⟨_, hthread⟩, rfl⟩
  · cases h

private theorem step_main_spec (h : Inv config s l lost) (ret : Int32) (answer : Answer) :
    StepsOn config s lost (.main ret answer) := by
  rw [StepsOn, State.step, State.loses, State.mainStep]
  split
  · rename_i hstartup
    obtain ⟨s', hstep, hinv, -⟩ := startupStep_spec h hstartup ret
    refine .inr ⟨s', .quiet, l, by rw [hstep]; rfl, inv_of_quiet hinv ?_⟩
    rw [(unused_of_startup h.position hstartup).pc]
    rfl
  · rcases servingStep_spec h answer with hwait | ⟨s', l', hstep, hinv⟩
    · exact .inl (by rw [hwait]; rfl)
    · exact .inr ⟨s', .quiet, l', by rw [hstep]; rfl, hinv⟩

private theorem step_connector_spec (h : Inv config s l lost) (i : ℕ) :
    StepsOn config s lost (.connector i) := by
  rw [StepsOn, State.step, State.loses, List.append_nil]
  have hspec := Threads.connectorStep_spec h.threads.linked i
  cases hstep : s.connectorStep i with
  | error err =>
    left
    rw [State.connectorStep] at hstep
    split at hstep
    swap
    · exact hstep.symm
    rcases hspec with hwait | ⟨t, hok, -⟩
    · rw [hwait] at hstep
      exact hstep.symm
    · rw [hok] at hstep
      dsimp only at hstep
      split at hstep <;> cases hstep
  | ok p =>
    obtain ⟨s', r⟩ := p
    obtain ⟨hconnector, -⟩ := connectorStep_cases hstep
    refine .inr ⟨s', r, l, rfl, ?_, (beside_connectorStep hstep).atPlace h.position⟩
    rcases hspec with hwait | ⟨t, hok, hpc, -, hlinked⟩
    · rw [hwait] at hconnector
      cases hconnector
    · rw [hok, Except.ok.injEq] at hconnector
      subst hconnector
      exact ⟨by rwa [hpc], by rw [hpc]; exact h.threads.position⟩

private theorem step_fatal_spec (h : Inv config s l lost) (i : ℕ) (signal : Fatal) :
    StepsOn config s lost (.fatal i signal) := by
  rw [StepsOn, State.step, State.loses, List.append_nil]
  cases hstep : s.fatalStep i signal with
  | error err =>
    left
    rw [State.fatalStep] at hstep
    split at hstep
    swap
    · cases hstep
      rfl
    split at hstep <;> cases hstep
    rfl
  | ok s' =>
    obtain ⟨-, rfl⟩ := fatalStep_cases hstep
    exact .inr ⟨_, _, l, rfl, h.threads, .inl ⟨signal, rfl⟩⟩

private theorem step_timestamp_spec (h : Inv config s l lost) :
    StepsOn config s lost .timestamp := by
  rw [StepsOn, State.step, State.loses, List.append_nil]
  cases hstep : s.timestampStep with
  | error err =>
    left
    rw [State.timestampStep] at hstep
    split at hstep
    swap
    · exact hstep.symm
    split at hstep <;> first | exact hstep.symm | cases hstep
  | ok p =>
    obtain ⟨s', r⟩ := p
    refine .inr ⟨s', r, l, rfl, ?_, (beside_timestampStep hstep).atPlace h.position⟩
    obtain ⟨⟨_, _, -, -, -, hs'⟩, -⟩ := timestampStep_cases hstep
    rw [hs']
    exact h.threads

/-- **One step keeps the invariant**, and none faults. -/
theorem step_spec (h : Inv config s l lost) (e : Event) : StepsOn config s lost e := by
  cases e with
  | signal signo =>
    rw [StepsOn, State.step, State.loses, List.append_nil]
    rcases deliver_spec h signo with hwait | ⟨s', hstep, hinv⟩
    · exact .inl (by rw [hwait]; rfl)
    · exact .inr ⟨s', .quiet, l, by rw [hstep]; rfl, hinv⟩
  | main ret answer => exact step_main_spec h ret answer
  | connector i => exact step_connector_spec h i
  | fatal i signal => exact step_fatal_spec h i signal
  | timestamp => exact step_timestamp_spec h

/-- What a step does to the file at `FILE_PATH`, unless it removes it. -/
def Opens (s s' : State) (r : Observed) : Prop :=
  r = .opened ∧ s'.linked = true ∨ r = .quiet ∧ s'.linked = s.linked

inductive Effect (config : Config) (s s' : State) (r : Observed) : Prop
  | beside (h : Beside s s') (hopens : Opens s s' r)
  | crashed (signal : Fatal) (hserving : s.place.startup = false)
      (hs' : s' = s.exit (.crashed signal)) (hr : r = .quiet)
  | killed (signo : Signo) (hstartup : s.place.startup = true) (hs' : s' = s.exit (.killed signo))
      (hr : r = .quiet)
  | leads (ret : Int32) (hstartup : s.place.startup = true)
      (hstep : s.startupStep config ret = .ok s') (h : Leads s s') (hr : r = .quiet)
  | serves (answer : Answer) (hserving : s.place.startup = false) (h : Serves config s answer s')
      (hr : r = .quiet)

theorem eq_ok_of_map {x : Except LifecycleError State}
    (h : (x.map fun s ↦ (s, Observed.quiet)) = .ok (s', r)) : x = .ok s' ∧ r = .quiet := by
  cases x with
  | error err => cases h
  | ok t =>
    cases h
    exact ⟨rfl, rfl⟩

theorem main_cases (h : Inv config s l lost)
    (hstep : s.step config (.main ret answer) = .ok (s', r)) :
    r = .quiet ∧ (s.place.startup = true ∧ s.startupStep config ret = .ok s' ∧ Leads s s' ∨
      s.place.startup = false ∧ Serves config s answer s') := by
  obtain ⟨hmain, hr⟩ := eq_ok_of_map hstep
  refine ⟨hr, ?_⟩
  rw [State.mainStep] at hmain
  split at hmain
  · rename_i hstartup
    obtain ⟨s₁, hstep₁, -, hleads⟩ := startupStep_spec h hstartup ret
    obtain rfl : s₁ = s' := Except.ok.inj (hstep₁.symm.trans hmain)
    exact .inl ⟨hstartup, hmain, hleads⟩
  · rename_i hserving
    exact .inr ⟨eq_false_of_ne_true hserving, .of_ok hmain⟩

theorem Effect.of_ok (h : Inv config s l lost) (hstep : s.step config e = .ok (s', r)) :
    Effect config s s' r := by
  cases e with
  | signal signo =>
    obtain ⟨hdeliver, hr⟩ := eq_ok_of_map hstep
    rcases deliver_cases hdeliver with ⟨⟨next, hplace⟩, hs'⟩ | rfl
    · exact .killed signo (by rw [hplace]; rfl) hs' hr
    · exact .beside beside_signal (.inr ⟨hr, rfl⟩)
  | main ret answer =>
    obtain ⟨hr, ⟨hstartup, hstartupStep, hleads⟩ | ⟨hserving, hserves⟩⟩ := main_cases h hstep
    · exact .leads ret hstartup hstartupStep hleads hr
    · exact .serves answer hserving hserves hr
  | fatal i signal =>
    obtain ⟨hfatal, hr⟩ := eq_ok_of_map hstep
    obtain ⟨⟨thread, hthread⟩, hs'⟩ := fatalStep_cases hfatal
    refine .crashed signal (eq_false_of_ne_true fun hstartup ↦ ?_) hs' hr
    have hnone := (unused_of_startup h.position hstartup).threads i
    rw [hthread] at hnone
    cases hnone
  | connector i => exact .beside (beside_connectorStep hstep) (connectorStep_cases hstep).2.2
  | timestamp => exact .beside (beside_timestampStep hstep) (timestampStep_cases hstep).2

theorem not_exited_of_ok (hstep : s.step config e = .ok (s', r)) :
    s.place ≠ .exited status := by
  intro hplace
  cases e with
  | signal signo =>
    rw [State.step, State.deliver, hplace] at hstep
    cases hstep
  | main ret answer =>
    rw [State.step, State.mainStep, hplace, State.servingStep, hplace] at hstep
    cases hstep
  | connector i =>
    rw [State.step, State.connectorStep, State.alive, hplace] at hstep
    cases hstep
  | fatal i signal =>
    rw [State.step, State.fatalStep, State.alive, hplace] at hstep
    cases hstep
  | timestamp =>
    rw [State.step, State.timestampStep, State.alive, hplace] at hstep
    cases hstep

end Step

/-! ## Over whole runs -/

abbrev LifecycleMove := Move State Event Observed

/-- The threads that the steps of a run lose. -/
def lostBy (tr : List LifecycleMove) : List SlistData := tr.flatMap fun m ↦ m.pre.loses m.event

section Run

variable {config : Config} {linked leader : Bool} {tr : List LifecycleMove} {s s' : State}
  {status : ExitStatus} {l : List (ℕ × SlistData)} {lost : List SlistData} {e : Event}
  {r : Observed} {ret : Int32} {answer : Answer}

theorem inv_of_run (hrun : (machine config).Run (.init linked leader) tr s) :
    ∃ l, Inv config s l (lostBy tr) := by
  apply Run.invariant (I := fun tr s ↦ ∃ l, Inv config s l (lostBy tr))
    ⟨[], inv_init config linked leader⟩ _ hrun
  rintro tr s e s' r - ⟨l, hinv⟩ hstep
  rw [machine_step] at hstep
  rcases step_spec hinv e with hwait | ⟨s₁, r₁, l₁, hstep₁, hinv₁⟩
  · rw [hwait] at hstep
    cases hstep
  · rw [hstep₁] at hstep
    cases hstep
    refine ⟨l₁, ?_⟩
    rwa [lostBy, List.flatMap_append, List.flatMap_singleton]

/-- **The life of the server is safe.** Whatever the calls return and in whatever order the threads
run, no step of the process uses memory that was freed, joins a thread that cannot be joined, or
makes a call on a socket that is closed or not ready for it: a step that is not taken has to wait.
-/
theorem lifecycle_safe (hrun : (machine config).Run (.init linked leader) tr s) :
    ∀ e err, s.step config e = .error err → err = .disabled := by
  intro e err herror
  obtain ⟨l, hinv⟩ := inv_of_run hrun
  rcases step_spec hinv e with hwait | ⟨s', r, l', hstep, -⟩
  · rw [hwait] at herror
    cases herror
    rfl
  · rw [hstep] at herror
    cases herror

/-- The main thread takes `n` steps, with nothing to complain about. -/
def mainCalls (n : ℕ) : List Event := List.replicate n (.main 0 ⟨some 5, true, some 0⟩)

/-- A server for a file that is asked for the exit when it has accepted one connection. -/
def oneClient : List Event :=
  mainCalls 15 ++ [.timestamp, .connector 0, .signal .sigterm] ++ mainCalls 2 ++
    [.connector 0, .connector 0] ++ mainCalls 3 ++ [.timestamp, .timestamp] ++ mainCalls 4

/-- The process waits for its timestamp thread. -/
theorem lifecycle_safe_of_one : ∃ tr s, (machine ⟨false, []⟩).Run (.init true false) tr s ∧
    s.place = .joinTimestamp .success ∧
      ∀ e err, s.step ⟨false, []⟩ e = .error err → err = .disabled := by
  obtain ⟨tr, s, hrun, htest⟩ := exists_run_of_exec (machine ⟨false, []⟩) (.init true false)
    (oneClient.take 25) (fun _ s ↦ decide (s.place = .joinTimestamp .success)) (by decide +kernel)
  exact ⟨tr, s, hrun, of_decide_eq_true htest, lifecycle_safe hrun⟩

end Run

end Aesd.Lifecycle
