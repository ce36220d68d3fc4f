import Aesd.Server.Cleanup

/-!
# How the server ends

With `-d`, the process that makes the socket does not lead its session (`not_leader_of_daemon`). A
process that has called `cleanup` exits with nothing left but the threads that were lost, and with
success exactly when it had come to its accept loop; it was asked for the exit then
(`exited_after_cleanup`). Its data file is gone, unless a thread that was lost makes it again
(`data_file_left_iff`).

## Ends that are left out

A process that is ended by a signal of a connection thread keeps whatever it had, so both results
are about the others. They also rest on what `Lifecycle` assumes: a thread whose `fopen` fails exits
by itself.

## The data file

The file is removed when all threads of the list are joined and the timestamp thread is. Whoever
opens it afterwards is a thread whose `add_node` got no memory; `opener` says that nobody else is
left, and `FileAt` follows the file through the places of the main thread.
-/

namespace Aesd.Lifecycle

open Machine

section Run

variable {config : Config} {linked leader : Bool} {tr : List LifecycleMove} {s s' : State}
  {status : ExitStatus} {l : List (ℕ × SlistData)} {lost : List SlistData} {e : Event}
  {r : Observed} {ret : Int32} {answer : Answer}

/-! ## The daemon -/

/-- `daemonize` has returned, if it was called. -/
def detached : Place → Bool
  | .sigaction _ => false
  | .fork => false
  | .setsid => false
  | .secondFork => false
  | .exited _ => false
  | _ => true

/-- A call of `daemonize` that goes on changes whether the process leads its session, and no other
call does. -/
private theorem startupStep_leader (hdaemon : config.isDaemon = true)
    (h : detached s.place = true → s.leader = false)
    (hstep : s.startupStep config ret = .ok s') :
    detached s'.place = true → s'.leader = false := by
  intro hplace'
  rw [State.startupStep, hdaemon] at hstep
  split at hstep
  · split at hstep <;> cases hstep <;> cases hplace'
  · split at hstep <;> cases hstep <;> cases hplace'
  · repeat' split at hstep
    all_goals cases hstep; cases hplace'
  · split at hstep <;> cases hstep <;> cases hplace'
  · split at hstep
    · cases hstep
      cases hplace'
    split at hstep
    · cases hstep
      cases hplace'
    · cases hstep
      rfl
  · rename_i hplace
    rw [hplace] at h
    split at hstep <;> cases hstep
    · cases hplace'
    · exact h rfl
  · rename_i hplace
    rw [hplace] at h
    split at hstep <;> cases hstep <;> exact h rfl
  · rename_i hplace
    rw [hplace] at h
    repeat' split at hstep
    all_goals cases hstep
    all_goals exact h rfl
  · rename_i hplace
    rw [hplace] at h
    repeat' split at hstep
    all_goals cases hstep
    all_goals exact h rfl
  · rename_i hplace
    rw [hplace] at h
    repeat' split at hstep
    all_goals cases hstep
    all_goals exact h rfl
  · rename_i hplace
    rw [hplace] at h
    split at hstep <;> cases hstep
    · cases hplace'
    · exact h rfl
  · cases hstep

/-- What `daemonize` is for: with `-d`, the process that makes the socket does not lead its session,
though `setsid` has made it do so in between. -/
theorem not_leader_of_daemon (hdaemon : config.isDaemon = true)
    (hrun : (machine config).Run (.init linked leader) tr s) (hplace : detached s.place = true) :
    s.leader = false := by
  have hall : detached s.place = true → s.leader = false := by
    apply Run.invariant (I := fun _ s ↦ detached s.place = true → s.leader = false)
      (fun h ↦ by cases h) _ hrun
    rintro tr s e s' r hrun h hstep
    obtain ⟨l, hinv⟩ := inv_of_run hrun
    rcases Effect.of_ok hinv hstep with ⟨hbeside, -⟩ | ⟨signal, -, rfl, -⟩ | ⟨signo, -, rfl, -⟩ |
      ⟨ret, -, hstartup, -⟩ | ⟨answer, -, hserves, -⟩
    · rwa [hbeside.place, hbeside.leader]
    · intro hplace
      cases hplace
    · intro hplace
      cases hplace
    · exact startupStep_leader hdaemon h hstartup
    · intro _
      cases hserves with
      | thread hplace _ => exact h (by rw [hplace]; rfl)
      | swept hplace _ => exact h (by rw [hplace]; rfl)
      | joined hplace _ => exact h (by rw [hplace]; rfl)
      | closed hplace _ => exact h (by rw [hplace]; rfl)
      | unlinked hplace => exact h (by rw [hplace]; rfl)
      | exited hplace => exact h (by rw [hplace]; rfl)
  exact hall hplace

/-! ## How the process ends -/

/-- The process will exit with success, or has done so after `cleanup`. -/
def Succeeds (s : State) : Prop :=
  match s.place with
  | .running status => status = .success
  | .joinTimestamp status => status = .success
  | .closeSocket status => status = .success
  | .unlink status => status = .success
  | .exit status => status = .success
  | .exited status => s.threads.pc = .returned ∧ status = .success
  | _ => False

def Serving (s : State) : Prop := s.place = .running .success

theorem Serving.succeeds (h : Serving s) : Succeeds s := by
  rw [Succeeds, show s.place = _ from h]

theorem Beside.succeeds_iff (h : Beside s s') : Succeeds s' ↔ Succeeds s ∨ Serving s' := by
  have hsame : Succeeds s' ↔ Succeeds s := by rw [Succeeds, Succeeds, h.place, h.pc]
  exact hsame.trans ⟨.inl, fun hor ↦ hor.elim id fun hserving ↦ hsame.mp hserving.succeeds⟩

theorem not_succeeds_of_startup (h : s.place.startup = true) : ¬Succeeds s := by
  rw [Succeeds]
  rcases startup_cases h with (⟨signo, hplace⟩ | hplace | hplace | hplace | hplace | hplace) |
    (hplace | ⟨n, hplace⟩ | hplace | hplace)
  all_goals
    rw [hplace]
    exact id

private theorem not_succeeds_of_exited (hplace : s.place = .exited status)
    (hpc : s.threads.pc = .loopTest) : ¬Succeeds s := by
  rw [Succeeds, hplace, hpc]
  exact fun h ↦ absurd h.1 (by simp)

private theorem Leads.succeeds_iff (h : Leads s s') (hstartup : s.place.startup = true)
    (hunused : Unused s) : Succeeds s' ↔ Succeeds s ∨ Serving s' := by
  have hs := not_succeeds_of_startup hstartup
  cases h with
  | startup hplace _ hthreads _ =>
    have hs' : ¬Succeeds s' := by
      rcases hplace with hstartup' | ⟨status, hexited⟩
      · exact not_succeeds_of_startup hstartup'
      · exact not_succeeds_of_exited hexited (by rw [hthreads, hunused.pc])
    exact iff_of_false hs' (not_or.mpr ⟨hs, mt Serving.succeeds hs'⟩)
  | serving hplace _ _ => exact iff_of_true (Serving.succeeds hplace) (.inr hplace)
  | cleanup hplace _ _ =>
    have hs' : ¬Succeeds s' := by
      rw [Succeeds, hplace]
      exact nofun
    exact iff_of_false hs' (not_or.mpr ⟨hs, mt Serving.succeeds hs'⟩)

private theorem Serves.succeeds_iff (h : Serves config s answer s') (hinv : Inv config s l lost) :
    Succeeds s' ↔ Succeeds s ∨ Serving s' := by
  have hkeep : (Succeeds s' ↔ Succeeds s) → (Succeeds s' ↔ Succeeds s ∨ Serving s') :=
    fun hiff ↦ hiff.trans ⟨.inl, fun hor ↦ hor.elim id fun hserving ↦ hiff.mp hserving.succeeds⟩
  apply hkeep
  cases h with
  | thread hplace _ => simp [Succeeds, hplace]
  | swept hplace _ => cases htimestamp : s.timestamp <;> simp [Succeeds, hplace]
  | joined hplace _ => simp [Succeeds, hplace]
  | closed hplace _ => cases hconfig : config.useAesdCharDevice <;> simp [Succeeds, hplace]
  | unlinked hplace => simp [Succeeds, hplace]
  | exited hplace =>
    have hat := hinv.position
    rw [AtPlace, hplace] at hat
    simp [Succeeds, hplace, hat.1.pc]

/-- A thread has ended the process. -/
def Crashed (s : State) : Prop := ∃ signal, s.place = .exited (.crashed signal)

private theorem succeeds_step (hinv : Inv config s l lost)
    (hstep : s.step config e = .ok (s', r)) (hcrashed : ¬Crashed s') :
    Succeeds s' ↔ Succeeds s ∨ Serving s' := by
  rcases Effect.of_ok hinv hstep with ⟨hbeside, -⟩ | ⟨signal, -, rfl, -⟩ |
    ⟨signo, hstartup, rfl, -⟩ | ⟨ret, hstartup, -, hleads, -⟩ | ⟨answer, -, hserves, -⟩
  · exact hbeside.succeeds_iff
  · exact absurd ⟨signal, rfl⟩ hcrashed
  · have hs := not_succeeds_of_startup hstartup
    have hs' := not_succeeds_of_exited (s := s.exit (.killed signo)) rfl
      (unused_of_startup hinv.position hstartup).pc
    exact iff_of_false hs' (not_or.mpr ⟨hs, mt Serving.succeeds hs'⟩)
  · exact hleads.succeeds_iff hstartup (unused_of_startup hinv.position hstartup)
  · exact hserves.succeeds_iff hinv

theorem succeeds_iff_of_run (hrun : (machine config).Run (.init linked leader) tr s)
    (hcrashed : ¬Crashed s) : Succeeds s ↔ ∃ t ∈ states tr s, Serving t := by
  suffices hall : ¬Crashed s → (Succeeds s ↔ ∃ t ∈ states tr s, Serving t) from hall hcrashed
  apply Run.invariant (I := fun tr s ↦ ¬Crashed s → (Succeeds s ↔ ∃ t ∈ states tr s, Serving t))
    ?_ ?_ hrun
  · refine fun _ ↦ iff_of_false id ?_
    rintro ⟨t, ht, hserving⟩
    obtain rfl : t = .init linked leader := by simpa [states] using ht
    cases hserving
  · rintro tr s e s' r hrun hiff hstep hcrashed
    obtain ⟨l, hinv⟩ := inv_of_run hrun
    have halive : ¬Crashed s := by
      rintro ⟨signal, hplace⟩
      exact not_exited_of_ok hstep hplace
    rw [succeeds_step hinv hstep hcrashed, hiff halive]
    simp [states, or_and_right, exists_or, or_assoc]

/-- **How a process exits that has called `cleanup`.** The list is empty, the socket is closed, the
timestamp thread is joined if it was created, and so are the connection threads, when `malloc`
served every `add_node`. The process exits with success exactly when its accept loop had begun; it
was asked for the exit then, and exits with failure otherwise. A thread that was not joined can
still end the process by a signal before it exits. -/
theorem exited_after_cleanup (hrun : (machine config).Run (.init linked leader) tr s)
    (hexit : s.place = .exited status) (hpc : s.threads.pc = .returned)
    (hstatus : ∀ signal, status ≠ .crashed signal) :
    s.threads.head = none ∧ s.socket = .closed ∧ NoTimestamp s ∧
      ((∀ m ∈ tr, m.pre.loses m.event = []) → ∀ i, s.threads.threads i = none) ∧
      (status = .success ↔ ∃ m ∈ tr, Serving m.pre) ∧
      (status = .success ∧ s.threads.exitRequested = true ∨ status = .failure) := by
  obtain ⟨l, hthreads, hat⟩ := inv_of_run hrun
  rw [AtPlace, hexit] at hat
  rcases hat with ⟨signal, hcrashed⟩ | hunused | ⟨hswept, hsocket, htimestamp⟩
  · exact absurd hcrashed (hstatus signal)
  · rw [hunused.pc] at hpc
    cases hpc
  have hcrashed : ¬Crashed s := by
    rintro ⟨signal, hplace⟩
    exact hstatus signal (Place.exited.inj (hexit.symm.trans hplace))
  obtain ⟨hlinked, hposition⟩ := hthreads
  rw [hpc] at hlinked hposition
  obtain rfl : l = [] := hposition
  refine ⟨hlinked.chain, hsocket, htimestamp, fun hloses i ↦ ?_, ?_, hswept.asked.symm⟩
  · by_contra hi
    have hmem := hlinked.owns.mem_ids i hi
    rw [lostBy, List.flatMap_eq_nil_iff.mpr hloses] at hmem
    cases hmem
  · have hiff := succeeds_iff_of_run hrun hcrashed
    rw [Succeeds, hexit] at hiff
    rw [show status = .success ↔ _ from ⟨fun h ↦ hiff.mp ⟨hpc, h⟩, fun h ↦ (hiff.mpr h).2⟩]
    have hnot : ¬Serving s := fun hserving ↦ absurd (hexit.symm.trans hserving) (by simp)
    simp [states, or_and_right, exists_or, hnot]

/-- The server of `oneClient` exits with success. -/
theorem exited_after_cleanup_of_one : ∃ tr s,
    (machine ⟨false, []⟩).Run (.init true false) tr s ∧ s.place = .exited .success ∧
      s.threads.head = none ∧ s.socket = .closed ∧ s.timestamp = some .joined ∧
        ∀ i, s.threads.threads i = none := by
  obtain ⟨tr, s, hrun, htest⟩ := exists_run_of_exec (machine ⟨false, []⟩) (.init true false)
    oneClient (fun tr s ↦ decide (s.place = .exited .success ∧ s.threads.pc = .returned ∧
      s.timestamp = some .joined ∧ ∀ m ∈ tr, m.pre.loses m.event = [])) (by decide +kernel)
  obtain ⟨hplace, hpc, htimestamp, hloses⟩ := of_decide_eq_true htest
  obtain ⟨hhead, hsocket, -, hthreads, -⟩ := exited_after_cleanup hrun hplace hpc (by simp)
  exact ⟨tr, s, hrun, hplace, hhead, hsocket, htimestamp, hthreads hloses⟩

/-! ## The data file -/

/-- The data file is opened when `cleanup` has removed it. -/
def OpensLate (m : LifecycleMove) : Prop :=
  (∃ status, m.pre.place = .exit status) ∧ m.ret = .opened

/-- Only a thread opens the data file. -/
private theorem opener (hstep : s.step config e = .ok (s', .opened)) :
    (∃ i, e = .connector i ∧ s.threads.threads i ≠ none) ∨ ¬NoTimestamp s := by
  cases e with
  | signal signo =>
    rw [State.step] at hstep
    cases hdeliver : s.deliver signo <;> rw [hdeliver] at hstep <;> cases hstep
  | main ret answer =>
    rw [State.step] at hstep
    cases hmain : s.mainStep config ret answer <;> rw [hmain] at hstep <;> cases hstep
  | fatal i signal =>
    rw [State.step] at hstep
    cases hfatal : s.fatalStep i signal <;> rw [hfatal] at hstep <;> cases hstep
  | connector i =>
    refine .inl ⟨i, rfl, fun hnone ↦ ?_⟩
    obtain ⟨hconnector, -⟩ := connectorStep_cases hstep
    rw [Threads.connectorStep, hnone] at hconnector
    cases hconnector
  | timestamp =>
    right
    obtain ⟨⟨phase, _, hphase, hne, -⟩, -⟩ := timestampStep_cases hstep
    rw [NoTimestamp, hphase]
    simp [hne]

private theorem not_opened_of_unused (hunused : Unused s)
    (hstep : s.step config e = .ok (s', r)) : r ≠ .opened := by
  rintro rfl
  rcases opener hstep with ⟨i, -, hne⟩ | htimestamp
  · exact hne (hunused.threads i)
  · exact htimestamp (.inl hunused.timestamp)

/-- **A file that is there at the exit was opened by a lost thread.** -/
private theorem lost_of_opensLate (hrun : (machine config).Run (.init linked leader) tr s) :
    ∀ m ∈ tr, OpensLate m → ∃ d ∈ lostBy tr, m.event = .connector d.threadId := by
  apply Run.invariant (I := fun tr _ ↦ ∀ m ∈ tr, OpensLate m → ∃ d ∈ lostBy tr,
    m.event = .connector d.threadId) (fun _ hm ↦ absurd hm List.not_mem_nil) _ hrun
  rintro tr s e s' r hrun hall hstep
  rw [List.forall_mem_append, List.forall_mem_singleton, lostBy, List.flatMap_append]
  constructor
  · intro m hm hlate
    obtain ⟨d, hd, he⟩ := hall m hm hlate
    exact ⟨d, List.mem_append_left _ hd, he⟩
  rintro ⟨⟨status, hplace⟩, hret⟩
  obtain ⟨l, hthreads, hat⟩ := inv_of_run hrun
  dsimp only at hplace hret
  subst hret
  rw [AtPlace, hplace] at hat
  obtain ⟨hswept, -, htimestamp⟩ := hat
  rcases opener hstep with ⟨i, rfl, hi⟩ | hjoin
  swap
  · exact absurd htimestamp hjoin
  obtain ⟨hlinked, hposition⟩ := hthreads
  rw [hswept.pc] at hlinked hposition
  obtain rfl : l = [] := hposition
  obtain ⟨d, hd, rfl⟩ := List.mem_map.mp (hlinked.owns.mem_ids i hi)
  exact ⟨d, List.mem_append_left _ hd, rfl⟩

/-- What has become of the data file, which was there at the start or not. -/
def FileAt (linked : Bool) (tr : List LifecycleMove) (s : State) : Prop :=
  match s.place with
  | .running _ => ∀ m ∈ tr, ¬OpensLate m
  | .joinTimestamp _ => ∀ m ∈ tr, ¬OpensLate m
  | .closeSocket _ => ∀ m ∈ tr, ¬OpensLate m
  | .unlink _ => ∀ m ∈ tr, ¬OpensLate m
  | .exit _ => s.linked = true ↔ ∃ m ∈ tr, OpensLate m
  | .exited status =>
    (∃ signal, status = .crashed signal) ∨
      s.threads.pc = .loopTest ∧ s.linked = linked ∧ (∀ m ∈ tr, ¬OpensLate m) ∨
      s.threads.pc = .returned ∧ (s.linked = true ↔ ∃ m ∈ tr, OpensLate m)
  | _ => s.linked = linked ∧ ∀ m ∈ tr, ¬OpensLate m

private theorem fileAt_of_startup (h : s.place.startup = true) :
    FileAt linked tr s ↔ s.linked = linked ∧ ∀ m ∈ tr, ¬OpensLate m := by
  rw [FileAt]
  rcases startup_cases h with (⟨signo, hplace⟩ | hplace | hplace | hplace | hplace | hplace) |
    (hplace | ⟨n, hplace⟩ | hplace | hplace)
  all_goals rw [hplace]

private theorem not_opensLate (h : ∀ m ∈ tr, ¬OpensLate m)
    (hplace : ∀ status, s.place ≠ .exit status) :
    ∀ m ∈ tr ++ [⟨s, e, r⟩], ¬OpensLate m := by
  rw [List.forall_mem_append, List.forall_mem_singleton]
  exact ⟨h, fun ⟨⟨status, hexit⟩, _⟩ ↦ hplace status hexit⟩

private theorem exit_ne_of_startup (h : s.place.startup = true) (status : ExitStatus) :
    s.place ≠ .exit status := by
  intro hplace
  rw [hplace] at h
  cases h

private theorem FileAt.beside (h : FileAt linked tr s) (hat : AtPlace config s)
    (hstep : s.step config e = .ok (s', r)) (hbeside : Beside s s') (hopens : Opens s s' r) :
    FileAt linked (tr ++ [⟨s, e, r⟩]) s' := by
  by_cases hstartup : s.place.startup = true
  · rw [fileAt_of_startup hstartup] at h
    rw [fileAt_of_startup (hbeside.place ▸ hstartup)]
    have hquiet := not_opened_of_unused (unused_of_startup hat hstartup) hstep
    refine ⟨?_, not_opensLate h.2 (exit_ne_of_startup hstartup)⟩
    rcases hopens with ⟨hopened, -⟩ | ⟨-, hlinked⟩
    · exact absurd hopened hquiet
    · exact hlinked.trans h.1
  rw [FileAt] at h ⊢
  rw [hbeside.place]
  cases hplace : s.place with
  | running status =>
    rw [hplace] at h
    exact not_opensLate h (by simp [hplace])
  | joinTimestamp status =>
    rw [hplace] at h
    exact not_opensLate h (by simp [hplace])
  | closeSocket status =>
    rw [hplace] at h
    exact not_opensLate h (by simp [hplace])
  | unlink status =>
    rw [hplace] at h
    exact not_opensLate h (by simp [hplace])
  | exit status =>
    rw [hplace] at h
    dsimp only at h ⊢
    rcases hopens with ⟨hopened, hlinked⟩ | ⟨hquiet, hlinked⟩
    · refine iff_of_true hlinked ⟨⟨s, e, r⟩, List.mem_append_right _ List.mem_cons_self, ?_⟩
      exact ⟨⟨status, hplace⟩, hopened⟩
    · have hnot : ¬OpensLate ⟨s, e, r⟩ := fun hlate ↦ absurd (hquiet.symm.trans hlate.2) (by simp)
      rw [hlinked, h]
      simp [or_and_right, exists_or, hnot]
  | exited status => exact absurd hplace (not_exited_of_ok hstep)
  | _ => exact absurd (by rw [hplace]; rfl) hstartup

private theorem FileAt.serves (hconfig : config.useAesdCharDevice = false)
    (h : FileAt linked tr s) (hat : AtPlace config s) (hserves : Serves config s answer s') :
    FileAt linked (tr ++ [⟨s, e, .quiet⟩]) s' := by
  rw [FileAt] at h
  cases hserves with
  | thread hplace _ =>
    rw [hplace] at h
    have hlate := @not_opensLate _ s e .quiet h (by simp [hplace])
    simpa only [FileAt, hplace] using hlate
  | swept hplace _ =>
    rw [hplace] at h
    have hlate := @not_opensLate _ s e .quiet h (by simp [hplace])
    rw [FileAt]
    cases s.timestamp <;> exact hlate
  | joined hplace _ =>
    rw [hplace] at h
    exact @not_opensLate _ s e .quiet h (by simp [hplace])
  | closed hplace _ =>
    rw [hplace] at h
    have hlate := @not_opensLate _ s e .quiet h (by simp [hplace])
    rwa [FileAt, hconfig]
  | unlinked hplace =>
    rw [hplace] at h
    have hlate := @not_opensLate _ s e .quiet h (by simp [hplace])
    rw [FileAt]
    exact iff_of_false nofun fun ⟨m, hm, hm'⟩ ↦ hlate m hm hm'
  | exited hplace =>
    rw [hplace] at h
    rw [AtPlace, hplace] at hat
    refine .inr (.inr ⟨hat.1.pc, h.trans ?_⟩)
    have hquiet : ¬OpensLate ⟨s, e, .quiet⟩ := fun hlate ↦ absurd hlate.2 (by simp)
    simp [or_and_right, exists_or, hquiet]

private theorem fileAt_of_run (hconfig : config.useAesdCharDevice = false)
    (hrun : (machine config).Run (.init linked leader) tr s) : FileAt linked tr s := by
  have hinit : FileAt linked [] (.init linked leader) :=
    ⟨rfl, fun _ hm ↦ absurd hm List.not_mem_nil⟩
  apply Run.invariant (I := FileAt linked) hinit _ hrun
  rintro tr s e s' r hrun h hstep
  obtain ⟨l, hinv⟩ := inv_of_run hrun
  rcases Effect.of_ok hinv hstep with ⟨hbeside, hopens⟩ | ⟨signal, -, rfl, -⟩ |
    ⟨signo, hstartup, rfl, -⟩ | ⟨ret, hstartup, -, hleads, rfl⟩ | ⟨answer, -, hserves, rfl⟩
  · exact h.beside hinv.position hstep hbeside hopens
  · exact .inl ⟨signal, rfl⟩
  · rw [fileAt_of_startup hstartup] at h
    refine .inr (.inl ?_)
    exact ⟨(unused_of_startup hinv.position hstartup).pc, h.1,
      not_opensLate h.2 (exit_ne_of_startup hstartup)⟩
  · rw [fileAt_of_startup hstartup] at h
    have hlate := @not_opensLate _ s e .quiet h.2 (exit_ne_of_startup hstartup)
    cases hleads with
    | startup hplace _ hthreads hlinked =>
      rcases hplace with hstartup' | ⟨status, hexited⟩
      · rw [fileAt_of_startup hstartup']
        exact ⟨hlinked.trans h.1, hlate⟩
      · rw [FileAt, hexited]
        refine .inr (.inl ⟨?_, hlinked.trans h.1, hlate⟩)
        rw [hthreads, (unused_of_startup hinv.position hstartup).pc]
    | serving hplace _ _ =>
      rw [FileAt, hplace]
      exact hlate
    | cleanup hplace _ _ =>
      rw [FileAt, hplace]
      exact hlate
  · exact h.serves hconfig hinv.position hserves

/-- **What is left of the data file.** Without the character device, a process that no thread has
ended by a signal leaves a data file exactly when there was one and it exited before `cleanup` was
called, or when a thread opened it after `cleanup` had removed it; the latter are threads that were
lost. -/
theorem data_file_left_iff (hconfig : config.useAesdCharDevice = false)
    (hrun : (machine config).Run (.init linked leader) tr s) (hexit : s.place = .exited status)
    (hstatus : ∀ signal, status ≠ .crashed signal) :
    (s.linked = true ↔
      (linked = true ∧ s.threads.pc ≠ .returned) ∨ ∃ m ∈ tr, OpensLate m) ∧
    ∀ m ∈ tr, OpensLate m → ∃ d ∈ lostBy tr, m.event = .connector d.threadId := by
  refine ⟨?_, lost_of_opensLate hrun⟩
  have hfile := fileAt_of_run hconfig hrun
  rw [FileAt, hexit] at hfile
  rcases hfile with ⟨signal, hcrashed⟩ | ⟨hpc, hlinked, hlate⟩ | ⟨hpc, hiff⟩
  · exact absurd hcrashed (hstatus signal)
  · rw [hlinked, hpc]
    have hnone : ¬∃ m ∈ tr, OpensLate m := fun ⟨m, hm, hm'⟩ ↦ hlate m hm hm'
    simp [hnone]
  · rw [hiff, hpc]
    simp

/-- The server of `oneClient` loses no thread, and removes its data file. -/
theorem data_file_left_of_one : ∃ tr s,
    (machine ⟨false, []⟩).Run (.init true false) tr s ∧ s.place = .exited .success ∧
      s.threads.pc = .returned ∧ s.linked = false := by
  obtain ⟨tr, s, hrun, htest⟩ := exists_run_of_exec (machine ⟨false, []⟩) (.init true false)
    oneClient (fun tr s ↦ decide (s.place = .exited .success ∧ s.threads.pc = .returned ∧
      lostBy tr = [])) (by decide +kernel)
  obtain ⟨hplace, hpc, hlost⟩ := of_decide_eq_true htest
  refine ⟨tr, s, hrun, hplace, hpc, eq_false_of_ne_true fun hlinked ↦ ?_⟩
  obtain ⟨hiff, hlate⟩ := data_file_left_iff rfl hrun hplace (by simp)
  rcases hiff.mp hlinked with ⟨-, hne⟩ | ⟨m, hm, hm'⟩
  · exact hne hpc
  · obtain ⟨d, hd, -⟩ := hlate m hm hm'
    rw [hlost] at hd
    cases hd

end Run

end Aesd.Lifecycle
