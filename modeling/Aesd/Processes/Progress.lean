import Mathlib.Data.List.Nodup
import Aesd.Foundation.Ranks
import Aesd.Processes.Threading

/-!
# Threads that wait come to their end

A thread that waits for its mutex waits for another thread, which does not wait while it has the
mutex, or for the caller. So when the caller has no mutex and no `pthread_mutex_unlock` has failed,
some thread can always go on until all have returned (`threads_finish`), in any order: every thread
has at most five steps to take.

## Why `pthread_mutex_unlock` must not fail

A thread whose `pthread_mutex_unlock` fails returns with its mutex, and a thread that waits for this
mutex waits for ever. `State.Released` is what holds otherwise: a mutex that a thread has is one
that it is going to let go of. It is kept by every step of a thread whose calls do not fail
(`Event.GoesOn`), and these are the steps that the result is about; a call that fails later on is
as bad as one that has failed before.
-/

namespace Aesd.Threading

open Function (update update_self update_of_ne)

/-- How many steps a thread has still to take. -/
def Place.cost : Place → ℕ
  | .start => 5
  | .lock _ => 4
  | .inside _ => 3
  | .unlock _ => 2
  | .record _ => 1
  | .returned => 0

/-- How many steps the thread with an identifier has still to take. -/
def threadCost (thread : Option Thread) : ℕ := thread.elim 0 fun thread ↦ thread.place.cost

theorem threadCost_le (thread : Option Thread) : threadCost thread ≤ 5 := by
  rcases thread with _ | ⟨param, place⟩
  · exact Nat.zero_le 5
  · cases place <;> simp [threadCost, Place.cost]

def State.Finished (s : State) : Prop :=
  ∀ i thread, s.threads i = some thread → thread.place = .returned

/-- A mutex that a thread has is one that it is going to let go of. -/
def State.Released (s : State) : Prop :=
  ∀ mutex i, s.owner mutex = some (.thread i) →
    ∃ thread, s.threads i = some thread ∧ thread.place.mutex = some mutex

section Steps

variable {s s' : State} {i : ℕ} {thread : Thread} {left : UInt32} {rc : Int32} {r : Observed}
  {e : Event}

/-- What a step of a thread does to the mutexes. -/
inductive OwnerEffect (s : State) (i : ℕ) (place place' : Place) (owner : ℕ → Option Owner) : Prop
  | kept (h : place'.mutex = place.mutex) (howner : owner = s.owner)
  | taken (mutex : ℕ) (h : place.mutex = none) (h' : place'.mutex = some mutex)
      (howner : owner = update s.owner mutex (some (.thread i)))
  | released (mutex : ℕ) (h : place.mutex = some mutex) (h' : place'.mutex = none)
      (howner : owner = update s.owner mutex none)

/-- **A step of a thread** brings it nearer to its end. Its mutex is kept, taken or released, unless
`pthread_mutex_unlock` fails. -/
theorem threadfunc_spec (h : s.threadfunc i thread left rc = .ok (s', r)) :
    ∃ place, s'.threads = update s.threads i (some { thread with place }) ∧
      place.cost < thread.place.cost ∧
      (rc = 0 ∨ r ≠ .failed unlockFailed rc → OwnerEffect s i thread.place place s'.owner) := by
  rw [State.threadfunc] at h
  split at h
  · rename_i hplace
    obtain ⟨args, -, h⟩ := exists_of_bind_eq_ok h
    obtain ⟨rfl, rfl⟩ := Prod.mk.inj (Except.ok.inj h)
    rw [hplace]
    exact ⟨_, rfl, Nat.lt_succ_self _, fun _ ↦ .kept rfl rfl⟩
  · rename_i mutex hplace
    rw [hplace]
    split at h
    · obtain ⟨rfl, rfl⟩ := Prod.mk.inj (Except.ok.inj h)
      exact ⟨_, rfl, by simp [Place.cost], fun _ ↦ .kept rfl rfl⟩
    split at h
    · obtain ⟨rfl, rfl⟩ := Prod.mk.inj (Except.ok.inj h)
      exact ⟨_, rfl, Nat.lt_succ_self _, fun _ ↦ .taken mutex rfl rfl rfl⟩
    · exact absurd h (by simp)
  · rename_i mutex hplace
    obtain ⟨args, -, h⟩ := exists_of_bind_eq_ok h
    obtain ⟨rfl, rfl⟩ := Prod.mk.inj (Except.ok.inj h)
    rw [hplace]
    exact ⟨_, rfl, Nat.lt_succ_self _, fun _ ↦ .kept rfl rfl⟩
  · rename_i mutex hplace
    rw [hplace]
    split at h
    · rename_i hrc
      obtain ⟨rfl, rfl⟩ := Prod.mk.inj (Except.ok.inj h)
      exact ⟨_, rfl, by simp [Place.cost], fun hor ↦ absurd rfl (hor.resolve_left hrc)⟩
    split at h
    · obtain ⟨rfl, rfl⟩ := Prod.mk.inj (Except.ok.inj h)
      exact ⟨_, rfl, Nat.lt_succ_self _, fun _ ↦ .released mutex rfl rfl rfl⟩
    · exact absurd h (by simp)
  · rename_i flag hplace
    obtain ⟨args, -, h⟩ := exists_of_bind_eq_ok h
    obtain ⟨heap, -, h⟩ := exists_of_bind_eq_ok h
    obtain ⟨rfl, rfl⟩ := Prod.mk.inj (Except.ok.inj h)
    rw [hplace]
    exact ⟨_, rfl, Nat.lt_succ_self _, fun _ ↦ .kept rfl rfl⟩
  · exact absurd h (by simp)

section Effect

variable {place place' : Place} {owner : ℕ → Option Owner} {mutex : ℕ}

private theorem OwnerEffect.of_other (h : OwnerEffect s i place place' owner) {o : Owner}
    (ho : o ≠ .thread i) (howner : owner mutex = some o) : s.owner mutex = some o := by
  cases h with
  | kept _ hsame => rwa [hsame] at howner
  | taken m _ _ hsame =>
    rw [hsame] at howner
    by_cases hm : mutex = m
    · rw [hm, update_self] at howner
      exact absurd (Option.some.inj howner).symm ho
    · rwa [update_of_ne hm] at howner
  | released m _ _ hsame =>
    rw [hsame] at howner
    by_cases hm : mutex = m
    · rw [hm, update_self] at howner
      exact absurd howner (by simp)
    · rwa [update_of_ne hm] at howner

private theorem OwnerEffect.of_self (h : OwnerEffect s i place place' owner)
    (hbefore : ∀ mutex, s.owner mutex = some (.thread i) → place.mutex = some mutex)
    (howner : owner mutex = some (.thread i)) : place'.mutex = some mutex := by
  cases h with
  | kept hplace hsame =>
    rw [hsame] at howner
    exact hplace.trans (hbefore mutex howner)
  | taken m hplace hplace' hsame =>
    rw [hsame] at howner
    by_cases hm : mutex = m
    · rw [hm]
      exact hplace'
    · rw [update_of_ne hm] at howner
      rw [hbefore mutex howner] at hplace
      exact absurd hplace (by simp)
  | released m hplace _ hsame =>
    rw [hsame] at howner
    by_cases hm : mutex = m
    · rw [hm, update_self] at howner
      exact absurd howner (by simp)
    · rw [update_of_ne hm] at howner
      rw [hbefore mutex howner] at hplace
      exact absurd (Option.some.inj hplace) hm

end Effect

private theorem State.Released.of_others (h : s.Released) {t : Option Thread}
    (hthreads : s'.threads = update s.threads i t)
    (hothers : ∀ mutex j, j ≠ i → s'.owner mutex = some (.thread j) →
      s.owner mutex = some (.thread j))
    (hself : ∀ mutex, s'.owner mutex = some (.thread i) →
      ∃ thread, t = some thread ∧ thread.place.mutex = some mutex) : s'.Released := by
  intro mutex j howner
  rw [hthreads]
  by_cases hji : j = i
  · subst hji
    rw [update_self]
    exact hself mutex howner
  · rw [update_of_ne hji]
    exact h mutex j (hothers mutex j hji howner)

private theorem State.Released.threadfunc (h : s.Released) (ht : s.threads i = some thread)
    (hstep : s.threadfunc i thread left rc = .ok (s', r))
    (hne : rc = 0 ∨ r ≠ .failed unlockFailed rc) : s'.Released := by
  obtain ⟨place, hthreads, -, heffect⟩ := threadfunc_spec hstep
  have hbefore : ∀ mutex, s.owner mutex = some (.thread i) → thread.place.mutex = some mutex := by
    intro mutex howner
    obtain ⟨t, hti, hmutex⟩ := h mutex i howner
    rw [ht] at hti
    rwa [Option.some.inj hti]
  apply h.of_others hthreads
  · intro mutex j hji howner
    exact (heffect hne).of_other (by simpa using hji) howner
  · intro mutex howner
    exact ⟨_, rfl, (heffect hne).of_self hbefore howner⟩

/-- What a step can do to the threads and the mutexes. -/
inductive StepEffect (s : State) (e : Event) (s' : State) (r : Observed) : Prop
  | refused (heap : Heap ThreadData) (h : s' = { s with heap })
  | started (i b : ℕ) (heap : Heap ThreadData) (hi : s.threads i = none)
      (h : s' = ⟨heap, s.owner, update s.threads i (some ⟨b, .start⟩)⟩)
  | ran (i : ℕ) (left : UInt32) (rc : Int32) (thread : Thread) (he : e = .run i left rc)
      (ht : s.threads i = some thread) (h : s.threadfunc i thread left rc = .ok (s', r))
  | joined (i : ℕ) (thread : Thread) (heap : Heap ThreadData) (ht : s.threads i = some thread)
      (hplace : thread.place = .returned) (h : s' = ⟨heap, s.owner, update s.threads i none⟩)
  | caller (mutex : ℕ) (owner : Option Owner) (hnot : ∀ i, owner ≠ some (.thread i))
      (h : s' = { s with owner := update s.owner mutex owner })

theorem StepEffect.of_ok (hstep : s.step e = .ok (s', r)) : StepEffect s e s' r := by
  cases e with
  | start call =>
    rw [State.step, State.startThreadObtainingMutex] at hstep
    split at hstep
    swap
    · exact .refused s.heap (Prod.mk.inj (Except.ok.inj hstep)).1.symm
    dsimp only at hstep
    split at hstep
    · obtain ⟨heap, -, hstep⟩ := exists_of_bind_eq_ok hstep
      exact .refused heap (Prod.mk.inj (Except.ok.inj hstep)).1.symm
    split at hstep
    · rename_i i _ hi
      exact .started i _ _ hi (Prod.mk.inj (Except.ok.inj hstep)).1.symm
    · exact absurd hstep (by simp)
  | run i left rc =>
    rw [State.step] at hstep
    split at hstep
    · exact absurd hstep (by simp)
    · rename_i thread ht
      exact .ran i left rc thread rfl ht hstep
  | join i =>
    rw [State.step, State.join] at hstep
    split at hstep
    · exact absurd hstep (by simp)
    rename_i thread ht
    split at hstep
    swap
    · exact absurd hstep (by simp)
    rename_i hplace
    obtain ⟨args, -, hstep⟩ := exists_of_bind_eq_ok hstep
    obtain ⟨heap, -, hstep⟩ := exists_of_bind_eq_ok hstep
    exact .joined i thread heap ht hplace (Prod.mk.inj (Except.ok.inj hstep)).1.symm
  | lock mutex =>
    rw [State.step] at hstep
    split at hstep
    · exact .caller mutex _ (by simp) (Prod.mk.inj (Except.ok.inj hstep)).1.symm
    · exact absurd hstep (by simp)
  | unlock mutex =>
    rw [State.step] at hstep
    split at hstep
    · exact .caller mutex _ (by simp) (Prod.mk.inj (Except.ok.inj hstep)).1.symm
    · exact absurd hstep (by simp)

theorem State.Released.step (h : s.Released) (hstep : s.step e = .ok (s', r))
    (hne : ∀ rc, r ≠ .failed unlockFailed rc) : s'.Released := by
  cases StepEffect.of_ok hstep with
  | refused heap h' =>
    subst h'
    exact h
  | started i b heap hi h' =>
    subst h'
    refine h.of_others rfl (fun _ _ _ howner ↦ howner) fun mutex howner ↦ ?_
    obtain ⟨t, hti, -⟩ := h mutex i howner
    rw [hi] at hti
    exact absurd hti (by simp)
  | ran i left rc thread he ht hrun => exact h.threadfunc ht hrun (.inr (hne rc))
  | joined i thread heap ht hplace h' =>
    subst h'
    refine h.of_others rfl (fun _ _ _ howner ↦ howner) fun mutex howner ↦ ?_
    obtain ⟨t, hti, hmutex⟩ := h mutex i howner
    rw [ht] at hti
    rw [← Option.some.inj hti, hplace] at hmutex
    exact absurd hmutex (by simp [Place.mutex])
  | caller mutex owner hnot h' =>
    subst h'
    intro mutex' i howner
    dsimp only at howner ⊢
    by_cases hm : mutex' = mutex
    · rw [hm, update_self] at howner
      exact absurd howner (hnot i)
    · rw [update_of_ne hm] at howner
      exact h mutex' i howner

end Steps

/-! ## The identifiers in use -/

/-- The threads that were created and not joined. -/
def State.Ids (s : State) (l : List ℕ) : Prop := l.Nodup ∧ ∀ i, i ∈ l ↔ s.threads i ≠ none

section Ids

variable {s s' : State} {l : List ℕ} {e : Event} {r : Observed}

private theorem State.Ids.update (h : s.Ids l) (i : ℕ) (t : Option Thread)
    (hthreads : s'.threads = update s.threads i t) : ∃ l', s'.Ids l' := by
  obtain ⟨hnodup, hmem⟩ := h
  have hothers : ∀ j, j ≠ i → (j ∈ l ↔ s'.threads j ≠ none) := by
    intro j hji
    rw [hthreads, update_of_ne hji, hmem]
  have hself : s'.threads i = t := by
    rw [hthreads, update_self]
  rcases t with _ | t
  · refine ⟨l.erase i, hnodup.erase i, fun j ↦ ?_⟩
    rw [hnodup.mem_erase_iff]
    by_cases hji : j = i
    · rw [hji, hself]
      exact iff_of_false (fun hand ↦ hand.1 rfl) (fun hne ↦ hne rfl)
    · rw [hothers j hji]
      exact and_iff_right hji
  · refine ⟨l.insert i, List.Nodup.insert hnodup, fun j ↦ ?_⟩
    rw [List.mem_insert_iff]
    by_cases hji : j = i
    · rw [hji, hself]
      exact iff_of_true (.inl rfl) (by simp)
    · rw [hothers j hji]
      exact or_iff_right hji

theorem State.Ids.step (h : s.Ids l) (hstep : s.step e = .ok (s', r)) : ∃ l', s'.Ids l' := by
  cases StepEffect.of_ok hstep with
  | refused heap h' =>
    subst h'
    exact ⟨l, h⟩
  | started i b heap hi h' =>
    subst h'
    exact h.update i _ rfl
  | ran i left rc thread he ht hrun =>
    obtain ⟨place, hthreads, -⟩ := threadfunc_spec hrun
    exact h.update i _ hthreads
  | joined i thread heap ht hplace h' =>
    subst h'
    exact h.update i _ rfl
  | caller mutex owner hnot h' =>
    subst h'
    exact ⟨l, h⟩

end Ids

/-! ## Every thread returns -/

section Runs

variable {s s' : State} {tr : List (Move State Event Observed)} {n : ℕ}

/-- A thread goes on, and its calls do not fail. -/
def Event.GoesOn (e : Event) : Prop := ∃ i left, e = .run i left 0

/-- At most `n` steps are left, if the caller starts no more threads and takes no mutex. -/
def State.Rank (s : State) (n : ℕ) : Prop :=
  (∃ life, Tidy life s) ∧ s.Released ∧ (∀ mutex, s.owner mutex ≠ some .caller) ∧
    ∃ l, s.Ids l ∧ n = totalRank threadCost s.threads l

private theorem exists_step {life : ℕ → Option (StartCall × List Observed)} {i : ℕ}
    {thread : Thread} (h : Tidy life s) (ht : s.threads i = some thread)
    (hgo : ¬s.Waits thread) : ∃ e s' r, Event.GoesOn e ∧ machine.step s e = .ok (s', r) := by
  rcases h.threadfunc ht 0 0 with ⟨-, hwait⟩ | ⟨s', r, hstep, -⟩
  · exact absurd hwait hgo
  · refine ⟨.run i 0 0, s', r, ⟨i, 0, rfl⟩, ?_⟩
    simp only [machine, State.step, ht, hstep]

private theorem run_eq_ok {i : ℕ} {left : UInt32} {rc : Int32} {r : Observed}
    (h : machine.step s (.run i left rc) = .ok (s', r)) :
    ∃ thread, s.threads i = some thread ∧ s.threadfunc i thread left rc = .ok (s', r) := by
  simp only [machine, State.step] at h
  split at h
  · exact absurd h (by simp)
  · rename_i thread ht
    exact ⟨thread, ht, h⟩

private theorem State.Rank.lowers {i : ℕ} {left : UInt32} {r : Observed} (h : s.Rank n)
    (hstep : machine.step s (.run i left 0) = .ok (s', r)) : ∃ k < n, s'.Rank k := by
  obtain ⟨⟨life, htidy⟩, hreleased, hcaller, l, ⟨hnodup, hmem⟩, rfl⟩ := h
  obtain ⟨thread, ht, hrun⟩ := run_eq_ok hstep
  obtain ⟨place, hthreads, hcost, heffect⟩ := threadfunc_spec hrun
  have hi : i ∈ l := by
    rw [hmem, ht]
    simp
  have htidy' : ∃ life', Tidy life' s' := by
    rcases htidy.threadfunc ht left 0 with ⟨hwait, -⟩ | ⟨s₁, r₁, hrun₁, htidy₁⟩
    · exact absurd (hrun.symm.trans hwait) (by simp)
    · rw [(Prod.mk.inj (Except.ok.inj (hrun.symm.trans hrun₁))).1]
      exact ⟨_, htidy₁⟩
  have hreleased' := hreleased.threadfunc ht hrun (.inl rfl)
  refine ⟨totalRank threadCost s'.threads l, ?_, htidy', hreleased', ?_, l,
    ⟨hnodup, fun j ↦ ?_⟩, rfl⟩
  · rw [hthreads]
    apply totalRank_update_lt threadCost hnodup hi
    rw [ht]
    exact hcost
  · intro mutex howner
    exact hcaller mutex ((heffect (.inl rfl)).of_other (by simp) howner)
  · rw [hthreads]
    by_cases hji : j = i
    · rw [hji, update_self]
      exact iff_of_true hi (by simp)
    · rw [update_of_ne hji]
      exact hmem j

/-- **The rank of the threads.** A thread that waits for its mutex waits for one that can go on. -/
theorem ranked : machine.Ranked Event.GoesOn State.Finished State.Rank where
  lowers := by
    rintro s n e s' r hrank ⟨i, left, rfl⟩ hstep
    exact hrank.lowers hstep
  advances := by
    rintro s n ⟨⟨life, htidy⟩, hreleased, hcaller, -⟩ hnot
    obtain ⟨i, thread, ht, hplace⟩ : ∃ i thread, s.threads i = some thread ∧
        thread.place ≠ .returned := by simpa [State.Finished] using hnot
    by_cases hwait : s.Waits thread
    swap
    · exact exists_step htidy ht hwait
    obtain ⟨mutex, -, howned⟩ := hwait.resolve_left hplace
    obtain ⟨owner, howner⟩ := Option.ne_none_iff_exists'.mp howned
    rcases owner with _ | j
    · exact absurd howner (hcaller mutex)
    obtain ⟨other, hother, hmutex⟩ := hreleased mutex j howner
    apply exists_step htidy hother
    rintro (hreturned | ⟨m, hlock, -⟩)
    · rw [hreturned] at hmutex
      exact absurd hmutex (by simp [Place.mutex])
    · rw [hlock] at hmutex
      exact absurd hmutex (by simp [Place.mutex])

theorem released_of_run (hrun : machine.Run State.init tr s)
    (hunlock : ∀ m ∈ tr, ∀ rc, m.ret ≠ .failed unlockFailed rc) :
    s.Released ∧ ∃ l, s.Ids l := by
  induction hrun with
  | nil => exact ⟨fun _ _ howner ↦ by simp [State.init] at howner, [], .nil, by simp [State.init]⟩
  | snoc _ hstep ih =>
    rw [List.forall_mem_append, List.forall_mem_singleton] at hunlock
    obtain ⟨hreleased, l, hids⟩ := ih hunlock.1
    exact ⟨hreleased.step hstep hunlock.2, hids.step hstep⟩

end Runs

end Aesd.Threading
