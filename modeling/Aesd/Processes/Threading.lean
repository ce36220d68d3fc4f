import Aesd.Foundation.Heap
import Aesd.Foundation.Holders
import Aesd.Foundation.Machine

/-!
# Threads that wait for a mutex

`start_thread_obtaining_mutex` starts a thread that sleeps, takes a mutex, sleeps, lets go of the
mutex, and returns its `thread_data` with a flag that tells whether this went well. Whoever joins
the thread reads the flag and frees the `thread_data`. The threads run in any order; the caller can
hold mutexes too, for as long as it likes.

## The invariant

What every interleaving keeps (`Tidy`): the blocks in use are those of the threads, one each; a
thread past `pthread_mutex_lock` has the mutex to itself; and what a thread has done so far is what
its place in the code and its `thread_data` say, so the flag that the joiner reads is the truth.

## Sleeping

The times are handed over in milliseconds, and `sleep` is called with the whole seconds in them: a
thread that is to wait for less than a second does not wait at all. What `sleep` returns is thrown
away by the source. So the flag says that a thread has called `sleep` twice and had its mutex in
between, and nothing about how long that took.
-/

namespace Aesd.Threading

open Function (update update_self update_of_ne)

structure ThreadData where
  m : ℕ
  waitToObtainMs : Int32
  waitToReleaseMs : Int32
  threadCompleteSuccess : Bool
  deriving DecidableEq

/-- Where a thread is in `threadfunc`. Past its start it has a mutex in a local variable. -/
inductive Place
  | start
  | lock (mutex : ℕ)
  /-- The sleep with the mutex. -/
  | inside (mutex : ℕ)
  | unlock (mutex : ℕ)
  /-- The flag is about to be written. -/
  | record (success : Bool)
  | returned
  deriving DecidableEq

/-- A thread that was created and not joined, with its argument. -/
structure Thread where
  threadParam : ℕ
  place : Place
  deriving DecidableEq

inductive Owner
  | caller
  | thread (threadId : ℕ)
  deriving DecidableEq

/-- The memory and the mutexes that the threads share, and the threads. -/
structure State where
  heap : Heap ThreadData
  owner : ℕ → Option Owner
  threads : ℕ → Option Thread

def State.init : State := ⟨Heap.empty, fun _ ↦ none, fun _ ↦ none⟩

/-- A call of `start_thread_obtaining_mutex`, with what `malloc` and `pthread_create` answer:
whether there is memory, and the new thread or an error code. -/
structure StartCall where
  mutex : ℕ
  waitToObtainMs : Int32
  waitToReleaseMs : Int32
  granted : Bool
  created : Except Int32 ℕ

inductive Event
  | start (call : StartCall)
  /-- A thread goes on: `left` is what its call of `sleep` returns, and `rc` what its call of
  `pthread_mutex_lock` or `pthread_mutex_unlock` returns, whichever it makes. -/
  | run (threadId : ℕ) (left : UInt32) (rc : Int32)
  | join (threadId : ℕ)
  /-- The caller takes a mutex. -/
  | lock (mutex : ℕ)
  | unlock (mutex : ℕ)

inductive Observed
  | started (threadId : ℕ)
  /-- `start_thread_obtaining_mutex` has returned false. -/
  | refused (message : String) (args : List Int32)
  /-- `sleep` was called, and returned with so many seconds left: not zero when a signal has come in
  between. -/
  | slept (seconds left : UInt32)
  | obtained
  | released
  | failed (message : String) (rc : Int32)
  | returned
  /-- The flag that the joiner reads. -/
  | joined (success : Bool)
  | quiet
  deriving DecidableEq

/-- Why a step is not taken: a fault, a mutex that another one has is let go of, or the step has to
wait or cannot happen. -/
inductive ThreadingError
  | fault (f : Fault)
  | notOwner
  | disabled
  deriving DecidableEq

/-- The messages of `threadfunc`. -/
def lockFailed : String := "pthread_mutex_lock failed with error code %d"

def unlockFailed : String := "pthread_mutex_unlock failed with error code %d"

/-- A computation of the C program, as part of a step. -/
def ThreadingError.lift {α : Type} (r : Except Fault α) : Except ThreadingError α :=
  r.mapError .fault

@[simp] theorem ThreadingError.lift_ok {α : Type} (a : α) :
    lift (.ok a : Except Fault α) = .ok a := rfl

/-- The argument of `sleep`, which is unsigned. -/
def sleepSeconds (ms : Int32) : UInt32 := (ms / 1000).toUInt32

namespace State

open ThreadingError (lift)

def goto (s : State) (i : ℕ) (thread : Thread) (place : Place) : State :=
  { s with threads := update s.threads i (some { thread with place }) }

/-- One step of `threadfunc`, for the thread with the identifier `i`. -/
def threadfunc (s : State) (i : ℕ) (thread : Thread) (left : UInt32) (rc : Int32) :
    Except ThreadingError (State × Observed) :=
  match thread.place with
  | .start => do
    let args ← lift (s.heap.get thread.threadParam)
    return (s.goto i thread (.lock args.m), .slept (sleepSeconds args.waitToObtainMs) left)
  | .lock mutex =>
    if rc ≠ 0 then
      .ok (s.goto i thread (.record false), .failed lockFailed rc)
    else if s.owner mutex = none then
      .ok ({ s.goto i thread (.inside mutex) with
              owner := update s.owner mutex (some (.thread i)) }, .obtained)
    else .error .disabled
  | .inside mutex => do
    let args ← lift (s.heap.get thread.threadParam)
    return (s.goto i thread (.unlock mutex), .slept (sleepSeconds args.waitToReleaseMs) left)
  | .unlock mutex =>
    if rc ≠ 0 then
      .ok (s.goto i thread (.record false), .failed unlockFailed rc)
    else if s.owner mutex = some (.thread i) then
      .ok ({ s.goto i thread (.record true) with owner := update s.owner mutex none }, .released)
    else .error .notOwner
  | .record success => do
    let args ← lift (s.heap.get thread.threadParam)
    let heap ← lift (s.heap.set thread.threadParam { args with threadCompleteSuccess := success })
    return ({ s.goto i thread .returned with heap }, .returned)
  | .returned => .error .disabled

/-- `start_thread_obtaining_mutex`. -/
def startThreadObtainingMutex (s : State) (call : StartCall) :
    Except ThreadingError (State × Observed) :=
  if call.granted then
    let heap :=
      (s.heap.new ⟨call.mutex, call.waitToObtainMs, call.waitToReleaseMs, false⟩).1
    let threadFuncArgs :=
      (s.heap.new ⟨call.mutex, call.waitToObtainMs, call.waitToReleaseMs, false⟩).2
    match call.created with
    | .error rc => do
      let heap ← lift (heap.free threadFuncArgs)
      return ({ s with heap }, .refused "pthread_create failed with error code %d" [rc])
    | .ok i =>
      if s.threads i = none then
        .ok ({ s with heap, threads := update s.threads i (some ⟨threadFuncArgs, .start⟩) },
          .started i)
      else .error .disabled
  else .ok (s, .refused "Failed to allocate memory for thread_data" [])

/-- `pthread_join`, which waits for the thread to return, and what the joiner does with the
`thread_data` that it is given. -/
def join (s : State) (i : ℕ) : Except ThreadingError (State × Observed) :=
  match s.threads i with
  | none => .error .disabled
  | some thread =>
    if thread.place = .returned then do
      let args ← lift (s.heap.get thread.threadParam)
      let heap ← lift (s.heap.free thread.threadParam)
      return ({ s with heap, threads := update s.threads i none },
        .joined args.threadCompleteSuccess)
    else .error .disabled

def step (s : State) : Event → Except ThreadingError (State × Observed)
  | .start call => s.startThreadObtainingMutex call
  | .run i left rc =>
    match s.threads i with
    | none => .error .disabled
    | some thread => s.threadfunc i thread left rc
  | .join i => s.join i
  | .lock mutex =>
    if s.owner mutex = none then
      .ok ({ s with owner := update s.owner mutex (some .caller) }, .quiet)
    else .error .disabled
  | .unlock mutex =>
    if s.owner mutex = some .caller then
      .ok ({ s with owner := update s.owner mutex none }, .quiet)
    else .error .disabled

end State

/-- The threads, their mutexes and whoever starts and joins them. -/
def machine : Machine State Event Observed ThreadingError := ⟨State.step⟩

/-! ## What the threads have done -/

/-- The `thread_data` of a call, with the flag that it has by now. -/
def StartCall.args (call : StartCall) (success : Bool) : ThreadData :=
  ⟨call.mutex, call.waitToObtainMs, call.waitToReleaseMs, success⟩

/-- What a thread does when no call of the mutex fails; the calls of `sleep` can return early. -/
def StartCall.course (call : StartCall) (left left' : UInt32) : List Observed :=
  [.slept (sleepSeconds call.waitToObtainMs) left, .obtained,
    .slept (sleepSeconds call.waitToReleaseMs) left', .released]

/-- A thread has done all that it was started for. -/
def StartCall.Done (call : StartCall) (done : List Observed) : Prop :=
  ∃ left left', done = call.course left left'

/-- What a thread has done when it is at a place, and its flag. -/
inductive Course (call : StartCall) : Place → Bool → List Observed → Prop
  | start : Course call .start false []
  | lock (left : UInt32) : Course call (.lock call.mutex) false ((call.course left 0).take 1)
  | inside (left : UInt32) : Course call (.inside call.mutex) false ((call.course left 0).take 2)
  | unlock (left left' : UInt32) :
      Course call (.unlock call.mutex) false ((call.course left left').take 3)
  | record {success : Bool} {done : List Observed} (h : success = true ↔ call.Done done) :
      Course call (.record success) false done
  | returned {success : Bool} {done : List Observed} (h : success = true ↔ call.Done done) :
      Course call .returned success (done ++ [.returned])

/-- The call that started each thread, and what the thread has done since, after one more step. -/
def lives (before : ℕ → Option (StartCall × List Observed)) (m : Move State Event Observed) :
    ℕ → Option (StartCall × List Observed) :=
  match m.event, m.ret with
  | .start call, .started i => update before i (some (call, []))
  | .run i _ _, r => update before i ((before i).map fun life ↦ (life.1, life.2 ++ [r]))
  | _, _ => before

def Place.mutex : Place → Option ℕ
  | .inside mutex => some mutex
  | .unlock mutex => some mutex
  | _ => none

def State.held (s : State) (i : ℕ) : Option ℕ := (s.threads i).map Thread.threadParam

def State.inUse (s : State) (b : ℕ) : Bool := (s.heap.cells b).isSome

/-- What every interleaving keeps. -/
structure Tidy (life : ℕ → Option (StartCall × List Observed)) (s : State) : Prop where
  /-- Each block is that of one thread. -/
  blocks : OneHolder s.held s.inUse
  /-- Each thread has done what its place says. -/
  course : ∀ i thread, s.threads i = some thread → ∃ call success done,
    life i = some (call, done) ∧ s.heap.Holds thread.threadParam [call.args success] ∧
      Course call thread.place success done
  /-- A thread past `pthread_mutex_lock` has the mutex. -/
  owner : ∀ i thread mutex, s.threads i = some thread → thread.place.mutex = some mutex →
    s.owner mutex = some (.thread i)

section Steps

variable {life : ℕ → Option (StartCall × List Observed)} {s s' : State} {i : ℕ} {thread : Thread}
  {call : StartCall} {done : List Observed} {success : Bool} {r : Observed} {place : Place}

theorem tidy_init : Tidy (fun _ ↦ none) State.init where
  blocks := ⟨fun _ ↦ iff_of_false Bool.false_ne_true (by simp [State.held, State.init]),
    fun h ↦ by simp [State.held, State.init] at h⟩
  course := fun _ _ h ↦ by simp [State.init] at h
  owner := fun _ _ _ h ↦ by simp [State.init] at h

theorem held_update (s : State) (heap : Heap ThreadData) (owner : ℕ → Option Owner) (i : ℕ)
    (t : Option Thread) : State.held ⟨heap, owner, update s.threads i t⟩
      = update s.held i (t.map Thread.threadParam) :=
  Function.comp_update (Option.map Thread.threadParam) s.threads i t

theorem Tidy.goOn (h : Tidy life s) (ht : s.threads i = some thread) {heap : Heap ThreadData}
    {owner : ℕ → Option Owner} (hlife : life i = some (call, done))
    (hheld : heap.Holds thread.threadParam [call.args success])
    (hother : ∀ b, b ≠ thread.threadParam → heap.cells b = s.heap.cells b)
    (hcourse : Course call place success (done ++ [r]))
    (howner : ∀ j mutex, j ≠ i → s.owner mutex = some (.thread j) →
      owner mutex = some (.thread j))
    (hmine : ∀ mutex, place.mutex = some mutex → owner mutex = some (.thread i)) :
    Tidy (update life i ((life i).map fun l ↦ (l.1, l.2 ++ [r])))
      ⟨heap, owner, update s.threads i (some { thread with place })⟩ := by
  have hthreads : ∀ {j t}, update s.threads i (some { thread with place }) j = some t →
      (j = i ∧ t = { thread with place }) ∨ (j ≠ i ∧ s.threads j = some t) := by
    intro j t hj
    by_cases hji : j = i
    · rw [hji, update_self] at hj
      exact .inl ⟨hji, (Option.some.inj hj).symm⟩
    · rw [update_of_ne hji] at hj
      exact .inr ⟨hji, hj⟩
  have hblock : s.held i = some thread.threadParam := by
    rw [State.held, ht]
    rfl
  constructor
  · have hheld' : State.held ⟨heap, owner, update s.threads i (some { thread with place })⟩
        = s.held := by
      rw [held_update]
      exact Function.update_eq_self_iff.mpr hblock.symm
    have hused' : State.inUse ⟨heap, owner, update s.threads i (some { thread with place })⟩
        = s.inUse := by
      funext b
      by_cases hb : b = thread.threadParam
      · rw [hb, h.blocks.used_of_held hblock]
        exact hheld.live
      · exact congrArg Option.isSome (hother b hb)
    rw [hheld', hused']
    exact h.blocks
  · intro j t hj
    rcases hthreads hj with ⟨rfl, rfl⟩ | ⟨hji, hj⟩
    · refine ⟨call, success, done ++ [r], ?_, hheld, hcourse⟩
      rw [update_self, hlife]
      rfl
    · obtain ⟨call', success', done', hlife', hheld', hcourse'⟩ := h.course j t hj
      refine ⟨call', success', done', ?_, hheld'.congr (hother _ fun heq ↦ hji ?_), hcourse'⟩
      · rw [update_of_ne hji, hlife']
      · apply h.blocks.unique _ hblock
        rw [State.held, hj, Option.map_some, heq]
  · intro j t mutex hj hmutex
    rcases hthreads hj with ⟨rfl, rfl⟩ | ⟨hji, hj⟩
    · exact hmine mutex hmutex
    · exact howner j mutex hji (h.owner j t mutex hj hmutex)

/-- A thread that cannot go on has returned, or waits for a mutex. -/
def State.Waits (s : State) (thread : Thread) : Prop :=
  thread.place = .returned ∨ ∃ mutex, thread.place = .lock mutex ∧ s.owner mutex ≠ none

theorem Tidy.threadfunc (h : Tidy life s) (ht : s.threads i = some thread) (left : UInt32)
    (rc : Int32) :
    (s.threadfunc i thread left rc = .error .disabled ∧ s.Waits thread) ∨
      ∃ s' r, s.threadfunc i thread left rc = .ok (s', r) ∧
        Tidy (update life i ((life i).map fun l ↦ (l.1, l.2 ++ [r]))) s' := by
  obtain ⟨call, success, done, hlife, hheld, hcourse⟩ := h.course i thread ht
  have hget := Heap.get_of_holds hheld
  have howner := h.owner i thread
  have hkeep : ∀ j mutex, j ≠ i → s.owner mutex = some (.thread j) →
      s.owner mutex = some (.thread j) := fun _ _ _ hj ↦ hj
  have hnone : ∀ {owner : ℕ → Option Owner} mutex, none = some mutex →
      owner mutex = some (.thread i) := fun _ hmutex ↦ by simp at hmutex
  generalize hresult : s.threadfunc i thread left rc = result
  rw [State.threadfunc] at hresult
  cases hplace : thread.place with
  | start =>
    rw [hplace] at hresult hcourse
    cases hcourse
    simp only [hget, ThreadingError.lift_ok, ok_bind, pure_eq_ok] at hresult
    exact .inr ⟨_, _, hresult.symm, h.goOn ht hlife hheld (fun _ _ ↦ rfl) (.lock left) hkeep hnone⟩
  | lock mutex =>
    rw [hplace] at hresult hcourse
    cases hcourse
    dsimp only at hresult
    split at hresult
    · refine .inr ⟨_, _, hresult.symm,
        h.goOn ht hlife hheld (fun _ _ ↦ rfl) (.record ?_) hkeep hnone⟩
      simp [StartCall.Done, StartCall.course]
    split at hresult
    · rename_i hfree
      refine .inr ⟨_, _, hresult.symm, h.goOn ht hlife hheld (fun _ _ ↦ rfl) (.inside _) ?_ ?_⟩
      · intro j mutex hji hj
        rw [update_of_ne, hj]
        rintro rfl
        rw [hfree] at hj
        simp at hj
      · intro mutex hmutex
        obtain rfl := Option.some.inj hmutex
        exact update_self ..
    · rename_i howned
      exact .inl ⟨hresult.symm, .inr ⟨_, hplace, howned⟩⟩
  | inside mutex =>
    rw [hplace] at hresult hcourse
    cases hcourse
    simp only [hget, ThreadingError.lift_ok, ok_bind, pure_eq_ok] at hresult
    refine .inr ⟨_, _, hresult.symm, ?_⟩
    refine h.goOn ht hlife hheld (fun _ _ ↦ rfl) (.unlock _ left) hkeep ?_
    intro mutex hmutex
    exact howner mutex ht (by rw [hplace]; exact hmutex)
  | unlock mutex =>
    rw [hplace] at hresult hcourse
    cases hcourse
    have hmine := howner call.mutex ht (by rw [hplace]; rfl)
    dsimp only at hresult
    split at hresult
    · refine .inr ⟨_, _, hresult.symm,
        h.goOn ht hlife hheld (fun _ _ ↦ rfl) (.record ?_) hkeep hnone⟩
      simp [StartCall.Done, StartCall.course]
    refine .inr ⟨_, _, hresult.symm, h.goOn ht hlife hheld (fun _ _ ↦ rfl) (.record ?_) ?_ hnone⟩
    · simp [StartCall.Done, StartCall.course]
    · intro j mutex hji hj
      rw [update_of_ne, hj]
      rintro rfl
      rw [hmine, Option.some.injEq, Owner.thread.injEq] at hj
      exact hji hj.symm
  | record flag =>
    rw [hplace] at hresult hcourse
    cases hcourse with
    | record hflag =>
      obtain ⟨heap, hset, hheld', hother⟩ := Heap.set_of_holds hheld (call.args flag)
      have hset' : s.heap.set thread.threadParam
          { call.args false with threadCompleteSuccess := flag } = .ok heap := hset
      simp only [hget, hset', ThreadingError.lift_ok, ok_bind, pure_eq_ok] at hresult
      exact .inr ⟨_, _, hresult.symm, h.goOn ht hlife hheld' hother (.returned hflag) hkeep hnone⟩
  | returned =>
    rw [hplace] at hresult
    exact .inl ⟨hresult.symm, .inl hplace⟩

theorem Tidy.start (h : Tidy life s) (hi : s.threads i = none) (call : StartCall) :
    Tidy (update life i (some (call, []))) ⟨(s.heap.new (call.args false)).1, s.owner,
      update s.threads i (some ⟨s.heap.next, .start⟩)⟩ := by
  have hfree : s.held i = none := by
    rw [State.held, hi]
    rfl
  have hunused : s.inUse s.heap.next = false := eq_false_of_ne_true (Heap.not_live_next s.heap)
  have hheld := Heap.holds_new s.heap (call.args false)
  constructor
  · have hused : State.inUse ⟨(s.heap.new (call.args false)).1, s.owner,
        update s.threads i (some ⟨s.heap.next, .start⟩)⟩ = update s.inUse s.heap.next true := by
      funext b
      by_cases hb : b = s.heap.next
      · rw [hb, update_self]
        exact hheld.live
      · rw [update_of_ne hb]
        exact congrArg Option.isSome (Heap.new_cells_of_ne _ _ hb)
    rw [held_update, hused]
    exact h.blocks.take hfree hunused
  · intro j t hj
    dsimp only at hj
    by_cases hji : j = i
    · rw [hji, update_self] at hj
      obtain rfl := Option.some.inj hj
      rw [hji]
      exact ⟨call, false, [], update_self .., hheld, .start⟩
    · rw [update_of_ne hji] at hj
      obtain ⟨call', success', done', hlife', hheld', hcourse'⟩ := h.course j t hj
      have hne := Heap.ne_next_of_live hheld'.live
      refine ⟨call', success', done', ?_, hheld'.congr (Heap.new_cells_of_ne _ _ hne), hcourse'⟩
      rw [update_of_ne hji, hlife']
  · intro j t mutex hj hmutex
    dsimp only at hj
    by_cases hji : j = i
    · rw [hji, update_self] at hj
      obtain rfl := Option.some.inj hj
      simp [Place.mutex] at hmutex
    · rw [update_of_ne hji] at hj
      exact h.owner j t mutex hj hmutex

theorem Tidy.join (h : Tidy life s) (ht : s.threads i = some thread) {heap : Heap ThreadData}
    (hfree : s.heap.free thread.threadParam = .ok heap) :
    Tidy life ⟨heap, s.owner, update s.threads i none⟩ := by
  have hblock : s.held i = some thread.threadParam := by
    rw [State.held, ht]
    rfl
  have hthreads : ∀ {j t}, update s.threads i none j = some t → j ≠ i ∧ s.threads j = some t := by
    intro j t hj
    by_cases hji : j = i
    · rw [hji, update_self] at hj
      simp at hj
    · rw [update_of_ne hji] at hj
      exact ⟨hji, hj⟩
  constructor
  · have hused : State.inUse ⟨heap, s.owner, update s.threads i none⟩
        = update s.inUse thread.threadParam false := by
      funext b
      by_cases hb : b = thread.threadParam
      · rw [hb, update_self]
        exact eq_false_of_ne_true fun hlive ↦ ((Heap.live_of_free hfree).mp hlive).2 rfl
      · rw [update_of_ne hb]
        exact congrArg Option.isSome (Heap.cells_of_free hfree hb)
    rw [held_update, hused]
    exact h.blocks.drop hblock
  · intro j t hj
    obtain ⟨hji, hj⟩ := hthreads hj
    obtain ⟨call', success', done', hlife', hheld', hcourse'⟩ := h.course j t hj
    refine ⟨call', success', done', hlife', hheld'.congr (Heap.cells_of_free hfree ?_), hcourse'⟩
    intro heq
    apply hji
    apply h.blocks.unique _ hblock
    rw [State.held, hj, Option.map_some, heq]
  · intro j t mutex hj hmutex
    exact h.owner j t mutex (hthreads hj).2 hmutex

theorem Tidy.congr (h : Tidy life s) {heap : Heap ThreadData} {owner : ℕ → Option Owner}
    (hcells : ∀ b, heap.cells b = s.heap.cells b)
    (howner : ∀ i mutex, s.owner mutex = some (.thread i) → owner mutex = some (.thread i)) :
    Tidy life ⟨heap, owner, s.threads⟩ := by
  constructor
  · have hused : State.inUse ⟨heap, owner, s.threads⟩ = s.inUse :=
      funext fun b ↦ congrArg Option.isSome (hcells b)
    rw [hused]
    exact h.blocks
  · intro i thread ht
    obtain ⟨call, success, done, hlife, hheld, hcourse⟩ := h.course i thread ht
    exact ⟨call, success, done, hlife, hheld.congr (hcells _), hcourse⟩
  · intro i thread mutex ht hmutex
    exact howner i mutex (h.owner i thread mutex ht hmutex)

private theorem Tidy.startCall (h : Tidy life s) (call : StartCall) :
    s.startThreadObtainingMutex call = .error .disabled ∨
      ∃ s' r, s.startThreadObtainingMutex call = .ok (s', r) ∧
        Tidy (lives life ⟨s, .start call, r⟩) s' := by
  generalize hresult : s.startThreadObtainingMutex call = result
  rw [State.startThreadObtainingMutex] at hresult
  split at hresult
  swap
  · exact .inr ⟨_, _, hresult.symm, h⟩
  dsimp only at hresult
  split at hresult
  · obtain ⟨heap, hfree, hgone, -, hother⟩ :=
      Heap.free_of_live (Heap.holds_new s.heap (call.args false)).live
    have hfree' : (s.heap.new ⟨call.mutex, call.waitToObtainMs, call.waitToReleaseMs, false⟩).1.free
        (s.heap.new ⟨call.mutex, call.waitToObtainMs, call.waitToReleaseMs, false⟩).2
          = .ok heap := hfree
    simp only [hfree', ThreadingError.lift_ok, ok_bind, pure_eq_ok] at hresult
    refine .inr ⟨_, _, hresult.symm, h.congr (fun b ↦ ?_) fun _ _ howner ↦ howner⟩
    -- the block was not in use before
    by_cases hb : b = s.heap.next
    · rw [hb, hgone, s.heap.fresh _ (Nat.le_refl _)]
    · rw [hother b hb, Heap.new_cells_of_ne _ _ hb]
  · split at hresult
    · rename_i hi
      exact .inr ⟨_, _, hresult.symm, h.start hi call⟩
    · exact .inl hresult.symm

private theorem Tidy.joinCall (h : Tidy life s) (i : ℕ) :
    s.join i = .error .disabled ∨ ∃ s' success call done, s.join i = .ok (s', .joined success) ∧
      life i = some (call, done ++ [.returned]) ∧ (success = true ↔ call.Done done) ∧
      Tidy life s' := by
  rcases ht : s.threads i with _ | thread
  · left
    simp only [State.join, ht]
  obtain ⟨call, success, done, hlife, hheld, hcourse⟩ := h.course i thread ht
  by_cases hplace : thread.place = .returned
  · rw [hplace] at hcourse
    cases hcourse with
    | @returned success done hflag =>
      obtain ⟨heap, hfree, -⟩ := Heap.free_of_live hheld.live
      refine .inr ⟨_, success, call, done, ?_, hlife, hflag, h.join ht hfree⟩
      simp only [State.join, ht, if_pos hplace, Heap.get_of_holds hheld, hfree,
        ThreadingError.lift_ok, ok_bind, pure_eq_ok]
      rfl
  · left
    simp only [State.join, ht, if_neg hplace]

/-- **Every step** has to wait, or keeps everything in order. -/
theorem Tidy.step (h : Tidy life s) (e : Event) :
    s.step e = .error .disabled ∨
      ∃ s' r, s.step e = .ok (s', r) ∧ Tidy (lives life ⟨s, e, r⟩) s' := by
  cases e with
  | start call => exact h.startCall call
  | run i left rc =>
    rcases ht : s.threads i with _ | thread
    · left
      simp only [State.step, ht]
    · simp only [State.step, ht]
      exact (h.threadfunc ht left rc).imp_left And.left
  | join i =>
    rcases h.joinCall i with hwait | ⟨s', success, -, -, hjoin, -, -, htidy⟩
    · exact .inl hwait
    · exact .inr ⟨s', _, hjoin, htidy⟩
  | lock mutex =>
    by_cases hfree : s.owner mutex = none
    · simp only [State.step, if_pos hfree]
      refine .inr ⟨_, _, rfl, h.congr (fun _ ↦ rfl) fun i mutex' howner ↦ ?_⟩
      rw [update_of_ne, howner]
      rintro rfl
      rw [hfree] at howner
      simp at howner
    · left
      simp only [State.step, if_neg hfree]
  | unlock mutex =>
    by_cases hcaller : s.owner mutex = some .caller
    · simp only [State.step, if_pos hcaller]
      refine .inr ⟨_, _, rfl, h.congr (fun _ ↦ rfl) fun i mutex' howner ↦ ?_⟩
      rw [update_of_ne, howner]
      rintro rfl
      rw [hcaller] at howner
      simp at howner
    · left
      simp only [State.step, if_neg hcaller]

end Steps

/-! ## Every run -/

section Runs

variable {tr : List (Move State Event Observed)} {s : State}

/-- What the threads have done in a run. -/
def livesOf (tr : List (Move State Event Observed)) : ℕ → Option (StartCall × List Observed) :=
  tr.foldl lives fun _ ↦ none

theorem tidy_of_run (hrun : machine.Run State.init tr s) : Tidy (livesOf tr) s := by
  apply hrun.invariant (I := fun tr s ↦ Tidy (livesOf tr) s) tidy_init
  intro tr s e s' r _ htidy hstep
  rcases htidy.step e with hwait | ⟨s₁, r₁, hstep₁, htidy₁⟩
  · exact absurd (hstep.symm.trans hwait) (by simp)
  · obtain ⟨rfl, rfl⟩ := Prod.mk.inj (Except.ok.inj (hstep.symm.trans hstep₁))
    rw [livesOf, List.foldl_append]
    exact htidy₁

/-- **The threads do not disturb each other.** After every run, the blocks in use are those of the
threads, one each; no two threads have the same mutex, and none has one that the caller has; and no
step uses memory that was freed or lets go of a mutex that another one has. -/
theorem threads_safe (hrun : machine.Run State.init tr s) :
    OneHolder s.held s.inUse ∧
      (∀ i thread mutex, s.threads i = some thread → thread.place.mutex = some mutex →
        s.owner mutex ≠ some .caller ∧ ∀ j other, s.threads j = some other →
          other.place.mutex = some mutex → j = i) ∧
      ∀ e f, s.step e = .error f → f = .disabled := by
  have htidy := tidy_of_run hrun
  refine ⟨htidy.blocks, fun i thread mutex ht hmutex ↦ ⟨?_, fun j other hj hother ↦ ?_⟩, ?_⟩
  · rw [htidy.owner i thread mutex ht hmutex]
    simp
  · have howner := htidy.owner j other mutex hj hother
    rw [htidy.owner i thread mutex ht hmutex, Option.some.injEq, Owner.thread.injEq] at howner
    exact howner.symm
  · intro e f herror
    rcases htidy.step e with hwait | ⟨s', r, hstep, -⟩
    · exact Except.error.inj (herror.symm.trans hwait)
    · exact absurd (herror.symm.trans hstep) (by simp)

/-- Two threads for one mutex, which the second one has to wait for. -/
private def twoThreads : List Event :=
  [.start ⟨0, 1500, 0, true, .ok 7⟩, .start ⟨0, 0, 2000, true, .ok 8⟩, .run 8 0 0, .run 7 1 0,
    .run 7 0 0]

/-- The first thread has the mutex. -/
theorem threads_safe_of_two : ∃ tr s, machine.Run State.init tr s ∧
    s.threads 8 = some ⟨1, .lock 0⟩ ∧ s.owner 0 = some (.thread 7) ∧ OneHolder s.held s.inUse := by
  obtain ⟨tr, s, hrun, htest⟩ := Machine.exists_run_of_exec machine State.init twoThreads
    (fun _ s ↦ s.threads 8 = some ⟨1, .lock 0⟩ ∧ s.owner 0 = some (.thread 7)) (by decide)
  obtain ⟨hwaits, howner⟩ := of_decide_eq_true htest
  exact ⟨tr, s, hrun, hwaits, howner, (threads_safe hrun).1⟩

/-- **The flag is the truth.** What the joiner of a thread reads is true exactly when the thread has
called `sleep` with its first time, taken its mutex, called `sleep` with its second time and let go
of the mutex. How long it has slept does not matter: a `sleep` that returns early is like any
other. -/
theorem joined_iff {s' : State} {i : ℕ} {success : Bool} (hrun : machine.Run State.init tr s)
    (hjoin : machine.step s (.join i) = .ok (s', .joined success)) :
    ∃ call done, livesOf tr i = some (call, done ++ [.returned]) ∧
      (success = true ↔ call.Done done) := by
  rcases (tidy_of_run hrun).joinCall i with hwait | ⟨s₁, flag, call, done, hjoin₁, hlife, hflag, -⟩
  · exact absurd (hjoin.symm.trans hwait) (by simp)
  · have hreply := (Prod.mk.inj (Except.ok.inj (hjoin.symm.trans hjoin₁))).2
    rw [Observed.joined.inj hreply]
    exact ⟨call, done, hlife, hflag⟩

/-- The flag that a joiner would read now. -/
private def joinFlag (s : State) (i : ℕ) : Option Bool :=
  match s.join i with
  | .ok (_, .joined success) => some success
  | _ => none

private theorem exists_join {i : ℕ} {success : Bool} (h : joinFlag s i = some success) :
    ∃ s', machine.step s (.join i) = .ok (s', .joined success) := by
  rw [joinFlag] at h
  split at h
  · rename_i s' success' hjoin
    obtain rfl := Option.some.inj h
    exact ⟨s', hjoin⟩
  · exact absurd h (by simp)

/-- The first thread ends well, though its first `sleep` is interrupted, and the second one with an
error of `pthread_mutex_lock`. -/
theorem joined_of_two : ∃ tr s call call' done done', machine.Run State.init tr s ∧
    livesOf tr 7 = some (call, done ++ [.returned]) ∧ call.Done done ∧
    livesOf tr 8 = some (call', done' ++ [.returned]) ∧ ¬call'.Done done' := by
  obtain ⟨tr, s, hrun, htest⟩ := Machine.exists_run_of_exec machine State.init
    (twoThreads ++ [.run 7 0 0, .run 8 0 22, .run 7 0 0, .run 8 0 0, .run 7 0 0])
    (fun _ s ↦ joinFlag s 7 = some true ∧ joinFlag s 8 = some false) (by decide)
  obtain ⟨htrue, hfalse⟩ := of_decide_eq_true htest
  obtain ⟨s₁, hjoin⟩ := exists_join htrue
  obtain ⟨s₂, hjoin'⟩ := exists_join hfalse
  obtain ⟨call, done, hlife, hflag⟩ := joined_iff hrun hjoin
  obtain ⟨call', done', hlife', hflag'⟩ := joined_iff hrun hjoin'
  exact ⟨tr, s, call, call', done, done', hrun, hlife, hflag.mp rfl, hlife',
    fun hdone ↦ Bool.false_ne_true (hflag'.mpr hdone)⟩

end Runs

end Aesd.Threading
