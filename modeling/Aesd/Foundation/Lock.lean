import Aesd.Foundation.Loop
import Aesd.Foundation.Machine
import Mathlib.Logic.Function.Basic

/-!
# Threads that share a state under a lock

Every thread has a state of its own, and serves one request at a time. A request is served outside
the lock, in a step on the state of the thread alone, or in a critical section: the thread
takes the lock, repeats one access to the shared state after the other, and leaves with a reply.
The lock is held from entering to leaving; between two accesses the other threads go on with what
they do outside.

## Atomicity

`Whole` is what such a request amounts to when nothing comes in between. When a machine does each
whole request in one step, the protocol refines it, in whatever way requests are interleaved
(`Refines.exists_run`). When its steps are the whole requests and nothing else, it is `Atomic`,
and then nobody can tell the two apart: the histories of the protocol, read off at the points where
requests are answered, are exactly those of the machine (`Atomic.history_iff`).

## The invariant

The state of the protocol lies behind that of the machine by the accesses that the thread with the
lock has made so far (`Midway`). The machine takes its step when the section is left, so requests
come in the order in which the lock is let go of, and the two states agree whenever it is free.

## Letting go

A section that always leaves when it is on its own also leaves here, with the accesses that it would
have taken alone (`Refines.released`). In general a section can be left from where it is exactly
when the loop of its accesses leaves from there (`released_iff`).
-/

namespace Aesd

open Function (update)

variable {ι σ θ ε κ ρ φ : Type*}

/-- A protocol with one lock: threads `ι` with states `θ`, a shared state `σ`, requests `ε`
with replies `ρ`, and the local states `κ` of critical sections. -/
structure Locking (ι σ θ ε κ ρ φ : Type*) where
  /-- The thread that serves a request. -/
  thread : ε → ι
  /-- Serving a request outside the lock. -/
  outside : θ → ε → Except φ (θ × ρ)
  /-- Entering the section for a request. -/
  enter : θ → ε → Except φ κ
  /-- One access to the shared state. The last one leaves. -/
  access : σ × κ → Except φ ((σ × κ) ⊕ (σ × θ × ρ))
  /-- The error of a step that has to wait. -/
  disabled : φ

/-- Why a step is not taken: it faults, or it is not one that the thread can take. -/
inductive LockError (φ : Type*)
  | fault (f : φ)
  | disabled
  deriving DecidableEq

/-- A critical section that was entered and not left. -/
structure CriticalSection (ε κ : Type*) where
  request : ε
  locals : κ

/-- The shared state, the states of the threads, and the section of the thread that has the
lock. -/
structure Locked (ι σ θ ε κ : Type*) where
  shared : σ
  threads : ι → θ
  holder : Option (CriticalSection ε κ)

inductive LockEvent (ε : Type*)
  | outside (request : ε)
  | lock (request : ε)
  /-- The thread that has the lock goes on. -/
  | access

/-- A request with its reply, as it appears in a history. -/
def Move.answer (m : Move σ ε ρ) : ε × ρ := (m.event, m.ret)

/-- The requests that a history of the protocol answers, in the order of their answers. -/
def answers (tr : List (Move (Locked ι σ θ ε κ) (LockEvent ε) (Option (ε × ρ)))) : List (ε × ρ) :=
  tr.filterMap Move.ret

theorem answers_concat {tr : List (Move (Locked ι σ θ ε κ) (LockEvent ε) (Option (ε × ρ)))}
    (m : Move (Locked ι σ θ ε κ) (LockEvent ε) (Option (ε × ρ))) :
    answers (tr ++ [m]) = answers tr ++ m.ret.toList := by
  rw [answers, List.filterMap_append]
  cases hret : m.ret with
  | none => simp [answers, hret]
  | some r => simp [answers, hret]

namespace Locking

variable [DecidableEq ι] (L : Locking ι σ θ ε κ ρ φ)

def owner (c : Locked ι σ θ ε κ) : Option ι := c.holder.map fun h ↦ L.thread h.request

/-- One step. It shows the request that it answers, if it answers one. -/
def step (c : Locked ι σ θ ε κ) : LockEvent ε → Except φ (Locked ι σ θ ε κ × Option (ε × ρ))
  | .outside e =>
    if L.owner c = some (L.thread e) then .error L.disabled
    else
      match L.outside (c.threads (L.thread e)) e with
      | .error f => .error f
      | .ok (t, r) => .ok ({ c with threads := update c.threads (L.thread e) t }, some (e, r))
  | .lock e =>
    match c.holder with
    | some _ => .error L.disabled
    | none =>
      match L.enter (c.threads (L.thread e)) e with
      | .error f => .error f
      | .ok k => .ok ({ c with holder := some ⟨e, k⟩ }, none)
  | .access =>
    match c.holder with
    | none => .error L.disabled
    | some h =>
      match L.access (c.shared, h.locals) with
      | .error f => .error f
      | .ok (.inl (s, k)) => .ok (⟨s, c.threads, some ⟨h.request, k⟩⟩, none)
      | .ok (.inr (s, t, r)) =>
        .ok (⟨s, update c.threads (L.thread h.request) t, none⟩, some (h.request, r))

def machine : Machine (Locked ι σ θ ε κ) (LockEvent ε) (Option (ε × ρ)) φ := ⟨L.step⟩

@[simp] theorem machine_step : L.machine.step = L.step := rfl

/-- A request that is served while nothing else happens. -/
inductive Whole (s : σ) (ts : ι → θ) (e : ε) : σ → (ι → θ) → ρ → Prop
  | outside {t : θ} {r : ρ} : L.outside (ts (L.thread e)) e = .ok (t, r) →
      Whole s ts e s (update ts (L.thread e) t) r
  | inside {k : κ} {s' : σ} {t : θ} {r : ρ} : L.enter (ts (L.thread e)) e = .ok k →
      Loop.Leaves L.access (s, k) (s', t, r) → Whole s ts e s' (update ts (L.thread e) t) r

/-- The machine `M` follows every whole request with one step, on states that `R` relates to the
shared state and the threads. -/
structure Refines {α ψ : Type*} (M : Machine α ε ρ ψ) (R : σ → (ι → θ) → α → Prop) : Prop where
  follows : ∀ {s ts a e s' ts' r}, R s ts a → L.Whole s ts e s' ts' r →
    ∃ a', M.step a e = .ok (a', r) ∧ R s' ts' a'

/-- The steps of the machine `M` are the whole requests, on states that `abs` makes of the shared
state and the threads. The shared state keeps the invariant `I`. -/
structure Atomic {α ψ : Type*} (M : Machine α ε ρ ψ) (abs : σ → (ι → θ) → α) (I : σ → Prop) :
    Prop where
  step_iff : ∀ {s ts e a r}, I s →
    (M.step (abs s ts) e = .ok (a, r) ↔ ∃ s' ts', a = abs s' ts' ∧ L.Whole s ts e s' ts' r)
  keeps : ∀ {s ts e s' ts' r}, I s → L.Whole s ts e s' ts' r → I s'

/-- The state `c` lies behind shared state `s` by the accesses of the thread that has the lock. -/
def Midway (s : σ) (c : Locked ι σ θ ε κ) : Prop :=
  match c.holder with
  | none => c.shared = s
  | some h => ∃ k, L.enter (c.threads (L.thread h.request)) h.request = .ok k ∧
      Loop.Reaches L.access (s, k) (c.shared, h.locals)

variable {L}

theorem whole_iff {s s' : σ} {ts ts' : ι → θ} {e : ε} {r : ρ} :
    L.Whole s ts e s' ts' r ↔
      (∃ t, L.outside (ts (L.thread e)) e = .ok (t, r) ∧ s' = s ∧
        ts' = update ts (L.thread e) t) ∨
      ∃ k t, L.enter (ts (L.thread e)) e = .ok k ∧ Loop.Leaves L.access (s, k) (s', t, r) ∧
        ts' = update ts (L.thread e) t := by
  constructor
  · intro h
    cases h with
    | outside hout => exact .inl ⟨_, hout, rfl, rfl⟩
    | inside henter hleaves => exact .inr ⟨_, _, henter, hleaves, rfl⟩
  · rintro (⟨t, hout, rfl, rfl⟩ | ⟨k, t, henter, hleaves, rfl⟩)
    · exact .outside hout
    · exact .inside henter hleaves

theorem whole_iff_of_enter_error {s s' : σ} {ts ts' : ι → θ} {e : ε} {r : ρ} {f : φ}
    (h : L.enter (ts (L.thread e)) e = .error f) :
    L.Whole s ts e s' ts' r ↔ ∃ t, L.outside (ts (L.thread e)) e = .ok (t, r) ∧ s' = s ∧
      ts' = update ts (L.thread e) t := by
  rw [whole_iff, h]
  simp

theorem whole_iff_of_enter {s s' : σ} {ts ts' : ι → θ} {e : ε} {r : ρ} {f : φ} {k : κ}
    (hout : L.outside (ts (L.thread e)) e = .error f)
    (henter : L.enter (ts (L.thread e)) e = .ok k) :
    L.Whole s ts e s' ts' r ↔ ∃ t, Loop.Leaves L.access (s, k) (s', t, r) ∧
      ts' = update ts (L.thread e) t := by
  rw [whole_iff, hout, henter]
  simp

/-! ## What a step can do -/

theorem step_cases {c c' : Locked ι σ θ ε κ} {e : LockEvent ε} {r : Option (ε × ρ)}
    (h : L.step c e = .ok (c', r)) :
    (∃ q t r', e = .outside q ∧ L.owner c ≠ some (L.thread q) ∧
      L.outside (c.threads (L.thread q)) q = .ok (t, r') ∧
      c' = { c with threads := update c.threads (L.thread q) t } ∧ r = some (q, r')) ∨
    (∃ q k, e = .lock q ∧ c.holder = none ∧ L.enter (c.threads (L.thread q)) q = .ok k ∧
      c' = { c with holder := some ⟨q, k⟩ } ∧ r = none) ∨
    ∃ g, e = .access ∧ c.holder = some g ∧
      ((∃ s k, L.access (c.shared, g.locals) = .ok (.inl (s, k)) ∧
          c' = ⟨s, c.threads, some ⟨g.request, k⟩⟩ ∧ r = none) ∨
        ∃ s t r', L.access (c.shared, g.locals) = .ok (.inr (s, t, r')) ∧
          c' = ⟨s, update c.threads (L.thread g.request) t, none⟩ ∧ r = some (g.request, r')) := by
  cases e with
  | outside q =>
    rw [step] at h
    split at h
    · cases h
    rename_i howner
    split at h
    · cases h
    · rename_i t r' hout
      cases h
      exact .inl ⟨q, t, r', rfl, howner, hout, rfl, rfl⟩
  | lock q =>
    rw [step] at h
    split at h
    · cases h
    rename_i hfree
    split at h
    · cases h
    · rename_i k henter
      cases h
      exact .inr (.inl ⟨q, k, rfl, hfree, henter, rfl, rfl⟩)
  | access =>
    rw [step] at h
    split at h
    · cases h
    rename_i g hg
    split at h
    · cases h
    · rename_i s k haccess
      cases h
      exact .inr (.inr ⟨g, rfl, hg, .inl ⟨s, k, haccess, rfl, rfl⟩⟩)
    · rename_i s t r' haccess
      cases h
      exact .inr (.inr ⟨g, rfl, hg, .inr ⟨s, t, r', haccess, rfl, rfl⟩⟩)

omit [DecidableEq ι] in
theorem Midway.shared_eq {s : σ} {c : Locked ι σ θ ε κ} (h : L.Midway s c)
    (hfree : c.holder = none) : c.shared = s := by
  rw [Midway, hfree] at h
  exact h

theorem Midway.outside {s : σ} {c : Locked ι σ θ ε κ} {i : ι} (h : L.Midway s c)
    (hi : L.owner c ≠ some i) (t : θ) :
    L.Midway s { c with threads := update c.threads i t } := by
  obtain ⟨shared, threads, holder⟩ := c
  cases holder with
  | none => exact h
  | some g =>
    obtain ⟨k, henter, hreach⟩ := h
    refine ⟨k, ?_, hreach⟩
    have hne : L.thread g.request ≠ i := fun heq ↦ hi (by rw [owner, ← heq]; rfl)
    dsimp only
    rwa [Function.update_of_ne hne]

/-! ## From the protocol to whole requests -/

section Runs

variable {α ψ : Type*} {M : Machine α ε ρ ψ} {R : σ → (ι → θ) → α → Prop}
  {abs : σ → (ι → θ) → α} {I : σ → Prop} {s₀ : σ} {ts₀ : ι → θ} {a₀ : α} {c : Locked ι σ θ ε κ}
  {tr : List (Move (Locked ι σ θ ε κ) (LockEvent ε) (Option (ε × ρ)))}

/-- **The protocol refines the machine.** A run of the protocol has a run of the machine that
answers the same requests in the same order. The machine is behind by the accesses of the section
that was not left yet. -/
theorem Refines.exists_run (h : L.Refines M R) (h₀ : R s₀ ts₀ a₀)
    (hrun : L.machine.Run ⟨s₀, ts₀, none⟩ tr c) :
    ∃ tr' s a, M.Run a₀ tr' a ∧ tr'.map Move.answer = answers tr ∧ R s c.threads a ∧
      L.Midway s c := by
  induction hrun with
  | nil => exact ⟨[], s₀, a₀, .nil, rfl, h₀, rfl⟩
  | @snoc tr c c' e r _ hstep ih =>
    obtain ⟨tr', s, a, hM, hanswers, hR, hmid⟩ := ih
    rcases step_cases hstep with ⟨q, t, r', rfl, howner, hout, rfl, rfl⟩ |
      ⟨q, k, rfl, hfree, henter, rfl, rfl⟩ | ⟨g, rfl, hg, hacc⟩
    · -- the machine answers the request as well
      obtain ⟨a', hstep', hR'⟩ := h.follows hR (.outside hout)
      refine ⟨_, s, a', hM.snoc hstep', ?_, hR', hmid.outside howner t⟩
      rw [List.map_append, hanswers, answers_concat]
      rfl
    · refine ⟨tr', s, a, hM, by rw [answers_concat, hanswers]; simp, hR, k, henter, ?_⟩
      rw [hmid.shared_eq hfree]
      exact .refl
    · rw [Midway, hg] at hmid
      obtain ⟨k, henter, hreach⟩ := hmid
      rcases hacc with ⟨s', k', hpass, rfl, rfl⟩ | ⟨s', t, r', hpass, rfl, rfl⟩
      · exact ⟨tr', s, a, hM, by rw [answers_concat, hanswers]; simp, hR, k, henter,
          hreach.next hpass⟩
      · -- the section is left, and the machine catches up with all of it
        obtain ⟨a', hstep', hR'⟩ :=
          h.follows hR (.inside henter (hreach.leaves_iff.mpr (.leave hpass)))
        refine ⟨_, s', a', hM.snoc hstep', ?_, hR', rfl⟩
        rw [List.map_append, hanswers, answers_concat]
        rfl

/-- The section of the thread that has the lock, from its beginning. -/
theorem Refines.exists_midway (h : L.Refines M R) (h₀ : R s₀ ts₀ a₀)
    (hrun : L.machine.Run ⟨s₀, ts₀, none⟩ tr c) {g : CriticalSection ε κ} (hg : g ∈ c.holder) :
    ∃ s a k, R s c.threads a ∧ L.enter (c.threads (L.thread g.request)) g.request = .ok k ∧
      Loop.Reaches L.access (s, k) (c.shared, g.locals) := by
  obtain ⟨-, s, a, -, -, hR, hmid⟩ := h.exists_run h₀ hrun
  rw [Midway, hg] at hmid
  obtain ⟨k, henter, hreach⟩ := hmid
  exact ⟨s, a, k, hR, henter, hreach⟩

theorem Atomic.refines (h : L.Atomic M abs I) :
    L.Refines M fun s ts a ↦ a = abs s ts ∧ I s := by
  constructor
  rintro s ts a e s' ts' r ⟨rfl, hs⟩ hwhole
  exact ⟨abs s' ts', (h.step_iff hs).mpr ⟨s', ts', rfl, hwhole⟩, rfl, h.keeps hs hwhole⟩

theorem lock_mem_of_run {s : σ} {ts : ι → θ} (hrun : L.machine.Run ⟨s, ts, none⟩ tr c) :
    ∀ g ∈ c.holder, .lock g.request ∈ tr.map Move.event := by
  induction hrun with
  | nil => exact fun g hg ↦ by cases hg
  | snoc _ hstep ih =>
    intro g hg
    rw [List.map_append, List.mem_append]
    rcases step_cases hstep with ⟨q, t, r', rfl, -, -, rfl, -⟩ | ⟨q, k, rfl, -, -, rfl, -⟩ |
      ⟨g', -, hg', ⟨s', k, -, rfl, -⟩ | ⟨s', t, r', -, rfl, -⟩⟩
    · exact .inl (ih g hg)
    · obtain rfl : ⟨q, k⟩ = g := Option.some.inj hg
      exact .inr (List.mem_singleton_self _)
    · obtain rfl : ⟨g'.request, k⟩ = g := Option.some.inj hg
      exact .inl (ih g' hg')
    · cases hg

theorem mem_of_answers {s : σ} {ts : ι → θ} (hrun : L.machine.Run ⟨s, ts, none⟩ tr c) :
    ∀ a ∈ answers tr, .outside a.1 ∈ tr.map Move.event ∨ .lock a.1 ∈ tr.map Move.event := by
  induction hrun with
  | nil => exact fun a ha ↦ by cases ha
  | snoc hrun hstep ih =>
    intro a ha
    rw [answers_concat, List.mem_append, Option.mem_toList] at ha
    rw [List.map_append, List.mem_append, List.mem_append]
    rcases ha with ha | ha
    · exact (ih a ha).imp .inl .inl
    rcases step_cases hstep with ⟨q, t, r', rfl, -, -, -, rfl⟩ | ⟨q, k, -, -, -, -, rfl⟩ |
      ⟨g, -, hg, ⟨s', k, -, -, rfl⟩ | ⟨s', t, r', -, -, rfl⟩⟩
    · cases ha
      exact .inl (.inr (List.mem_singleton_self _))
    · cases ha
    · cases ha
    · cases ha
      exact .inr (.inl (lock_mem_of_run hrun g hg))

/-- Accesses alone bring a section to its end, or further on. -/
private theorem leaves_or_reaches {s : σ} {ts : ι → θ} {g : CriticalSection ε κ}
    (hrun : L.machine.Run ⟨s, ts, some g⟩ tr c) (hevents : ∀ m ∈ tr, m.event = .access) :
    (∃ y, Loop.Leaves L.access (s, g.locals) y) ∨
      ∃ g', c.holder = some g' ∧ Loop.Reaches L.access (s, g.locals) (c.shared, g'.locals) := by
  induction hrun with
  | nil => exact .inr ⟨g, rfl, .refl⟩
  | snoc _ hstep ih =>
    rw [List.forall_mem_append, List.forall_mem_singleton] at hevents
    rcases ih hevents.1 with hleaves | ⟨g', hg', hreach⟩
    · exact .inl hleaves
    rcases step_cases hstep with ⟨q, _, _, rfl, -⟩ | ⟨q, _, rfl, -⟩ | ⟨g₁, -, hg₁, hacc⟩
    · cases hevents.2
    · cases hevents.2
    obtain rfl : g' = g₁ := Option.some.inj (hg'.symm.trans hg₁)
    rcases hacc with ⟨s', k', hpass, rfl, -⟩ | ⟨s', t, r', hpass, -, -⟩
    · exact .inr ⟨_, rfl, hreach.next hpass⟩
    · exact .inl ⟨_, hreach.leaves_iff.mpr (.leave hpass)⟩

/-! ## From whole requests to the protocol -/

theorem exists_run_of_leaves {x : σ × κ} {y : σ × θ × ρ} (h : Loop.Leaves L.access x y)
    (ts : ι → θ) (e : ε) : ∃ tr, L.machine.Run ⟨x.1, ts, some ⟨e, x.2⟩⟩ tr
        ⟨y.1, update ts (L.thread e) y.2.1, none⟩ ∧
      (∀ m ∈ tr, m.event = .access) ∧ answers tr = [(e, y.2.2)] := by
  induction h with
  | @leave x y hpass =>
    obtain ⟨s, k⟩ := x
    obtain ⟨s', t, r⟩ := y
    have hstep : L.machine.step ⟨s, ts, some ⟨e, k⟩⟩ .access
        = .ok (⟨s', update ts (L.thread e) t, none⟩, some (e, r)) := by
      simp only [machine_step, step, hpass]
    exact ⟨_, .snoc .nil hstep, by simp, rfl⟩
  | @next x x' y hpass _ ih =>
    obtain ⟨s, k⟩ := x
    obtain ⟨s', k'⟩ := x'
    obtain ⟨tr, hrun, hevents, hanswers⟩ := ih
    have hstep : L.machine.step ⟨s, ts, some ⟨e, k⟩⟩ .access
        = .ok (⟨s', ts, some ⟨e, k'⟩⟩, none) := by
      simp only [machine_step, step, hpass]
    exact ⟨_, .cons hstep hrun, List.forall_mem_cons.mpr ⟨rfl, hevents⟩, hanswers⟩

theorem exists_run_of_whole {s s' : σ} {ts ts' : ι → θ} {e : ε} {r : ρ}
    (h : L.Whole s ts e s' ts' r) :
    ∃ tr, L.machine.Run ⟨s, ts, none⟩ tr ⟨s', ts', none⟩ ∧ answers tr = [(e, r)] := by
  cases h with
  | @outside t r hout =>
    have hstep : L.machine.step ⟨s, ts, none⟩ (.outside e)
        = .ok (⟨s, update ts (L.thread e) t, none⟩, some (e, r)) := by
      simp only [machine_step, step, hout]
      exact if_neg nofun
    exact ⟨_, .snoc .nil hstep, rfl⟩
  | @inside k _ _ _ henter hleaves =>
    obtain ⟨tr, hrun, -, hanswers⟩ := exists_run_of_leaves hleaves ts e
    have hstep : L.machine.step ⟨s, ts, none⟩ (.lock e) = .ok (⟨s, ts, some ⟨e, k⟩⟩, none) := by
      simp only [machine_step, step, henter]
    exact ⟨_, .cons hstep hrun, hanswers⟩

theorem Atomic.exists_run_of_run (h : L.Atomic M abs I) (hI : I s₀) {tr' : List (Move α ε ρ)}
    {a : α} (hrun : M.Run (abs s₀ ts₀) tr' a) :
    ∃ tr s ts, L.machine.Run ⟨s₀, ts₀, none⟩ tr ⟨s, ts, none⟩ ∧ a = abs s ts ∧ I s ∧
      answers tr = tr'.map Move.answer := by
  induction hrun with
  | nil => exact ⟨[], s₀, ts₀, .nil, rfl, hI, rfl⟩
  | snoc _ hstep ih =>
    obtain ⟨tr, s, ts, hL, rfl, hs, hanswers⟩ := ih
    obtain ⟨s', ts', rfl, hwhole⟩ := (h.step_iff hs).mp hstep
    obtain ⟨tr₁, hL₁, hanswers₁⟩ := exists_run_of_whole hwhole
    refine ⟨tr ++ tr₁, s', ts', hL.trans hL₁, rfl, h.keeps hs hwhole, ?_⟩
    rw [answers, List.filterMap_append, List.map_append, ← answers, ← answers, hanswers, hanswers₁]
    rfl

/-- **Atomicity.** What the protocol answers, and the state it is in whenever the lock is free, are
exactly those of the machine. -/
theorem Atomic.history_iff (h : L.Atomic M abs I) (hI : I s₀) {history : List (ε × ρ)} {a : α} :
    (∃ tr c, L.machine.Run ⟨s₀, ts₀, none⟩ tr c ∧ c.holder = none ∧ a = abs c.shared c.threads ∧
        answers tr = history) ↔
      ∃ tr', M.Run (abs s₀ ts₀) tr' a ∧ tr'.map Move.answer = history := by
  constructor
  · rintro ⟨tr, c, hrun, hfree, rfl, rfl⟩
    obtain ⟨tr', s, _, hM, hanswers, ⟨rfl, -⟩, hmid⟩ := h.refines.exists_run ⟨rfl, hI⟩ hrun
    rw [hmid.shared_eq hfree]
    exact ⟨tr', hM, hanswers⟩
  · rintro ⟨tr', hM, rfl⟩
    obtain ⟨tr, s, ts, hrun, rfl, -, hanswers⟩ := h.exists_run_of_run hI hM
    exact ⟨tr, _, hrun, rfl, rfl, hanswers⟩

/-- **When the lock is released.** A thread that has the lock can answer its request with accesses
alone, and the lock is free then, exactly when its section leaves. -/
theorem released_iff {c : Locked ι σ θ ε κ} :
    (∃ tr c', L.machine.Run c tr c' ∧ (∀ m ∈ tr, m.event = .access) ∧ c'.holder = none ∧
        (answers tr).map Prod.fst = c.holder.toList.map CriticalSection.request) ↔
      ∀ g ∈ c.holder, ∃ y, Loop.Leaves L.access (c.shared, g.locals) y := by
  obtain ⟨shared, threads, holder⟩ := c
  constructor
  · rintro ⟨tr, c', hrun, hevents, hfree, -⟩ g rfl
    exact (leaves_or_reaches hrun hevents).resolve_right fun ⟨g', hg', _⟩ ↦
      absurd (hfree.symm.trans hg') (by simp)
  · intro h
    cases holder with
    | none => exact ⟨[], _, .nil, by simp, rfl, rfl⟩
    | some g =>
      obtain ⟨y, hy⟩ := h g rfl
      obtain ⟨tr, hrun, hevents, hanswers⟩ := exists_run_of_leaves hy threads g.request
      exact ⟨tr, _, hrun, hevents, rfl, by rw [hanswers]; rfl⟩

/-- **The lock is released.** If the sections for requests of some kind leave when they are on their
own, then a thread that has the lock for such a request answers it after finitely many accesses,
none of which fails, and the lock is free again. -/
theorem Refines.released {A : ε → Prop} (h : L.Refines M R) (h₀ : R s₀ ts₀ a₀)
    (htotal : ∀ {s ts a e k}, R s ts a → A e → L.enter (ts (L.thread e)) e = .ok k →
      ∃ y, Loop.Leaves L.access (s, k) y)
    (hrun : L.machine.Run ⟨s₀, ts₀, none⟩ tr c) (hA : ∀ g ∈ c.holder, A g.request) :
    ∃ tr' c', L.machine.Run c tr' c' ∧ (∀ m ∈ tr', m.event = .access) ∧ c'.holder = none ∧
      (answers tr').map Prod.fst = c.holder.toList.map CriticalSection.request := by
  refine released_iff.mpr fun g hg ↦ ?_
  obtain ⟨s, a, k, hR, henter, hreach⟩ := h.exists_midway h₀ hrun hg
  obtain ⟨y, hy⟩ := htotal hR (hA g hg) henter
  exact ⟨y, hreach.leaves_iff.mp hy⟩

end Runs

end Locking

end Aesd
