import Aesd.Foundation.Ranks
import Aesd.Server.ThreadList

/-!
# The end of the server

After the signal that asks for the exit, the main thread leaves its accept loop and `cleanup` joins
the threads of the list. What it can still do is counted: `Pc.Cost` is the number of steps that the
main thread has at most before it, and `Phase.cost` the number of steps of a connection thread, so
`Threads.Rank` is a rank of the states after the signal.

Every step lowers the rank and some step is always possible, so the server comes to its end whatever
the order of the steps (`shutdown_terminates`). At most one more connection is accepted on the way
(`creates_at_most_once`).

## What counts as a step

The bound counts steps that are taken. A call that blocks is a step that its thread can take,
whatever the call returns; so the server comes to its end provided that `accept` and the calls by
which the threads serve their clients return. The signal does not wake the main thread from an
`accept` that begins after the test of the loop, a client that stays silent is never asked again,
and one that stops reading keeps its thread in `send`, with `file_mutex`.

## The rank

The main thread sweeps its list once more at most before it comes to `cleanup`, and then once in
`cleanup`; each node costs three steps in the first sweep and two in the second. A thread that is
created on the way has three steps of its own, and a node to be removed. These are the numbers in
`Pc.Cost`.
-/

namespace Aesd

open Chain Machine

/-! ## Costs -/

/-- How many steps a connection thread has still to take. -/
def Phase.cost : Phase → ℕ
  | .started => 3
  | .serving => 2
  | .closing => 1
  | .returned => 0

/-- How many steps the main thread has still to take at most, after the exit was requested, from a
place in the list. A place of the accept loop has the rest of its round before it: a node to add to
the list, and the sweep. -/
inductive Pc.Cost (l : List (ℕ × SlistData)) : Pc → ℕ → Prop
  | loopTest : Cost l .loopTest (2 * l.length + 2)
  | accept : Cost l .accept (5 * l.length + 15)
  | alloc (sock : Int32) : Cost l (.alloc sock) (5 * l.length + 14)
  | create (a : ℕ) : Cost l (.create a) (5 * l.length + 13)
  | add (a i : ℕ) : Cost l (.add a i) (5 * l.length + 9)
  | sweepTest {l₁ l₂ : List (ℕ × SlistData)} (h : l = l₁ ++ l₂) :
      Cost l (.sweepTest (firstId l₂)) (3 * l₂.length + 2 * l.length + 3)
  | sweepCheck {l₁ l₂ : List (ℕ × SlistData)} {node : ℕ} {d : SlistData}
      (h : l = l₁ ++ (node, d) :: l₂) :
      Cost l (.sweepCheck node (firstId l₂)) (3 * l₂.length + 2 * l.length + 5)
  | sweepJoin {l₁ l₂ : List (ℕ × SlistData)} {node : ℕ} {d : SlistData}
      (h : l = l₁ ++ (node, d) :: l₂) :
      Cost l (.sweepJoin node (firstId l₂)) (3 * l₂.length + 2 * l.length + 4)
  | cleanupTest : Cost l (.cleanupTest (firstId l)) (2 * l.length + 1)
  | cleanupJoin {l₂ : List (ℕ × SlistData)} {node : ℕ} {d : SlistData} (h : l = (node, d) :: l₂) :
      Cost l (.cleanupJoin node (firstId l₂)) (2 * l.length)
  | returned (h : l = []) : Cost l .returned 0

theorem Pc.At.exists_cost {l : List (ℕ × SlistData)} {pc : Pc} (h : pc.At l) :
    ∃ k, pc.Cost l k ∧ k + 3 * pc.pending.length ≤ 5 * l.length + 15 := by
  cases pc with
  | loopTest => exact ⟨_, .loopTest, by simp only [pending, List.length_nil]; omega⟩
  | accept => exact ⟨_, .accept, Nat.le_refl _⟩
  | alloc sock => exact ⟨_, .alloc sock, by simp only [pending, List.length_nil]; omega⟩
  | create a => exact ⟨_, .create a, by simp only [pending, List.length_nil]; omega⟩
  | add a i => exact ⟨_, .add a i, by simp only [pending, List.length_singleton]; omega⟩
  | sweepTest p =>
    obtain ⟨l₁, l₂, rfl, rfl⟩ := h
    refine ⟨_, .sweepTest rfl, ?_⟩
    simp only [pending, List.length_nil, List.length_append]
    omega
  | sweepCheck node tmp =>
    obtain ⟨l₁, d, l₂, rfl, rfl⟩ := h
    refine ⟨_, .sweepCheck rfl, ?_⟩
    simp only [pending, List.length_nil, List.length_append, List.length_cons]
    omega
  | sweepJoin node tmp =>
    obtain ⟨l₁, d, l₂, rfl, rfl⟩ := h
    refine ⟨_, .sweepJoin rfl, ?_⟩
    simp only [pending, List.length_nil, List.length_append, List.length_cons]
    omega
  | cleanupTest p =>
    obtain rfl : p = firstId l := h
    exact ⟨_, .cleanupTest, by simp only [pending, List.length_nil]; omega⟩
  | cleanupJoin node tmp =>
    obtain ⟨d, l₂, rfl, rfl⟩ := h
    refine ⟨_, .cleanupJoin rfl, ?_⟩
    simp only [pending, List.length_nil, List.length_cons]
    omega
  | returned =>
    obtain rfl : l = [] := h
    exact ⟨_, .returned rfl, Nat.zero_le _⟩

theorem Pc.Cost.position {l : List (ℕ × SlistData)} {pc : Pc} {k : ℕ} (h : pc.Cost l k) :
    pc.At l := by
  cases h with
  | sweepTest h => exact ⟨_, _, h, rfl⟩
  | sweepCheck h => exact ⟨_, _, _, h, rfl⟩
  | sweepJoin h => exact ⟨_, _, _, h, rfl⟩
  | cleanupTest => exact rfl
  | cleanupJoin h => exact ⟨_, _, h, rfl⟩
  | returned h => exact h
  | _ => exact trivial

/-- How many steps the thread with an identifier has still to take. -/
def threadCost : Option Thread → ℕ
  | none => 0
  | some thread => thread.phase.cost

theorem threadCost_le (t : Option Thread) : threadCost t ≤ 3 := by
  rcases t with _ | ⟨a, phase⟩
  · exact Nat.zero_le 3
  · cases phase <;> simp [threadCost, Phase.cost]

/-- How many steps some threads have still to take. -/
def work (threads : ℕ → Option Thread) (owned : List SlistData) : ℕ :=
  totalRank threadCost threads (owned.map SlistData.threadId)

section Work

variable {threads : ℕ → Option Thread} {owned owned' : List SlistData} {d : SlistData}
  {t : Option Thread}

theorem work_perm (h : owned.Perm owned') : work threads owned = work threads owned' :=
  totalRank_perm threadCost (h.map _)

theorem work_cons :
    work threads (d :: owned) = threadCost (threads d.threadId) + work threads owned :=
  totalRank_cons threadCost

theorem work_le (threads : ℕ → Option Thread) (owned : List SlistData) :
    work threads owned ≤ 3 * owned.length := by
  have hle := @totalRank_le _ _ threadCost threads (owned.map SlistData.threadId) _ threadCost_le
  rwa [List.length_map] at hle

theorem work_update_lt (hnodup : (owned.map SlistData.threadId).Nodup) (hd : d ∈ owned)
    (hlt : threadCost t < threadCost (threads d.threadId)) :
    work (Function.update threads d.threadId t) owned < work threads owned :=
  totalRank_update_lt threadCost hnodup (List.mem_map_of_mem hd) hlt

end Work

namespace Threads

variable {s s' : Threads} {l l₁ l₂ : List (ℕ × SlistData)} {lost : List SlistData} {r : ThreadReply}
  {node i k n : ℕ} {d : SlistData} {pc : Pc} {answer : Answer}

/-- After the exit was requested, at most `n` steps are left. -/
def Rank (s : Threads) (n : ℕ) : Prop :=
  s.exitRequested = true ∧ ∃ l lost k, Linked s s.pc.fresh s.pc.pending l lost ∧ s.pc.Cost l k ∧
    n = k + work s.threads (s.pc.pending ++ (l.map Prod.snd ++ lost))

/-! ## Every step lowers the rank -/

private theorem rank_goto (hexit : s.exitRequested = true) (h : Linked s none [] l lost) (pc : Pc)
    (hfresh : pc.fresh = none) (hpending : pc.pending = []) {k' : ℕ} (hcost : pc.Cost l k')
    (hlt : k' < k) :
    ∃ m < k + work s.threads ([] ++ (l.map Prod.snd ++ lost)),
      ({ s with pc } : Threads).Rank m := by
  refine ⟨_, Nat.add_lt_add_right hlt _, hexit, l, lost, k', ?_, hcost, ?_⟩
  · rw [hfresh, hpending]
    exact ⟨h.chain, h.nodup, h.owns⟩
  · rw [hpending]

private theorem rank_joinAndRemove (hexit : s.exitRequested = true)
    (h : Linked s none [] (l₁ ++ (node, d) :: l₂) lost) (hfresh : pc.fresh = none)
    (hpending : pc.pending = []) {k' : ℕ} (hcost : pc.Cost (l₁ ++ l₂) k') (hlt : k' < k)
    (hstep : s.joinAndRemove node pc = .ok (s', r)) :
    ∃ m < k + work s.threads ([] ++ ((l₁ ++ (node, d) :: l₂).map Prod.snd ++ lost)), s'.Rank m := by
  obtain ⟨data, -, -, hdata, -, -, hthreads, -, hpc, hexit'⟩ := joinAndRemove_eq_ok hstep
  rw [get_node h, Except.ok.injEq] at hdata
  subst hdata
  rcases joinAndRemove_spec h pc hfresh hpending hcost.position with hwait | ⟨s₁, hstep₁, hinv⟩
  · rw [hwait] at hstep
    cases hstep
  rw [hstep, Except.ok.injEq, Prod.mk.injEq] at hstep₁
  obtain ⟨rfl, -⟩ := hstep₁
  refine ⟨_, ?_, hexit'.trans hexit, _, _, k', hinv.linked, by rwa [hpc], rfl⟩
  have hperm : ((l₁ ++ (node, d) :: l₂).map Prod.snd ++ lost).Perm
      (d :: ((l₁ ++ l₂).map Prod.snd ++ lost)) := by
    simp only [List.map_append, List.map_cons, List.append_assoc, List.cons_append]
    exact List.perm_middle
  have hnotMem := (List.nodup_cons.mp (h.owns.perm hperm).nodup_ids).1
  rw [hpc, hpending, hthreads, List.nil_append, List.nil_append, work_perm hperm, work_cons,
    work, totalRank_update_of_notMem threadCost hnotMem, ← work]
  omega

private theorem cost_cleanupTest (h : Linked s none [] l lost) :
    (Pc.cleanupTest s.head).Cost l (2 * l.length + 1) := by
  rw [h.chain.eq_firstId]
  exact .cleanupTest

private theorem rank_acceptStep (hexit : s.exitRequested = true)
    (hlinked : Linked s s.pc.fresh s.pc.pending l lost) (hcost : s.pc.Cost l k)
    (hpc : s.pc = .loopTest ∨ s.pc = .accept ∨ ∃ sock, s.pc = .alloc sock)
    (hstep : s.mainStep answer = .ok (s', r)) :
    ∃ m < k + work s.threads (s.pc.pending ++ (l.map Prod.snd ++ lost)), s'.Rank m := by
  rcases hpc with hpc | hpc | ⟨sock, hpc⟩
  · rw [hpc] at hlinked hcost ⊢
    cases hcost
    rw [mainStep, hpc] at hstep
    dsimp only at hstep
    rw [if_pos hexit] at hstep
    cases hstep
    exact rank_goto hexit hlinked _ rfl rfl (cost_cleanupTest hlinked) (Nat.lt_succ_self _)
  · rw [hpc] at hlinked hcost ⊢
    cases hcost
    rw [mainStep, hpc] at hstep
    dsimp only at hstep
    split at hstep
    · rw [if_pos hexit] at hstep
      cases hstep
      exact rank_goto hexit hlinked _ rfl rfl (cost_cleanupTest hlinked) (by omega)
    · rename_i sock _
      cases hstep
      exact rank_goto hexit hlinked _ rfl rfl (.alloc sock) (Nat.lt_succ_self _)
  · rw [hpc] at hlinked hcost ⊢
    cases hcost
    rw [mainStep, hpc] at hstep
    dsimp only at hstep
    split at hstep
    · cases hstep
      refine ⟨_, ?_, hexit, l, lost, _, ⟨hlinked.chain, hlinked.nodup, hlinked.owns.alloc sock⟩,
        .create _, rfl⟩
      exact Nat.add_lt_add_right (Nat.lt_succ_self _) _
    · cases hstep
      have hlt : 2 * l.length + 2 < 5 * l.length + 14 := by omega
      exact rank_goto hexit hlinked _ rfl rfl .loopTest hlt

/-- `pthread_create`, which gives a thread three steps to take. -/
private theorem rank_createStep {a : ℕ} (hexit : s.exitRequested = true)
    (hlinked : Linked s s.pc.fresh s.pc.pending l lost) (hcost : s.pc.Cost l k)
    (hpc : s.pc = .create a) (hstep : s.mainStep answer = .ok (s', r)) :
    ∃ m < k + work s.threads (s.pc.pending ++ (l.map Prod.snd ++ lost)), s'.Rank m := by
  rw [hpc] at hlinked hcost ⊢
  cases hcost
  rw [mainStep, hpc] at hstep
  dsimp only at hstep
  split at hstep
  · obtain ⟨args, hfree, hstep⟩ := exists_of_bind_eq_ok hstep
    cases hstep
    obtain ⟨args', hfree', howns⟩ := hlinked.owns.discard
    rw [ThreadError.lift_eq_ok hfree, Except.ok.injEq] at hfree'
    subst hfree'
    have hlt : 2 * l.length + 2 < 5 * l.length + 13 := by omega
    exact ⟨_, Nat.add_lt_add_right hlt _, hexit, l, lost, _,
      ⟨hlinked.chain, hlinked.nodup, howns⟩, .loopTest, rfl⟩
  · rename_i i _
    split at hstep
    swap
    · cases hstep
    rename_i hi
    cases hstep
    have howns := hlinked.owns.create hi
    have hnotMem := (List.nodup_cons.mp howns.nodup_ids).1
    refine ⟨_, ?_, hexit, l, lost, _, ⟨hlinked.chain, hlinked.nodup, howns⟩, .add a i, rfl⟩
    simp only [Pc.pending, List.cons_append, List.nil_append, work_cons, Function.update_self,
      threadCost, Phase.cost] at hnotMem ⊢
    rw [work, totalRank_update_of_notMem threadCost hnotMem, ← work]
    omega

/-- `add_node`, after which the sweep has the whole list before it. -/
private theorem rank_addStep {a : ℕ} (hexit : s.exitRequested = true)
    (hlinked : Linked s s.pc.fresh s.pc.pending l lost) (hcost : s.pc.Cost l k)
    (hpc : s.pc = .add a i) (hstep : s.mainStep answer = .ok (s', r)) :
    ∃ m < k + work s.threads (s.pc.pending ++ (l.map Prod.snd ++ lost)), s'.Rank m := by
  rw [hpc] at hlinked hcost ⊢
  cases hcost
  rw [mainStep, hpc] at hstep
  cases hstep
  cases hgranted : answer.granted with
  | true =>
    obtain ⟨hadd, hhead⟩ := addNode_granted hlinked
    have hexit' : (s.addNode ⟨a, i⟩ true).exitRequested = true := hexit
    have hcost : (Pc.sweepTest (s.addNode ⟨a, i⟩ true).head).Cost ((s.nodes.next, ⟨a, i⟩) :: l)
        (3 * (l.length + 1) + 2 * (l.length + 1) + 3) := by
      rw [hhead]
      exact .sweepTest (List.nil_append _).symm
    have hlt : 3 * (l.length + 1) + 2 * (l.length + 1) + 3 < 5 * l.length + 9 := by omega
    exact rank_goto hexit' hadd _ rfl rfl hcost hlt
  | false =>
    have hadd := addNode_refused hlinked
    have hcost : (Pc.sweepTest s.head).Cost l (3 * l.length + 2 * l.length + 3) := by
      rw [hlinked.chain.eq_firstId]
      exact .sweepTest (List.nil_append _).symm
    have hlt : 3 * l.length + 2 * l.length + 3 < 5 * l.length + 9 := by omega
    have hexit' : (s.addNode ⟨a, i⟩ false).exitRequested = true := hexit
    have hgoto := rank_goto hexit' hadd _ rfl rfl hcost hlt
    have hperm : (l.map Prod.snd ++ (lost ++ [(⟨a, i⟩ : SlistData)])).Perm
        (⟨a, i⟩ :: (l.map Prod.snd ++ lost)) := by
      rw [← List.append_assoc]
      exact List.perm_append_singleton ..
    rwa [List.nil_append, work_perm hperm] at hgoto

private theorem rank_sweepStep (hexit : s.exitRequested = true)
    (hlinked : Linked s s.pc.fresh s.pc.pending l lost) (hcost : s.pc.Cost l k)
    (hpc : (∃ p, s.pc = .sweepTest p) ∨ (∃ node tmp, s.pc = .sweepCheck node tmp) ∨
      ∃ node tmp, s.pc = .sweepJoin node tmp)
    (hstep : s.mainStep answer = .ok (s', r)) :
    ∃ m < k + work s.threads (s.pc.pending ++ (l.map Prod.snd ++ lost)), s'.Rank m := by
  rcases hpc with ⟨p, hpc⟩ | ⟨node, tmp, hpc⟩ | ⟨node, tmp, hpc⟩
  · rw [hpc] at hlinked hcost ⊢
    rw [mainStep, hpc] at hstep
    cases hcost with
    | @sweepTest l₁ l₂ h =>
      subst h
      rcases l₂ with _ | ⟨⟨node, d⟩, l₂⟩
      · cases hstep
        have hlt : 2 * (l₁ ++ []).length + 2 < 3 * 0 + 2 * (l₁ ++ []).length + 3 := by omega
        exact rank_goto hexit hlinked _ rfl rfl .loopTest hlt
      · simp only [firstId_cons, get_node hlinked, ThreadError.lift_ok, ok_bind,
          pure_eq_ok] at hstep
        cases hstep
        refine rank_goto hexit hlinked _ rfl rfl (.sweepCheck rfl) ?_
        rw [List.length_cons]
        omega
  · rw [hpc] at hlinked hcost ⊢
    rw [mainStep, hpc] at hstep
    cases hcost with
    | @sweepCheck l₁ l₂ node d h =>
      subst h
      obtain ⟨phase, sock, -, hholds⟩ := hlinked.owns.thread d (by simp)
      simp only [get_node hlinked, Heap.get_of_holds hholds, ThreadError.lift_ok, ok_bind,
        pure_eq_ok] at hstep
      split at hstep
      · cases hstep
        exact rank_goto hexit hlinked _ rfl rfl (.sweepJoin rfl) (Nat.lt_succ_self _)
      · cases hstep
        have hsplit : l₁ ++ (node, d) :: l₂ = (l₁ ++ [(node, d)]) ++ l₂ := by simp
        exact rank_goto hexit hlinked _ rfl rfl (.sweepTest hsplit) (by omega)
  · rw [hpc] at hlinked hcost ⊢
    rw [mainStep, hpc] at hstep
    cases hcost with
    | @sweepJoin l₁ l₂ node d h =>
      subst h
      refine rank_joinAndRemove hexit hlinked rfl rfl (.sweepTest rfl) ?_ hstep
      simp only [List.length_append, List.length_cons]
      omega

private theorem rank_cleanupStep (hexit : s.exitRequested = true)
    (hlinked : Linked s s.pc.fresh s.pc.pending l lost) (hcost : s.pc.Cost l k)
    (hpc : (∃ p, s.pc = .cleanupTest p) ∨ ∃ node tmp, s.pc = .cleanupJoin node tmp)
    (hstep : s.mainStep answer = .ok (s', r)) :
    ∃ m < k + work s.threads (s.pc.pending ++ (l.map Prod.snd ++ lost)), s'.Rank m := by
  rcases hpc with ⟨p, hpc⟩ | ⟨node, tmp, hpc⟩
  · rw [hpc] at hlinked hcost ⊢
    rw [mainStep, hpc] at hstep
    cases hcost
    rcases l with _ | ⟨⟨node, d⟩, l⟩
    · cases hstep
      exact rank_goto hexit hlinked _ rfl rfl (.returned rfl) (Nat.succ_pos _)
    · have hnode := @get_node s [] l lost _ _ node d hlinked
      simp only [firstId_cons, hnode, ThreadError.lift_ok, ok_bind, pure_eq_ok] at hstep
      cases hstep
      exact rank_goto hexit hlinked _ rfl rfl (.cleanupJoin rfl) (Nat.lt_succ_self _)
  · rw [hpc] at hlinked hcost ⊢
    rw [mainStep, hpc] at hstep
    cases hcost with
    | @cleanupJoin l₂ node d h =>
      subst h
      refine @rank_joinAndRemove s s' [] l₂ lost r node _ d _ hexit hlinked rfl rfl _ .cleanupTest
        ?_ hstep
      rw [List.nil_append, List.length_cons]
      omega

private theorem mainStep_lowers (h : s.Rank n) (hstep : s.mainStep answer = .ok (s', r)) :
    ∃ m < n, s'.Rank m := by
  obtain ⟨hexit, l, lost, k, hlinked, hcost, rfl⟩ := h
  cases hpc : s.pc with
  | loopTest => exact hpc ▸ rank_acceptStep hexit hlinked hcost (.inl hpc) hstep
  | accept => exact hpc ▸ rank_acceptStep hexit hlinked hcost (.inr (.inl hpc)) hstep
  | alloc sock => exact hpc ▸ rank_acceptStep hexit hlinked hcost (.inr (.inr ⟨sock, hpc⟩)) hstep
  | create a => exact hpc ▸ rank_createStep hexit hlinked hcost hpc hstep
  | add a i => exact hpc ▸ rank_addStep hexit hlinked hcost hpc hstep
  | sweepTest p => exact hpc ▸ rank_sweepStep hexit hlinked hcost (.inl ⟨p, hpc⟩) hstep
  | sweepCheck node tmp =>
    exact hpc ▸ rank_sweepStep hexit hlinked hcost (.inr (.inl ⟨node, tmp, hpc⟩)) hstep
  | sweepJoin node tmp =>
    exact hpc ▸ rank_sweepStep hexit hlinked hcost (.inr (.inr ⟨node, tmp, hpc⟩)) hstep
  | cleanupTest p => exact hpc ▸ rank_cleanupStep hexit hlinked hcost (.inl ⟨p, hpc⟩) hstep
  | cleanupJoin node tmp =>
    exact hpc ▸ rank_cleanupStep hexit hlinked hcost (.inr ⟨node, tmp, hpc⟩) hstep
  | returned =>
    rw [mainStep, hpc] at hstep
    cases hstep

private theorem connectorStep_threads (h : s.connectorStep i = .ok s') :
    ∃ thread phase, s.threads i = some thread ∧ phase.cost < thread.phase.cost ∧
      s'.exitRequested = s.exitRequested ∧ s'.pc = s.pc ∧
      s'.threads = Function.update s.threads i (some ⟨thread.threadArg, phase⟩) := by
  rcases connectorStep_eq_ok h with ⟨a, -, ht, -, rfl⟩ | ⟨a, -, -, ht, -, -, rfl⟩ | ⟨a, ht, rfl⟩
  · exact ⟨_, .serving, ht, Nat.lt_succ_self _, rfl, rfl, rfl⟩
  · exact ⟨_, .closing, ht, Nat.lt_succ_self _, rfl, rfl, rfl⟩
  · exact ⟨_, .returned, ht, Nat.lt_succ_self _, rfl, rfl, rfl⟩

private theorem connectorStep_lowers (h : s.Rank n) (hstep : s.connectorStep i = .ok s') :
    ∃ m < n, s'.Rank m := by
  obtain ⟨hexit, l, lost, k, hlinked, hcost, rfl⟩ := h
  obtain ⟨thread, phase, ht, hlt, hexit', -, hthreads⟩ := connectorStep_threads hstep
  rcases connectorStep_spec hlinked i with hwait | ⟨s₁, hstep₁, hpc, -, hlinked'⟩
  · rw [hwait] at hstep
    cases hstep
  rw [hstep, Except.ok.injEq] at hstep₁
  subst hstep₁
  refine ⟨_, ?_, hexit'.trans hexit, l, lost, k, by rwa [hpc], by rwa [hpc], rfl⟩
  obtain ⟨_, hmem, -⟩ := hlinked.owns.holds ht
  rw [hpc, hthreads]
  apply Nat.add_lt_add_left
  apply work_update_lt hlinked.owns.nodup_ids hmem
  rw [ht]
  exact hlt

/-! ## Some step is possible -/

private theorem exists_of_lift_bind_eq_disabled {α β : Type} {x : Except Fault α}
    {f : α → Except ThreadError β} (h : (ThreadError.lift x >>= f) = .error .disabled) :
    ∃ a, x = .ok a ∧ f a = .error .disabled := by
  cases x with
  | error e => cases h
  | ok a => exact ⟨a, rfl, h⟩

private theorem exists_waitedFor (h : s.joinAndRemove node pc = .error .disabled) :
    ∃ i thread, s.threads i = some thread ∧ thread.phase ≠ .returned := by
  rw [joinAndRemove] at h
  obtain ⟨data, -, h⟩ := exists_of_lift_bind_eq_disabled h
  refine ⟨data.value.threadId, ?_⟩
  rw [join] at h
  split at h
  · cases h
  rename_i thread hthread
  split at h
  · obtain ⟨s₁, -, h⟩ := exists_of_lift_bind_eq_disabled h
    cases h
  · rename_i hphase
    exact ⟨thread, hthread, hphase⟩

private theorem exists_of_mainStep_eq_disabled
    (h : s.mainStep ⟨none, true, none⟩ = .error .disabled) :
    s.pc = .returned ∨ ∃ i thread, s.threads i = some thread ∧ thread.phase ≠ .returned := by
  rw [mainStep] at h
  split at h
  · cases h
  · cases h
  · cases h
  · obtain ⟨args, -, h⟩ := exists_of_lift_bind_eq_disabled h
    cases h
  · cases h
  · cases h
  · obtain ⟨data, -, h⟩ := exists_of_lift_bind_eq_disabled h
    cases h
  · obtain ⟨data, -, h⟩ := exists_of_lift_bind_eq_disabled h
    obtain ⟨arg, -, h⟩ := exists_of_lift_bind_eq_disabled h
    split at h <;> cases h
  · exact .inr (exists_waitedFor h)
  · cases h
  · obtain ⟨data, -, h⟩ := exists_of_lift_bind_eq_disabled h
    cases h
  · exact .inr (exists_waitedFor h)
  · rename_i hpc
    exact .inl hpc

private theorem exists_connectorStep (h : s.Inv l lost) {thread : Thread}
    (ht : s.threads i = some thread) (hphase : thread.phase ≠ .returned) :
    ∃ s', s.connectorStep i = .ok s' := by
  rcases connectorStep_spec h.linked i with hwait | ⟨s', hstep, -⟩
  · obtain ⟨a, phase⟩ := thread
    rw [connectorStep, ht] at hwait
    cases phase with
    | started =>
      obtain ⟨arg, -, hwait⟩ := exists_of_lift_bind_eq_disabled hwait
      cases hwait
    | serving =>
      obtain ⟨arg, -, hwait⟩ := exists_of_lift_bind_eq_disabled hwait
      obtain ⟨args, -, hwait⟩ := exists_of_lift_bind_eq_disabled hwait
      cases hwait
    | closing => cases hwait
    | returned => exact absurd rfl hphase
  · exact ⟨s', hstep⟩

/-- Until `cleanup` has returned, the main thread can go on, or waits for a thread that can. -/
private theorem exists_step (h : s.Inv l lost) (hpc : s.pc ≠ .returned) :
    ∃ e s' r, e ≠ .signal ∧ s.step e = .ok (s', r) := by
  rcases step_spec h (.main ⟨none, true, none⟩) with hwait | ⟨s', r, _, hstep, -⟩
  · rcases exists_of_mainStep_eq_disabled hwait with hreturned | ⟨i, thread, ht, hphase⟩
    · exact absurd hreturned hpc
    · obtain ⟨s', hstep⟩ := exists_connectorStep h ht hphase
      refine ⟨.connector i, s', .quiet, ThreadEvent.noConfusion, ?_⟩
      rw [step, hstep]
  · exact ⟨_, s', r, ThreadEvent.noConfusion, hstep⟩

theorem ranked : machine.Ranked (· ≠ .signal) (fun s ↦ s.pc = .returned) Rank where
  lowers := by
    intro s n e s' r h he hstep
    cases e with
    | signal => exact absurd rfl he
    | main answer => exact mainStep_lowers h hstep
    | connector i =>
      rw [machine_step, step] at hstep
      split at hstep
      · cases hstep
      · rename_i hconnector
        cases hstep
        exact connectorStep_lowers h hconnector
  advances := by
    rintro s n ⟨-, l, lost, k, hlinked, hcost, -⟩ hpc
    exact exists_step ⟨hlinked, hcost.position⟩ hpc

def creates (m : ThreadMove) : Bool :=
  match m.pre.pc, m.event with
  | .create _, .main answer => answer.created.isSome
  | _, _ => false

/-- How many threads the main thread still creates after the exit was requested. -/
def toCreate : Pc → ℕ
  | .accept => 1
  | .alloc _ => 1
  | .create _ => 1
  | _ => 0

theorem addNode_exitRequested (s : Threads) (d : SlistData) (granted : Bool) :
    (s.addNode d granted).exitRequested = s.exitRequested := by
  rw [addNode]
  split <;> rfl

/-- The main thread does not come back to `accept`. -/
private theorem mainStep_toCreate (hexit : s.exitRequested = true)
    (h : s.mainStep answer = .ok (s', r)) :
    s'.exitRequested = true ∧
      (if creates ⟨s, .main answer, r⟩ then 1 else 0) + toCreate s'.pc ≤ toCreate s.pc := by
  rw [creates]
  rw [mainStep] at h
  split at h
  · rename_i hpc
    rw [if_pos hexit] at h
    cases h
    simp [toCreate, hpc, hexit]
  · rename_i hpc
    rw [if_pos hexit] at h
    split at h <;> cases h <;> simp [toCreate, hpc, hexit]
  · rename_i hpc
    split at h <;> cases h <;> simp [toCreate, hpc, hexit]
  · rename_i hpc
    split at h
    · rename_i hcreated
      obtain ⟨args, -, h⟩ := exists_of_bind_eq_ok h
      cases h
      simp [toCreate, hpc, hexit, hcreated]
    · rename_i hcreated
      split at h <;> cases h
      simp [toCreate, hpc, hexit, hcreated]
  · rename_i hpc
    cases h
    simp [toCreate, hpc, hexit, addNode_exitRequested]
  · rename_i hpc
    cases h
    simp [toCreate, hpc, hexit]
  · rename_i hpc
    obtain ⟨data, -, h⟩ := exists_of_bind_eq_ok h
    cases h
    simp [toCreate, hpc, hexit]
  · rename_i hpc
    obtain ⟨data, -, h⟩ := exists_of_bind_eq_ok h
    obtain ⟨arg, -, h⟩ := exists_of_bind_eq_ok h
    split at h <;> cases h <;> simp [toCreate, hpc, hexit]
  · rename_i hpc
    obtain ⟨-, -, -, -, -, -, -, -, hpc', hexit'⟩ := joinAndRemove_eq_ok h
    simp [toCreate, hpc, hpc', hexit'.trans hexit]
  · rename_i hpc
    cases h
    simp [toCreate, hpc, hexit]
  · rename_i hpc
    obtain ⟨data, -, h⟩ := exists_of_bind_eq_ok h
    cases h
    simp [toCreate, hpc, hexit]
  · rename_i hpc
    obtain ⟨-, -, -, -, -, -, -, -, hpc', hexit'⟩ := joinAndRemove_eq_ok h
    simp [toCreate, hpc, hpc', hexit'.trans hexit]
  · cases h

/-- **At most one more connection.** After the signal, whatever the order of the steps, the main
thread creates at most one more thread, and none when the signal came outside of `accept`, `malloc`
and `pthread_create`. -/
theorem creates_at_most_once (hexit : s.exitRequested = true) {tr : List ThreadMove}
    (hrun : machine.Run s tr s') : tr.countP creates ≤ toCreate s.pc := by
  suffices hrest : s'.exitRequested = true ∧ tr.countP creates + toCreate s'.pc ≤ toCreate s.pc from
    (Nat.le_add_right ..).trans hrest.2
  apply Run.invariant (I := fun tr t ↦ t.exitRequested = true ∧
    tr.countP creates + toCreate t.pc ≤ toCreate s.pc) ⟨hexit, ?_⟩ ?_ hrun
  · rw [List.countP_nil, Nat.zero_add]
  rintro tr t e t' r - ⟨hexit, hle⟩ hstep
  rw [List.countP_append, List.countP_singleton]
  cases e with
  | signal =>
    cases hstep
    refine ⟨rfl, ?_⟩
    simpa [creates] using hle
  | main answer =>
    obtain ⟨hexit', hle'⟩ := mainStep_toCreate hexit hstep
    exact ⟨hexit', by omega⟩
  | connector i =>
    rw [machine_step, step] at hstep
    split at hstep
    · cases hstep
    rename_i hconnector
    cases hstep
    obtain ⟨-, -, -, -, hexit', hpc, -⟩ := connectorStep_threads hconnector
    refine ⟨hexit'.trans hexit, ?_⟩
    simpa [creates, hpc] using hle

/-- The signal comes while the main thread waits for its first connection. -/
theorem creates_at_most_once_of_accept : ∃ tr s, machine.Run start tr s ∧ s.exitRequested = true ∧
    s.pc = .accept ∧ ∀ tr' s', machine.Run s tr' s' → tr'.countP creates ≤ 1 := by
  obtain ⟨tr, s, hrun, htest⟩ := exists_run_of_exec machine start (mainSteps 1 0 ++ [.signal])
    (fun _ s ↦ decide (s.exitRequested = true ∧ s.pc = .accept)) (by decide +kernel)
  obtain ⟨hexit, hpc⟩ := of_decide_eq_true htest
  refine ⟨tr, s, hrun, hexit, hpc, fun tr' s' hrun' ↦ ?_⟩
  have hle := creates_at_most_once hexit hrun'
  rwa [hpc] at hle

end Threads

end Aesd
