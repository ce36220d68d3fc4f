import Aesd.Server.Threads

/-!
# Results about the thread list

Every thread that was created and not joined is in one of three places: the main thread is about to
register it, a node of the list has it, or its registration failed and nothing leads to it any more.
`Owns` is the part of the invariant about the threads and their arguments, `Linked` adds the list,
and `Pc.At` says where in the list the main thread is.

Nothing is used after it was freed and no thread is joined twice (`thread_list_safe`). A thread
whose registration failed is never joined, and there are no other such threads
(`no_thread_lost_iff`).

## Removing while iterating

Both sweeps read the next node before they look at the current one. `Pc.At` has the list cut at the
current node, and the variable `tmp` is the pointer to the rest; removing the current node leaves
the two parts, and `tmp` still points to the second one. Connection threads change arguments and
phases only (`connectorStep_frame`), so the cut survives whatever they do in between.

## The flag

A thread that is joined in the accept loop was seen finished. That is a fact about the history of a
run and not about its state, since the flag is read in one step and the join is another; it is kept
because a flag that was set is not reset (`SeenFinished`).
-/

namespace Aesd

open Chain Machine

/-! ## Who owns the threads -/

/-- The threads that are not joined are those of `owned`, each with its own argument, whose flag is
what the thread has made it. The only other argument is that of a thread to be created. -/
structure Owns (threads : ℕ → Option Thread) (args : Heap ThreadArg) (fresh : Option ℕ)
    (owned : List SlistData) : Prop where
  thread : ∀ d ∈ owned, ∃ phase sock, threads d.threadId = some ⟨d.threadArg, phase⟩ ∧
    args.Holds d.threadArg [⟨sock, phase.finished⟩]
  mem_ids : ∀ i, threads i ≠ none → i ∈ owned.map SlistData.threadId
  mem_args : ∀ a, args.Live a → a ∈ fresh.toList ++ owned.map SlistData.threadArg
  held : ∀ a ∈ fresh, ∃ sock, args.Holds a [⟨sock, false⟩]
  nodup_ids : (owned.map SlistData.threadId).Nodup
  nodup_args : (fresh.toList ++ owned.map SlistData.threadArg).Nodup

theorem owns_start : Owns (fun _ ↦ none) Heap.empty none [] where
  thread := nofun
  mem_ids := fun _ h ↦ absurd rfl h
  mem_args := fun _ h ↦ by cases h
  held := nofun
  nodup_ids := List.nodup_nil
  nodup_args := List.nodup_nil

section Owns

variable {threads : ℕ → Option Thread} {args args' : Heap ThreadArg} {fresh : Option ℕ}
  {owned owned' : List SlistData} {d : SlistData} {a i : ℕ}

theorem Owns.perm (h : Owns threads args fresh owned) (hp : owned.Perm owned') :
    Owns threads args fresh owned' where
  thread := fun d hd ↦ h.thread d (hp.mem_iff.mpr hd)
  mem_ids := fun i hi ↦ (hp.map _).mem_iff.mp (h.mem_ids i hi)
  mem_args := fun a ha ↦ ((hp.map _).append_left _).mem_iff.mp (h.mem_args a ha)
  held := h.held
  nodup_ids := (hp.map _).nodup_iff.mp h.nodup_ids
  nodup_args := ((hp.map _).append_left _).nodup_iff.mp h.nodup_args

theorem Owns.holds (h : Owns threads args fresh owned) {thread : Thread}
    (ht : threads i = some thread) : ∃ sock, (⟨thread.threadArg, i⟩ : SlistData) ∈ owned ∧
      args.Holds thread.threadArg [⟨sock, thread.phase.finished⟩] := by
  obtain ⟨d, hd, rfl⟩ := List.mem_map.mp (h.mem_ids i (by simp [ht]))
  obtain ⟨phase, sock, hthread, hholds⟩ := h.thread d hd
  rw [ht, Option.some.injEq] at hthread
  subst hthread
  exact ⟨sock, hd, hholds⟩

theorem Owns.alloc (h : Owns threads args none owned) (sock : Int32) :
    Owns threads (args.new ⟨sock, false⟩).1 (some args.next) owned := by
  have hne : ∀ {b}, args.Live b → b ≠ args.next := Heap.ne_next_of_live
  have hnew : args.next ∉ owned.map SlistData.threadArg := by
    intro hmem
    obtain ⟨d, hd, heq⟩ := List.mem_map.mp hmem
    obtain ⟨_, _, -, hholds⟩ := h.thread d hd
    exact hne hholds.live heq
  refine ⟨fun d hd ↦ ?_, h.mem_ids, fun b hb ↦ ?_, ?_, h.nodup_ids, ?_⟩
  · obtain ⟨phase, s, hthread, hholds⟩ := h.thread d hd
    exact ⟨phase, s, hthread, hholds.congr (Heap.new_cells_of_ne _ _ (hne hholds.live))⟩
  · rcases Heap.live_place_iff.mp hb with rfl | hb
    · exact List.mem_append_left _ List.mem_cons_self
    · exact List.mem_append_right _ (h.mem_args b hb)
  · rintro b ⟨⟩
    exact ⟨sock, Heap.holds_new ..⟩
  · exact List.nodup_cons.mpr ⟨hnew, h.nodup_args⟩

theorem Owns.discard (h : Owns threads args (some a) owned) :
    ∃ args', args.free a = .ok args' ∧ Owns threads args' none owned := by
  obtain ⟨sock, hholds⟩ := h.held a rfl
  obtain ⟨hnot, hnodup⟩ := List.nodup_cons.mp h.nodup_args
  obtain ⟨args', hfree, -, -, hother⟩ := Heap.free_of_live hholds.live
  refine ⟨args', hfree, fun d hd ↦ ?_, h.mem_ids, fun b hb ↦ ?_, nofun, h.nodup_ids, hnodup⟩
  · obtain ⟨phase, s, hthread, hholds⟩ := h.thread d hd
    refine ⟨phase, s, hthread, hholds.congr (hother _ ?_)⟩
    rintro rfl
    exact hnot (List.mem_map_of_mem hd)
  · obtain ⟨hlive, hne⟩ := (Heap.live_of_free hfree).mp hb
    exact (List.mem_cons.mp (h.mem_args b hlive)).resolve_left hne

theorem Owns.create (h : Owns threads args (some a) owned) (hi : threads i = none) :
    Owns (Function.update threads i (some ⟨a, .started⟩)) args none (⟨a, i⟩ :: owned) := by
  have hnew : i ∉ owned.map SlistData.threadId := by
    intro hmem
    obtain ⟨d, hd, rfl⟩ := List.mem_map.mp hmem
    obtain ⟨_, _, hthread, -⟩ := h.thread d hd
    rw [hi] at hthread
    cases hthread
  refine ⟨?_, fun j hj ↦ ?_, h.mem_args, nofun, List.nodup_cons.mpr ⟨hnew, h.nodup_ids⟩,
    h.nodup_args⟩
  · rw [List.forall_mem_cons]
    constructor
    · obtain ⟨sock, hholds⟩ := h.held a rfl
      exact ⟨.started, sock, Function.update_self .., hholds⟩
    · intro d hd
      obtain ⟨phase, s, hthread, hholds⟩ := h.thread d hd
      refine ⟨phase, s, ?_, hholds⟩
      rw [Function.update_of_ne, hthread]
      rintro rfl
      exact hnew (List.mem_map_of_mem hd)
  · by_cases hji : j = i
    · rw [hji]
      exact List.mem_cons_self
    · rw [Function.update_of_ne hji] at hj
      exact List.mem_cons_of_mem _ (h.mem_ids j hj)

theorem Owns.join (h : Owns threads args none (d :: owned)) :
    ∃ args', args.free d.threadArg = .ok args' ∧
      Owns (Function.update threads d.threadId none) args' none owned := by
  obtain ⟨_, _, -, hholds⟩ := h.thread d List.mem_cons_self
  obtain ⟨hid, hids⟩ := List.nodup_cons.mp h.nodup_ids
  obtain ⟨harg, hargs⟩ := List.nodup_cons.mp h.nodup_args
  obtain ⟨args', hfree, -, -, hother⟩ := Heap.free_of_live hholds.live
  refine ⟨args', hfree, fun e he ↦ ?_, fun i hi ↦ ?_, fun b hb ↦ ?_, nofun, hids, hargs⟩
  · obtain ⟨phase, s, hthread, hholds⟩ := h.thread e (List.mem_cons_of_mem _ he)
    refine ⟨phase, s, ?_, hholds.congr (hother _ fun heq ↦ harg ?_)⟩
    · rw [Function.update_of_ne (fun heq ↦ hid ?_), hthread]
      exact heq ▸ List.mem_map_of_mem he
    · exact heq ▸ List.mem_map_of_mem he
  · by_cases hid' : i = d.threadId
    · rw [hid', Function.update_self] at hi
      exact absurd rfl hi
    · rw [Function.update_of_ne hid'] at hi
      exact (List.mem_cons.mp (h.mem_ids i hi)).resolve_left hid'
  · obtain ⟨hlive, hne⟩ := (Heap.live_of_free hfree).mp hb
    exact (List.mem_cons.mp (h.mem_args b hlive)).resolve_left hne

theorem Owns.advance (h : Owns threads args fresh owned) {phase phase' : Phase} {sock : Int32}
    (ht : threads i = some ⟨a, phase⟩) (hself : args'.Holds a [⟨sock, phase'.finished⟩])
    (hother : ∀ b, b ≠ a → args'.cells b = args.cells b) :
    Owns (Function.update threads i (some ⟨a, phase'⟩)) args' fresh owned := by
  obtain ⟨_, hmem, -⟩ := h.holds ht
  have hargs := h.nodup_args.of_append_right
  have hlive : ∀ b, b ≠ a → (args'.Live b ↔ args.Live b) := fun b hb ↦ by
    rw [Heap.Live, hother b hb, Heap.Live]
  refine ⟨fun d hd ↦ ?_, fun j hj ↦ ?_, fun b hb ↦ ?_, fun b hb ↦ ?_, h.nodup_ids, h.nodup_args⟩
  · by_cases hid : d.threadId = i
    · obtain rfl : d = ⟨a, i⟩ := List.inj_on_of_nodup_map h.nodup_ids hd hmem hid
      exact ⟨phase', sock, Function.update_self .., hself⟩
    · obtain ⟨phase, s, hthread, hholds⟩ := h.thread d hd
      refine ⟨phase, s, by rw [Function.update_of_ne hid, hthread], hholds.congr (hother _ ?_)⟩
      intro harg
      obtain rfl : d = ⟨a, i⟩ := List.inj_on_of_nodup_map hargs hd hmem harg
      exact hid rfl
  · by_cases hji : j = i
    · rw [hji]
      exact List.mem_map_of_mem (f := SlistData.threadId) hmem
    · rw [Function.update_of_ne hji] at hj
      exact h.mem_ids j hj
  · by_cases hba : b = a
    · rw [hba]
      exact List.mem_append_right _ (List.mem_map_of_mem (f := SlistData.threadArg) hmem)
    · exact h.mem_args b ((hlive b hba).mp hb)
  · obtain ⟨s, hholds⟩ := h.held b hb
    refine ⟨s, hholds.congr (hother b ?_)⟩
    rintro rfl
    exact List.disjoint_of_nodup_append h.nodup_args (Option.mem_toList.mpr hb)
      (List.mem_map_of_mem (f := SlistData.threadArg) hmem)

end Owns

/-! ## Where the main thread is -/

/-- The argument that the main thread has allocated and not passed on. -/
def Pc.fresh : Pc → Option ℕ
  | .create threadArg => some threadArg
  | _ => none

/-- The thread that the main thread is about to register. -/
def Pc.pending : Pc → List SlistData
  | .add threadArg threadId => [⟨threadArg, threadId⟩]
  | _ => []

/-- In the sweeps, the variables of the main thread lead to the nodes that it has still to look at.
In `cleanup` no other node is left. -/
def Pc.At (l : List (ℕ × SlistData)) : Pc → Prop
  | .sweepTest slistData => ∃ l₁ l₂, l = l₁ ++ l₂ ∧ slistData = firstId l₂
  | .sweepCheck slistData tmp => ∃ l₁ d l₂, l = l₁ ++ (slistData, d) :: l₂ ∧ tmp = firstId l₂
  | .sweepJoin slistData tmp => ∃ l₁ d l₂, l = l₁ ++ (slistData, d) :: l₂ ∧ tmp = firstId l₂
  | .cleanupTest slistData => slistData = firstId l
  | .cleanupJoin slistData tmp => ∃ d l₂, l = (slistData, d) :: l₂ ∧ tmp = firstId l₂
  | .returned => l = []
  | _ => True

/-- The list, and the threads with their owners: the thread about to be registered, the nodes of the
list, and the threads that were lost. -/
structure Linked (s : Threads) (fresh : Option ℕ) (pending : List SlistData)
    (l : List (ℕ × SlistData)) (lost : List SlistData) : Prop where
  chain : IsChain s.nodes s.head l
  nodup : (l.map Prod.fst).Nodup
  owns : Owns s.threads s.args fresh (pending ++ (l.map Prod.snd ++ lost))

structure Threads.Inv (s : Threads) (l : List (ℕ × SlistData)) (lost : List SlistData) : Prop where
  linked : Linked s s.pc.fresh s.pc.pending l lost
  position : s.pc.At l

/-- The threads that a step loses: `add_node` gets no memory for the node. -/
def Threads.loses (s : Threads) : ThreadEvent → List SlistData
  | .signal => []
  | .main answer => if answer.granted then [] else s.pc.pending
  | .connector _ => []

/-- A step from a state with the invariant: it is disabled, or leads to a state with the invariant.
-/
def Threads.StepsOn (s : Threads) (lost : List SlistData) (e : ThreadEvent) : Prop :=
  s.step e = .error .disabled ∨
    ∃ s' r l', s.step e = .ok (s', r) ∧ s'.Inv l' (lost ++ s.loses e)

namespace Threads

variable {s : Threads} {l l₁ l₂ : List (ℕ × SlistData)} {lost : List SlistData}

theorem inv_start : start.Inv [] [] := ⟨⟨rfl, List.nodup_nil, owns_start⟩, trivial⟩

private theorem inv_of_linked (h : Linked s none [] l lost) (pc : Pc) (hfresh : pc.fresh = none)
    (hpending : pc.pending = []) (hat : pc.At l) : ({ s with pc } : Threads).Inv l lost := by
  refine ⟨?_, hat⟩
  rw [hfresh, hpending]
  exact ⟨h.chain, h.nodup, h.owns⟩

theorem joinAndRemove_spec {node : ℕ} {d : SlistData}
    (h : Linked s none [] (l₁ ++ (node, d) :: l₂) lost) (pc : Pc) (hfresh : pc.fresh = none)
    (hpending : pc.pending = []) (hat : pc.At (l₁ ++ l₂)) :
    s.joinAndRemove node pc = .error .disabled ∨
      ∃ s', s.joinAndRemove node pc = .ok (s', .joined d.threadId) ∧ s'.Inv (l₁ ++ l₂) lost := by
  have hnode := h.chain.holds
  have hperm : ((l₁ ++ (node, d) :: l₂).map Prod.snd ++ lost).Perm
      (d :: ((l₁ ++ l₂).map Prod.snd ++ lost)) := by
    simp only [List.map_append, List.map_cons, List.append_assoc, List.cons_append]
    exact List.perm_middle
  have howns := h.owns.perm hperm
  obtain ⟨phase, -, hthread, -⟩ := howns.thread d List.mem_cons_self
  simp only [joinAndRemove, Heap.get_of_holds hnode, ThreadError.lift_ok, ok_bind, join, hthread]
  by_cases hret : phase = .returned
  swap
  · exact .inl (by rw [if_neg hret, error_bind])
  right
  obtain ⟨hout, hnodup⟩ : node ∉ (l₁ ++ l₂).map Prod.fst ∧ ((l₁ ++ l₂).map Prod.fst).Nodup := by
    have hnodup := h.nodup
    rw [List.map_append, List.map_cons, List.nodup_middle, List.nodup_cons] at hnodup
    rwa [List.map_append]
  obtain ⟨nodes, head, hremove, hchain, hheld, -⟩ := remove_spec h.chain h.nodup
  obtain ⟨args, hfree, howns'⟩ := howns.join
  obtain ⟨nodes', hfree', -, -, hother⟩ := Heap.free_of_live hheld.live
  rw [if_pos hret, ok_bind]
  simp only [removeNode, hremove, ok_bind, Heap.get_of_holds hheld, hfree, hfree', pure_eq_ok,
    ThreadError.lift_ok]
  have hlinked : Linked ⟨s.exitRequested, head, nodes', args,
      Function.update s.threads d.threadId none, s.pc⟩ none [] (l₁ ++ l₂) lost := by
    refine ⟨hchain.congr fun i hi ↦ hother i ?_, hnodup, howns'⟩
    rintro rfl
    exact hout hi
  exact ⟨_, rfl, inv_of_linked hlinked pc hfresh hpending hat⟩

theorem connectorStep_spec {fresh : Option ℕ} {pending : List SlistData}
    (h : Linked s fresh pending l lost) (i : ℕ) :
    s.connectorStep i = .error .disabled ∨
      ∃ s', s.connectorStep i = .ok s' ∧ s'.pc = s.pc ∧ s'.nodes = s.nodes ∧
        Linked s' fresh pending l lost := by
  rw [connectorStep]
  cases ht : s.threads i with
  | none => exact .inl rfl
  | some thread =>
    obtain ⟨a, phase⟩ := thread
    obtain ⟨sock, -, hholds⟩ := h.owns.holds ht
    cases phase with
    | started =>
      right
      simp only [Heap.get_of_holds hholds, ThreadError.lift_ok, ok_bind, pure_eq_ok]
      exact ⟨_, rfl, rfl, rfl, h.chain, h.nodup, h.owns.advance ht hholds fun _ _ ↦ rfl⟩
    | serving =>
      right
      obtain ⟨args', hset, hself, hother⟩ := Heap.set_of_holds hholds ⟨sock, true⟩
      simp only [Heap.get_of_holds hholds, ThreadError.lift_ok, ok_bind, pure_eq_ok, hset]
      exact ⟨_, rfl, rfl, rfl, h.chain, h.nodup, h.owns.advance ht hself hother⟩
    | closing =>
      exact .inr ⟨_, rfl, rfl, rfl, h.chain, h.nodup, h.owns.advance ht hholds fun _ _ ↦ rfl⟩
    | returned => exact .inl rfl

theorem get_node {fresh : Option ℕ} {pending : List SlistData} {node : ℕ} {d : SlistData}
    (h : Linked s fresh pending (l₁ ++ (node, d) :: l₂) lost) :
    s.nodes.get node = .ok ⟨d, firstId l₂⟩ := Heap.get_of_holds h.chain.holds

theorem exists_cons_of_firstId {node : ℕ} (h : some node = firstId l) :
    ∃ d l', l = (node, d) :: l' := by
  cases l with
  | nil => cases h
  | cons n l =>
    obtain ⟨b, d⟩ := n
    cases h
    exact ⟨d, l, rfl⟩

theorem addNode_granted {d : SlistData} (h : Linked s none [d] l lost) :
    Linked (s.addNode d true) none [] ((s.nodes.next, d) :: l) lost ∧
      (s.addNode d true).head = some s.nodes.next := by
  have hchain := insertHead_spec h.chain d
  refine ⟨⟨hchain, List.nodup_cons.mpr ⟨fun hmem ↦ ?_, h.nodup⟩, h.owns⟩, rfl⟩
  exact lt_irrefl _ (h.chain.lt_next hmem)

theorem addNode_refused {d : SlistData} (h : Linked s none [d] l lost) :
    Linked (s.addNode d false) none [] l (lost ++ [d]) := by
  refine ⟨h.chain, h.nodup, h.owns.perm ?_⟩
  rw [List.nil_append, ← List.append_assoc (l.map Prod.snd)]
  exact (List.perm_append_singleton ..).symm

private theorem acceptStep_spec (h : s.Inv l lost) (answer : Answer)
    (hpc : s.pc = .loopTest ∨ s.pc = .accept ∨ ∃ sock, s.pc = .alloc sock) :
    ∃ s', s.mainStep answer = .ok (s', .quiet) ∧ s'.Inv l lost := by
  obtain ⟨hlinked, -⟩ := h
  rcases hpc with hpc | hpc | ⟨sock, hpc⟩
  · rw [hpc] at hlinked
    rw [mainStep, hpc]
    refine ⟨_, rfl, ?_⟩
    split
    · exact inv_of_linked hlinked (.cleanupTest s.head) rfl rfl hlinked.chain.eq_firstId
    · exact inv_of_linked hlinked .accept rfl rfl trivial
  · rw [hpc] at hlinked
    rw [mainStep, hpc]
    cases answer.accepted with
    | none =>
      refine ⟨_, rfl, ?_⟩
      split
      · exact inv_of_linked hlinked (.cleanupTest s.head) rfl rfl hlinked.chain.eq_firstId
      · exact inv_of_linked hlinked .loopTest rfl rfl trivial
    | some sock => exact ⟨_, rfl, inv_of_linked hlinked (.alloc sock) rfl rfl trivial⟩
  · rw [hpc] at hlinked
    rw [mainStep, hpc]
    cases answer.granted with
    | true => exact ⟨_, rfl, ⟨hlinked.chain, hlinked.nodup, hlinked.owns.alloc sock⟩, trivial⟩
    | false => exact ⟨_, rfl, inv_of_linked hlinked .loopTest rfl rfl trivial⟩

private theorem createStep_spec (h : s.Inv l lost) (answer : Answer) {a : ℕ}
    (hpc : s.pc = .create a) :
    s.mainStep answer = .error .disabled ∨
      ∃ s', s.mainStep answer = .ok (s', .quiet) ∧ s'.Inv l lost := by
  obtain ⟨hlinked, -⟩ := h
  rw [hpc] at hlinked
  rw [mainStep, hpc]
  cases answer.created with
  | none =>
    right
    obtain ⟨args, hfree, howns⟩ := hlinked.owns.discard
    simp only [hfree, ThreadError.lift_ok, ok_bind, pure_eq_ok]
    exact ⟨_, rfl, ⟨hlinked.chain, hlinked.nodup, howns⟩, trivial⟩
  | some i =>
    by_cases hi : s.threads i = none
    · right
      simp only [if_pos hi]
      exact ⟨_, rfl, ⟨hlinked.chain, hlinked.nodup, hlinked.owns.create hi⟩, trivial⟩
    · left
      simp only [if_neg hi]

private theorem addStep_spec (h : s.Inv l lost) (answer : Answer) {a i : ℕ}
    (hpc : s.pc = .add a i) :
    ∃ s' l', s.mainStep answer = .ok (s', .quiet) ∧
      s'.Inv l' (lost ++ if answer.granted then [] else [⟨a, i⟩]) := by
  obtain ⟨hlinked, -⟩ := h
  rw [hpc] at hlinked
  rw [mainStep, hpc]
  cases hgranted : answer.granted with
  | true =>
    obtain ⟨hadd, hhead⟩ := addNode_granted hlinked
    rw [if_pos rfl, List.append_nil]
    refine ⟨_, _, rfl, inv_of_linked hadd _ rfl rfl ⟨[], _, rfl, ?_⟩⟩
    exact hhead
  | false =>
    have hadd := addNode_refused hlinked
    rw [if_neg Bool.false_ne_true]
    exact ⟨_, l, rfl, inv_of_linked hadd _ rfl rfl ⟨[], l, rfl, hlinked.chain.eq_firstId⟩⟩

private theorem sweepStep_spec (h : s.Inv l lost) (answer : Answer)
    (hpc : (∃ p, s.pc = .sweepTest p) ∨ (∃ node tmp, s.pc = .sweepCheck node tmp) ∨
      ∃ node tmp, s.pc = .sweepJoin node tmp) :
    s.mainStep answer = .error .disabled ∨
      ∃ s' r l', s.mainStep answer = .ok (s', r) ∧ s'.Inv l' lost := by
  obtain ⟨hlinked, hat⟩ := h
  rcases hpc with ⟨p, hpc⟩ | ⟨node, tmp, hpc⟩ | ⟨node, tmp, hpc⟩
  · rw [hpc] at hlinked hat
    obtain ⟨l₁, l₂, rfl, hp⟩ := hat
    rw [mainStep, hpc]
    right
    cases p with
    | none => exact ⟨_, .quiet, _, rfl, inv_of_linked hlinked .loopTest rfl rfl trivial⟩
    | some node =>
      obtain ⟨d, l₂, rfl⟩ := exists_cons_of_firstId hp
      simp only [get_node hlinked, ThreadError.lift_ok, ok_bind, pure_eq_ok]
      exact ⟨_, .quiet, _, rfl, inv_of_linked hlinked _ rfl rfl ⟨l₁, d, l₂, rfl, rfl⟩⟩
  · rw [hpc] at hlinked hat
    obtain ⟨l₁, d, l₂, rfl, rfl⟩ := hat
    obtain ⟨phase, sock, -, hholds⟩ := hlinked.owns.thread d (by simp)
    rw [mainStep, hpc]
    right
    simp only [get_node hlinked, Heap.get_of_holds hholds, ThreadError.lift_ok, ok_bind, pure_eq_ok]
    cases phase.finished with
    | true => exact ⟨_, _, _, rfl, inv_of_linked hlinked _ rfl rfl ⟨l₁, d, l₂, rfl, rfl⟩⟩
    | false =>
      exact ⟨_, _, _, rfl, inv_of_linked hlinked _ rfl rfl ⟨l₁ ++ [(node, d)], l₂, by simp, rfl⟩⟩
  · rw [hpc] at hlinked hat
    obtain ⟨l₁, d, l₂, rfl, rfl⟩ := hat
    rw [mainStep, hpc]
    rcases joinAndRemove_spec hlinked (.sweepTest (firstId l₂)) rfl rfl ⟨l₁, l₂, rfl, rfl⟩
      with hwait | ⟨s', hjoin, hinv⟩
    · exact .inl hwait
    · exact .inr ⟨s', _, _, hjoin, hinv⟩

private theorem cleanupStep_spec (h : s.Inv l lost) (answer : Answer)
    (hpc : (∃ p, s.pc = .cleanupTest p) ∨ (∃ node tmp, s.pc = .cleanupJoin node tmp)) :
    s.mainStep answer = .error .disabled ∨
      ∃ s' r l', s.mainStep answer = .ok (s', r) ∧ s'.Inv l' lost := by
  obtain ⟨hlinked, hat⟩ := h
  rcases hpc with ⟨p, hpc⟩ | ⟨node, tmp, hpc⟩
  · rw [hpc] at hlinked hat
    rw [mainStep, hpc]
    right
    cases p with
    | none =>
      have hnil : l = [] := by
        cases l with
        | nil => rfl
        | cons n l => cases hat
      exact ⟨_, .quiet, _, rfl, inv_of_linked hlinked .returned rfl rfl hnil⟩
    | some node =>
      obtain ⟨d, l₂, rfl⟩ := exists_cons_of_firstId hat
      simp only [@get_node s [] l₂ lost _ _ node d hlinked, ThreadError.lift_ok, ok_bind,
        pure_eq_ok]
      exact ⟨_, .quiet, _, rfl, inv_of_linked hlinked _ rfl rfl ⟨d, l₂, rfl, rfl⟩⟩
  · rw [hpc] at hlinked hat
    obtain ⟨d, l₂, rfl, rfl⟩ := hat
    rw [mainStep, hpc]
    rcases @joinAndRemove_spec s [] l₂ lost node d hlinked (.cleanupTest (firstId l₂)) rfl rfl rfl
      with hwait | ⟨s', hjoin, hinv⟩
    · exact .inl hwait
    · exact .inr ⟨s', _, _, hjoin, hinv⟩

private theorem mainStep_spec (h : s.Inv l lost) (answer : Answer) :
    s.StepsOn lost (.main answer) := by
  have hquiet : s.pc.pending = [] → lost ++ s.loses (.main answer) = lost := by
    intro hpending
    rw [loses, hpending, ite_self, List.append_nil]
  rw [StepsOn, step]
  cases hpc : s.pc with
  | loopTest =>
    obtain ⟨s', hstep, hinv⟩ := acceptStep_spec h answer (.inl hpc)
    rw [hquiet (by rw [hpc]; rfl)]
    exact .inr ⟨s', _, l, hstep, hinv⟩
  | accept =>
    obtain ⟨s', hstep, hinv⟩ := acceptStep_spec h answer (.inr (.inl hpc))
    rw [hquiet (by rw [hpc]; rfl)]
    exact .inr ⟨s', _, l, hstep, hinv⟩
  | alloc sock =>
    obtain ⟨s', hstep, hinv⟩ := acceptStep_spec h answer (.inr (.inr ⟨sock, hpc⟩))
    rw [hquiet (by rw [hpc]; rfl)]
    exact .inr ⟨s', _, l, hstep, hinv⟩
  | create a =>
    rw [hquiet (by rw [hpc]; rfl)]
    rcases createStep_spec h answer hpc with hwait | ⟨s', hstep, hinv⟩
    · exact .inl hwait
    · exact .inr ⟨s', _, l, hstep, hinv⟩
  | add a i =>
    obtain ⟨s', l', hstep, hinv⟩ := addStep_spec h answer hpc
    rw [loses, hpc]
    exact .inr ⟨s', _, l', hstep, hinv⟩
  | sweepTest p =>
    rw [hquiet (by rw [hpc]; rfl)]
    exact sweepStep_spec h answer (.inl ⟨p, hpc⟩)
  | sweepCheck node tmp =>
    rw [hquiet (by rw [hpc]; rfl)]
    exact sweepStep_spec h answer (.inr (.inl ⟨node, tmp, hpc⟩))
  | sweepJoin node tmp =>
    rw [hquiet (by rw [hpc]; rfl)]
    exact sweepStep_spec h answer (.inr (.inr ⟨node, tmp, hpc⟩))
  | cleanupTest p =>
    rw [hquiet (by rw [hpc]; rfl)]
    exact cleanupStep_spec h answer (.inl ⟨p, hpc⟩)
  | cleanupJoin node tmp =>
    rw [hquiet (by rw [hpc]; rfl)]
    exact cleanupStep_spec h answer (.inr ⟨node, tmp, hpc⟩)
  | returned => exact .inl (by rw [mainStep, hpc])

/-- **One step keeps the invariant**, and none uses memory that is not there or joins a thread that
cannot be joined. -/
theorem step_spec (h : s.Inv l lost) (e : ThreadEvent) : s.StepsOn lost e := by
  cases e with
  | main answer => exact mainStep_spec h answer
  | signal =>
    rw [StepsOn, loses, List.append_nil]
    exact .inr ⟨_, _, l, rfl, ⟨h.linked.chain, h.linked.nodup, h.linked.owns⟩, h.position⟩
  | connector i =>
    rw [StepsOn, loses, List.append_nil, step]
    rcases connectorStep_spec h.linked i with hwait | ⟨s', hstep, hpc, -, hlinked⟩
    · exact .inl (by rw [hwait])
    · refine .inr ⟨s', .quiet, l, by rw [hstep], ?_⟩
      exact ⟨by rwa [hpc], by rw [hpc]; exact h.position⟩

/-- The threads that the steps of a run lose. -/
def lostBy (tr : List ThreadMove) : List SlistData := tr.flatMap fun m ↦ m.pre.loses m.event

theorem inv_of_run {tr : List ThreadMove} (hrun : machine.Run start tr s) :
    ∃ l, s.Inv l (lostBy tr) := by
  apply Run.invariant (I := fun tr s ↦ ∃ l, s.Inv l (lostBy tr)) ⟨[], inv_start⟩ _ hrun
  rintro tr s e s' r - ⟨l, hinv⟩ hstep
  rw [machine_step] at hstep
  rcases step_spec hinv e with hwait | ⟨s₁, r₁, l₁, hstep₁, hinv₁⟩
  · rw [hwait] at hstep
    cases hstep
  · rw [hstep₁] at hstep
    cases hstep
    refine ⟨l₁, ?_⟩
    rw [lostBy, List.flatMap_append, List.flatMap_singleton]
    exact hinv₁

/-! ## Which threads are joined in the accept loop -/

/-- The last step of the main thread found the flag of thread `i` set. -/
def SeenFinished (tr : List ThreadMove) (i : ℕ) : Prop :=
  ∃ tr₁ m tr₂, tr = tr₁ ++ m :: tr₂ ∧ m.ret = .sawFinished i ∧
    ∀ m' ∈ tr₂, ∀ answer, m'.event ≠ .main answer

variable {s' : Threads} {r : ThreadReply} {answer : Answer} {node i : ℕ} {tmp : Option ℕ}

private theorem joinAndRemove_pc {pc : Pc} (h : s.joinAndRemove node pc = .ok (s', r)) :
    s'.pc = pc ∧ ∃ data, s.nodes.get node = .ok data ∧ r = .joined data.value.threadId := by
  rw [joinAndRemove] at h
  obtain ⟨data, hdata, h⟩ := exists_of_bind_eq_ok h
  obtain ⟨s₁, -, h⟩ := exists_of_bind_eq_ok h
  obtain ⟨s₂, -, h⟩ := exists_of_bind_eq_ok h
  cases h
  exact ⟨rfl, data, ThreadError.lift_eq_ok hdata, rfl⟩

/-- What the body of a sweep does: it joins a thread that has returned and frees an argument. -/
theorem joinAndRemove_eq_ok {pc : Pc} (h : s.joinAndRemove node pc = .ok (s', r)) :
    ∃ data thread b, s.nodes.get node = .ok data ∧
      s.threads data.value.threadId = some thread ∧ thread.phase = .returned ∧
      s'.threads = Function.update s.threads data.value.threadId none ∧
      s.args.free b = .ok s'.args ∧ s'.pc = pc ∧ s'.exitRequested = s.exitRequested := by
  rw [joinAndRemove] at h
  obtain ⟨data, hdata, h⟩ := exists_of_bind_eq_ok h
  obtain ⟨s₁, hjoin, h⟩ := exists_of_bind_eq_ok h
  obtain ⟨s₂, hremove, h⟩ := exists_of_bind_eq_ok h
  cases h
  have hnode := ThreadError.lift_eq_ok hdata
  rw [join] at hjoin
  split at hjoin
  · cases hjoin
  rename_i thread hthread
  split at hjoin
  swap
  · cases hjoin
  rename_i hphase
  cases hjoin
  have hremove := ThreadError.lift_eq_ok hremove
  rw [removeNode] at hremove
  obtain ⟨⟨nodes, head⟩, -, hremove⟩ := exists_of_bind_eq_ok hremove
  obtain ⟨data', -, hremove⟩ := exists_of_bind_eq_ok hremove
  obtain ⟨args, hargs, hremove⟩ := exists_of_bind_eq_ok hremove
  obtain ⟨nodes', -, hremove⟩ := exists_of_bind_eq_ok hremove
  cases hremove
  exact ⟨data, thread, data'.value.threadArg, hnode, hthread, hphase, rfl, hargs, rfl, rfl⟩

/-- **What a step of the main thread can do**, as far as joining goes: nothing, find a flag set and
go on to the join, or join. -/
private theorem mainStep_cases (h : s.mainStep answer = .ok (s', r)) :
    (r = .quiet ∧ ∀ node tmp, s'.pc ≠ .sweepJoin node tmp) ∨
    (∃ node tmp data, s'.pc = .sweepJoin node tmp ∧ s'.nodes.get node = .ok data ∧
      r = .sawFinished data.value.threadId) ∨
    (∃ node tmp, s.pc = .sweepJoin node tmp ∧
      s.joinAndRemove node (.sweepTest tmp) = .ok (s', r)) ∨
    ∃ node tmp, s.pc = .cleanupJoin node tmp ∧
      s.joinAndRemove node (.cleanupTest tmp) = .ok (s', r) := by
  rw [mainStep] at h
  split at h
  · left
    cases h
    refine ⟨rfl, fun node tmp ↦ ?_⟩
    dsimp only
    split <;> exact Pc.noConfusion
  · left
    split at h
    · cases h
      refine ⟨rfl, fun node tmp ↦ ?_⟩
      dsimp only
      split <;> exact Pc.noConfusion
    · cases h
      exact ⟨rfl, fun _ _ ↦ Pc.noConfusion⟩
  · left
    split at h <;> cases h <;> exact ⟨rfl, fun _ _ ↦ Pc.noConfusion⟩
  · left
    split at h
    · obtain ⟨args, -, h⟩ := exists_of_bind_eq_ok h
      cases h
      exact ⟨rfl, fun _ _ ↦ Pc.noConfusion⟩
    · split at h <;> cases h
      exact ⟨rfl, fun _ _ ↦ Pc.noConfusion⟩
  · left
    cases h
    exact ⟨rfl, fun _ _ ↦ Pc.noConfusion⟩
  · left
    cases h
    exact ⟨rfl, fun _ _ ↦ Pc.noConfusion⟩
  · left
    obtain ⟨data, -, h⟩ := exists_of_bind_eq_ok h
    cases h
    exact ⟨rfl, fun _ _ ↦ Pc.noConfusion⟩
  · rename_i node tmp hpc
    obtain ⟨data, hdata, h⟩ := exists_of_bind_eq_ok h
    obtain ⟨arg, -, h⟩ := exists_of_bind_eq_ok h
    split at h <;> cases h
    · exact .inr (.inl ⟨node, tmp, data, rfl, ThreadError.lift_eq_ok hdata, rfl⟩)
    · exact .inl ⟨rfl, fun _ _ ↦ Pc.noConfusion⟩
  · rename_i node tmp hpc
    exact .inr (.inr (.inl ⟨node, tmp, hpc, h⟩))
  · left
    cases h
    exact ⟨rfl, fun _ _ ↦ Pc.noConfusion⟩
  · left
    obtain ⟨data, -, h⟩ := exists_of_bind_eq_ok h
    cases h
    exact ⟨rfl, fun _ _ ↦ Pc.noConfusion⟩
  · rename_i node tmp hpc
    exact .inr (.inr (.inr ⟨node, tmp, hpc, h⟩))
  · cases h

private theorem connectorStep_frame (h : s.connectorStep i = .ok s') :
    s'.pc = s.pc ∧ s'.nodes = s.nodes := by
  rw [connectorStep] at h
  split at h
  · cases h
  · obtain ⟨arg, -, h⟩ := exists_of_bind_eq_ok h
    cases h
    exact ⟨rfl, rfl⟩
  · obtain ⟨arg, -, h⟩ := exists_of_bind_eq_ok h
    obtain ⟨args, -, h⟩ := exists_of_bind_eq_ok h
    cases h
    exact ⟨rfl, rfl⟩
  · cases h
    exact ⟨rfl, rfl⟩
  · cases h

theorem connectorStep_eq_ok (h : s.connectorStep i = .ok s') :
    (∃ a arg, s.threads i = some ⟨a, .started⟩ ∧ s.args.get a = .ok arg ∧
      s' = { s with threads := Function.update s.threads i (some ⟨a, .serving⟩) }) ∨
    (∃ a arg args, s.threads i = some ⟨a, .serving⟩ ∧ s.args.get a = .ok arg ∧
      s.args.set a { arg with finished := true } = .ok args ∧
      s' = { s with args, threads := Function.update s.threads i (some ⟨a, .closing⟩) }) ∨
    ∃ a, s.threads i = some ⟨a, .closing⟩ ∧
      s' = { s with threads := Function.update s.threads i (some ⟨a, .returned⟩) } := by
  rw [connectorStep] at h
  split at h
  · cases h
  · rename_i a ht
    obtain ⟨arg, hget, h⟩ := exists_of_bind_eq_ok h
    cases h
    exact .inl ⟨a, arg, ht, ThreadError.lift_eq_ok hget, rfl⟩
  · rename_i a ht
    obtain ⟨arg, hget, h⟩ := exists_of_bind_eq_ok h
    obtain ⟨args, hset, h⟩ := exists_of_bind_eq_ok h
    cases h
    exact .inr (.inl
      ⟨a, arg, args, ht, ThreadError.lift_eq_ok hget, ThreadError.lift_eq_ok hset, rfl⟩)
  · rename_i a ht
    cases h
    exact .inr (.inr ⟨a, ht, rfl⟩)
  · cases h

/-- What the main thread saw is not forgotten while other threads run. -/
private theorem SeenFinished.snoc {tr : List ThreadMove} (h : SeenFinished tr i) {m : ThreadMove}
    (hm : ∀ answer, m.event ≠ .main answer) : SeenFinished (tr ++ [m]) i := by
  obtain ⟨tr₁, m₁, tr₂, rfl, hret, hother⟩ := h
  refine ⟨tr₁, m₁, tr₂ ++ [m], by rw [List.append_assoc, List.cons_append], hret, ?_⟩
  rw [List.forall_mem_append, List.forall_mem_singleton]
  exact ⟨hother, hm⟩

private theorem seenFinished_of_run {tr : List ThreadMove} (hrun : machine.Run start tr s)
    (hpc : s.pc = .sweepJoin node tmp) :
    ∃ data, s.nodes.get node = .ok data ∧ SeenFinished tr data.value.threadId := by
  apply Run.invariant (I := fun tr s ↦ ∀ node tmp, s.pc = .sweepJoin node tmp →
    ∃ data, s.nodes.get node = .ok data ∧ SeenFinished tr data.value.threadId) _ _ hrun _ _ hpc
  · intro node tmp hpc
    cases hpc
  rintro tr s e s' r - ih hstep node tmp hpc
  rw [machine_step] at hstep
  cases e with
  | signal =>
    cases hstep
    obtain ⟨data, hdata, hseen⟩ := ih node tmp hpc
    exact ⟨data, hdata, hseen.snoc fun answer h ↦ by cases h⟩
  | connector i =>
    rw [step] at hstep
    split at hstep
    · cases hstep
    · rename_i hconn
      cases hstep
      obtain ⟨hpc', hnodes⟩ := connectorStep_frame hconn
      rw [hpc'] at hpc
      rw [hnodes]
      obtain ⟨data, hdata, hseen⟩ := ih node tmp hpc
      exact ⟨data, hdata, hseen.snoc fun answer h ↦ by cases h⟩
  | main answer =>
    rcases mainStep_cases hstep with ⟨-, hne⟩ | ⟨node', tmp', data, hpc', hdata, hret⟩ |
      ⟨node', tmp', -, hjoin⟩ | ⟨node', tmp', -, hjoin⟩
    · exact absurd hpc (hne node tmp)
    · rw [hpc, Pc.sweepJoin.injEq] at hpc'
      rw [hpc'.1]
      exact ⟨data, hdata, tr, _, [], rfl, hret, fun _ h ↦ absurd h List.not_mem_nil⟩
    · rw [(joinAndRemove_pc hjoin).1] at hpc
      cases hpc
    · rw [(joinAndRemove_pc hjoin).1] at hpc
      cases hpc

/-- Threads are joined in `cleanup`, or in the accept loop by a main thread that has just seen them
finished. -/
private theorem joined_spec {tr : List ThreadMove} (hrun : machine.Run start tr s) {e : ThreadEvent}
    (hstep : s.step e = .ok (s', .joined i)) :
    (∃ node tmp, s.pc = .cleanupJoin node tmp) ∨ SeenFinished tr i := by
  cases e with
  | signal => cases hstep
  | connector j =>
    rw [step] at hstep
    split at hstep <;> cases hstep
  | main answer =>
    rcases mainStep_cases hstep with ⟨hret, -⟩ | ⟨_, _, _, -, -, hret⟩ | ⟨node, tmp, hpc, hjoin⟩ |
      ⟨node, tmp, hpc, -⟩
    · cases hret
    · cases hret
    · right
      obtain ⟨data, hdata, hseen⟩ := seenFinished_of_run hrun hpc
      obtain ⟨-, data', hdata', hret⟩ := joinAndRemove_pc hjoin
      rw [hdata, Except.ok.injEq] at hdata'
      rw [ThreadReply.joined.injEq] at hret
      rwa [hret, ← hdata']
    · exact .inl ⟨node, tmp, hpc⟩

/-! ## Safety -/

/-- **The thread list is safe.** After every run, no node is twice in the list, and each node
belongs to a thread of its own that was created and not joined. No step uses or frees memory that
was freed, or joins a thread that cannot be joined, and in the accept loop only threads seen
finished are joined. -/
theorem thread_list_safe {tr : List ThreadMove} (hrun : machine.Run start tr s) :
    (∃ l, IsChain s.nodes s.head l ∧ (l.map Prod.fst).Nodup ∧
      (l.map fun n ↦ n.2.threadId).Nodup ∧ ∀ n ∈ l, ∃ phase,
        s.threads n.2.threadId = some ⟨n.2.threadArg, phase⟩ ∧ s.args.Live n.2.threadArg) ∧
    (∀ e f, s.step e ≠ .error (.fault f)) ∧ (∀ e, s.step e ≠ .error .notJoinable) ∧
    ∀ e s' i, s.step e = .ok (s', .joined i) →
      (∃ node tmp, s.pc = .cleanupJoin node tmp) ∨ SeenFinished tr i := by
  obtain ⟨l, hinv⟩ := inv_of_run hrun
  have hstep : ∀ e err, s.step e = .error err → err = .disabled := by
    intro e err herr
    rcases step_spec hinv e with hwait | ⟨s', r, l', hok, -⟩
    · rw [hwait] at herr
      cases herr
      rfl
    · rw [hok] at herr
      cases herr
  refine ⟨⟨l, hinv.linked.chain, hinv.linked.nodup, ?_, ?_⟩, ?_, ?_, ?_⟩
  · have hnodup := hinv.linked.owns.nodup_ids
    rw [List.map_append, List.map_append, List.map_map] at hnodup
    exact (List.nodup_append.mp (List.nodup_append.mp hnodup).2.1).1
  · intro n hn
    obtain ⟨phase, sock, hthread, hholds⟩ := hinv.linked.owns.thread n.2
      (List.mem_append_right _ (List.mem_append_left _ (List.mem_map_of_mem hn)))
    exact ⟨phase, hthread, hholds.live⟩
  · intro e f herr
    cases hstep e _ herr
  · intro e herr
    cases hstep e _ herr
  · intro e s' i hjoin
    exact joined_spec hrun hjoin

/-- The main thread takes `n` steps, with nothing to complain about; threads get number `id`. -/
def mainSteps (n id : ℕ) : List ThreadEvent :=
  List.replicate n (.main ⟨some 5, true, some id⟩)

/-- Two connections. The first has set its flag when the second is registered, and is joined in that
sweep as soon as it returns; the second is joined in `cleanup`. -/
def twoConnections : List ThreadEvent :=
  mainSteps 8 0 ++ [.connector 0, .connector 0] ++ mainSteps 9 1 ++ [.connector 0] ++
    mainSteps 1 1 ++ [.signal] ++ mainSteps 3 1 ++ List.replicate 3 (.connector 1) ++ mainSteps 2 1

/-- After the second connection of `twoConnections` is registered, its node is in front of the
first. -/
theorem thread_list_safe_of_two : ∃ tr s, machine.Run start tr s ∧
    s.head = some 1 ∧ (∀ e f, s.step e ≠ .error (.fault f)) ∧
      ∀ e, s.step e ≠ .error .notJoinable := by
  obtain ⟨tr, s, hrun, htest⟩ := exists_run_of_exec machine start (twoConnections.take 19)
    (fun _ s ↦ decide (s.head = some 1)) (by decide +kernel)
  obtain ⟨-, hfault, hjoin, -⟩ := thread_list_safe hrun
  exact ⟨tr, s, hrun, of_decide_eq_true htest, hfault, hjoin⟩

/-! ## Lost threads -/

private theorem lostBy_eq_nil_iff {tr : List ThreadMove} :
    lostBy tr = [] ↔ ∀ m ∈ tr, ∀ answer a i, m.event = .main answer → m.pre.pc = .add a i →
      answer.granted = true := by
  rw [lostBy, List.flatMap_eq_nil_iff]
  refine forall₂_congr fun m _ ↦ ?_
  cases m.event with
  | signal => exact iff_of_true rfl fun answer a i he ↦ by cases he
  | connector j => exact iff_of_true rfl fun answer a i he ↦ by cases he
  | main answer =>
    rw [loses]
    constructor
    · rintro hnil _ a i ⟨⟩ hpc
      by_contra hrefused
      rw [if_neg hrefused, hpc] at hnil
      cases hnil
    · intro hgranted
      by_cases hg : answer.granted = true
      · rw [if_pos hg]
      · rw [if_neg hg]
        cases hpc : m.pre.pc with
        | add a i => exact absurd (hgranted answer a i rfl hpc) hg
        | _ => rfl

/-- **When no thread is lost.** When `cleanup` has returned, every thread that was created has been
joined and every argument that was allocated has been freed exactly when `malloc` served every
`add_node`. -/
theorem no_thread_lost_iff {tr : List ThreadMove} (hrun : machine.Run start tr s)
    (hend : s.pc = .returned) :
    ((∀ i, s.threads i = none) ∧ ∀ a, ¬s.args.Live a) ↔
      ∀ m ∈ tr, ∀ answer a i, m.event = .main answer → m.pre.pc = .add a i →
        answer.granted = true := by
  obtain ⟨l, hlinked, hat⟩ := inv_of_run hrun
  rw [hend] at hlinked hat
  obtain rfl : l = [] := hat
  rw [← lostBy_eq_nil_iff]
  constructor
  · rintro ⟨hnone, -⟩
    by_contra hne
    obtain ⟨d, lost, hlost⟩ := List.exists_cons_of_ne_nil hne
    obtain ⟨phase, -, hthread, -⟩ := hlinked.owns.thread d (by rw [hlost]; exact List.mem_cons_self)
    rw [hnone] at hthread
    cases hthread
  · intro hnil
    rw [hnil] at hlinked
    constructor
    · intro i
      by_contra hi
      cases hlinked.owns.mem_ids i hi
    · intro a ha
      cases hlinked.owns.mem_args a ha

/-- Both threads of `twoConnections` are joined. -/
theorem no_thread_lost_of_two : ∃ tr s, machine.Run start tr s ∧ s.pc = .returned ∧
    (∀ i, s.threads i = none) ∧ ∀ a, ¬s.args.Live a := by
  obtain ⟨tr, s, hrun, htest⟩ := exists_run_of_exec machine start twoConnections
    (fun tr s ↦ decide (s.pc = .returned ∧ lostBy tr = [])) (by decide +kernel)
  obtain ⟨hpc, hlost⟩ := of_decide_eq_true htest
  obtain ⟨hthreads, hargs⟩ := (no_thread_lost_iff hrun hpc).mpr (lostBy_eq_nil_iff.mp hlost)
  exact ⟨tr, s, hrun, hpc, hthreads, hargs⟩

/-- A connection for whose node there is no memory: its thread is not joined, and its argument is
not freed. -/
theorem thread_lost : ∃ tr s, machine.Run start tr s ∧ s.pc = .returned ∧
    s.threads 0 = some ⟨0, .started⟩ ∧ s.args.Live 0 := by
  obtain ⟨tr, s, hrun, htest⟩ := exists_run_of_exec machine start
    (mainSteps 4 0 ++ [.main ⟨some 5, false, none⟩] ++ mainSteps 1 0 ++ [.signal] ++ mainSteps 2 0)
    (fun _ s ↦ decide (s.pc = .returned ∧ s.threads 0 = some ⟨0, .started⟩ ∧ s.args.Live 0))
    (by decide +kernel)
  exact ⟨tr, s, hrun, of_decide_eq_true htest⟩

end Threads

end Aesd
