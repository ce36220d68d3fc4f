import Aesd.Driver.Runs

/-!
# Who owns the memory

Two inclusions between the blocks that are live and the blocks the driver refers to.

## Nothing is used after it was freed

Every block referred to is live, and none is referred to twice; so nothing is freed twice or used
after it was freed (`block_ownership`). This holds on every run. An eviction frees the block of the
slot that was overwritten just before, and it is the right one because its pointer was saved first
(`EvictsOldest`).

## What leaks

The other inclusion can fail. A block is *leaked* when it is live and not referred to, and
`WriteOutcome.leaked_iff` says exactly what leaks: the pending block, at a write whose `krealloc`
fails, since the result `NULL` is stored over the only pointer to it. Over a whole run, and over
unloading and a failed load, this gives `nothing_lost_iff`: `aesd_cleanup_module` frees the entry
structure and none of the payloads, and a failed load frees nothing.
-/

namespace Aesd

open AesdCircularBuffer Machine

namespace Driver

/-- The blocks of payload bytes that the driver refers to. -/
def payloadBlocks (d : Driver) : List ℕ := d.pending.buffptr.toList ++ d.ringBlocks

theorem mem_blocks_iff {d : Driver} {i : ℕ} :
    i ∈ d.blocks ↔ d.dev.entry = some i ∨ d.pending.buffptr = some i ∨ i ∈ d.ringBlocks := by
  simp [blocks]

theorem mem_payloadBlocks_iff {d : Driver} {i : ℕ} :
    i ∈ d.payloadBlocks ↔ d.pending.buffptr = some i ∨ i ∈ d.ringBlocks := by
  simp [payloadBlocks]

/-- The payload blocks are live and different, and every live entry has one. -/
structure OwnsPayloads (d : Driver) : Prop where
  entry : ∀ e ∈ d.ring.live, e.buffptr.isSome = true
  nodup : d.payloadBlocks.Nodup
  live : ∀ i ∈ d.payloadBlocks, d.heap.Live i

end Driver

section Ring

variable {d : Driver} {cmds : List (List UInt8)} {part : List UInt8}

theorem Stores.ownsPayloads (h : Stores d cmds part) : d.OwnsPayloads where
  entry e he := by
    obtain ⟨i, hi, rfl⟩ := List.getElem_of_mem he
    obtain ⟨p, hp, -⟩ := (h.held.get hi (h.held.length_eq ▸ hi)).holds
    rw [List.get_eq_getElem] at hp
    rw [hp]
    rfl
  nodup := (List.nodup_append.mp h.nodup).2.1
  live i hi := h.live_of_mem_blocks (List.mem_append_right _ hi)

private theorem mem_ringBlocks_of_evicted {i : ℕ} (h : d.evicted = some i) : i ∈ d.ringBlocks := by
  rw [Driver.evicted] at h
  split at h
  · rename_i hf
    obtain ⟨rest, hrest⟩ := live_eq_cons hf
    rw [Driver.ringBlocks, hrest, List.filterMap_cons, h]
    exact List.mem_cons_self
  · cases h

/-- The ring after a commit refers to the new block and to the blocks it referred to before, but
for the evicted one. -/
private theorem ringBlocks_commit {e : AesdBufferEntry} {ring : AesdCircularBuffer}
    (hwf : d.ring.WF) (hring : ring.live = (d.ring.live ++ [e]).rtake 10) {i : ℕ} :
    (i ∈ ring.live.filterMap AesdBufferEntry.buffptr → e.buffptr = some i ∨ i ∈ d.ringBlocks) ∧
      (e.buffptr = some i ∨ i ∈ d.ringBlocks ∧ d.evicted ≠ some i →
        i ∈ ring.live.filterMap AesdBufferEntry.buffptr) := by
  have hall : i ∈ (d.ring.live ++ [e]).filterMap AesdBufferEntry.buffptr
      ↔ i ∈ d.ringBlocks ∨ e.buffptr = some i := by
    rw [List.filterMap_append, List.mem_append, Driver.ringBlocks]
    simp
  constructor
  · intro hi
    rw [hring, List.rtake] at hi
    exact (hall.mp (((List.drop_sublist _ _).filterMap _).subset hi)).symm
  · intro hi
    cases hf : d.ring.full with
    | false =>
      have hlt := liveCount_lt_of_not_full hwf hf
      rw [hring, List.rtake, List.length_append, length_live, List.length_singleton,
        show d.ring.liveCount + 1 - 10 = 0 by omega, List.drop_zero, hall]
      exact hi.symm.imp_left And.left
    | true =>
      obtain ⟨rest, hrest⟩ := live_eq_cons hf
      have hkept : ring.live = rest ++ [e] := by
        have hlen : d.ring.live.length = 10 := by rw [length_live, liveCount_of_full hf]
        rw [hring, List.rtake, List.length_append, hlen, hrest]
        rfl
      rw [hkept, List.filterMap_append, List.mem_append]
      rcases hi with hi | ⟨hi, hev⟩
      · exact .inr (by simp [hi])
      · rw [Driver.evicted, if_pos hf] at hev
        rw [Driver.ringBlocks, hrest] at hi
        obtain ⟨e', he', hbuf⟩ := List.mem_filterMap.mp hi
        rcases List.mem_cons.mp he' with rfl | he'
        · exact absurd hbuf hev
        · exact .inl (List.mem_filterMap.mpr ⟨e', he', hbuf⟩)

end Ring

/-! ## Nothing is used after it was freed -/

/-- What one eviction does: the lookup at offset `0` finds the slot that the addition overwrites,
and of the blocks the ring refers to exactly the block in that slot is freed. -/
def EvictsOldest (K : FixedSizeLlseek) (m : Move System Call Int64) : Prop :=
  ∃ oldest p s', aesdCircularBufferFindEntryOffsetForFpos m.pre.driver.ring 0 0
      = .ok (some oldest, 0) ∧
    oldest.val = m.pre.driver.ring.inOffs ∧
    (m.pre.driver.ring.entry oldest).buffptr = some p ∧
    System.step K m.pre m.event = .ok (s', m.ret) ∧
    ∀ i ∈ m.pre.driver.ringBlocks, s'.driver.heap.Live i ↔ i ≠ p

section Ownership

variable {K : FixedSizeLlseek} {d : Driver} {cmds : List (List UInt8)} {part : List UInt8}

private theorem slotOfRank_zero_val {b : AesdCircularBuffer} (hb : b.WF) (hf : b.full = true) :
    (b.slotOfRank 0).val = b.inOffs := by
  rw [slotOfRank, slotAt_val, Nat.zero_add, hb.in_eq_out hf, Nat.mod_eq_of_lt hb.out_lt]

private theorem evictsOldest {s s' : System} {file : ℕ} {w : WriteCall} {ret : Int64}
    (h : Represents s.driver cmds part)
    (hstep : System.step K s (.write file w) = .ok (s', ret)) (hret : 0 ≤ ret.toInt)
    (hlast : w.payload.getLast? = some newline) (hf : s.driver.ring.full = true) :
    EvictsOldest K ⟨s, .write file w, ret⟩ := by
  have hcmds : 0 < cmds.length := by rw [h.length_eq, liveCount_of_full hf]; omega
  obtain ⟨p, hp, -⟩ := (h.held_of_rank hcmds).holds
  have hev : s.driver.evicted = some p := by rw [Driver.evicted, if_pos hf, hp]
  refine ⟨s.driver.ring.slotOfRank 0, p, s', h.find_oldest hf, slotOfRank_zero_val h.wf hf, hp,
    hstep, fun i hi ↦ ?_⟩
  rcases System.step_cases h hstep with ⟨hne, -⟩ | ⟨file', w', r, hcall, hout, hd, rfl⟩
  · exact absurd rfl (hne file w)
  obtain ⟨rfl, rfl⟩ : file = file' ∧ w = w' := by simpa using hcall
  have hli := h.mem_ringBlocks_live hi
  rw [hd, (hout.of_closing hret hlast).2, hev]
  simp [hli, h.pending_ne hi, Heap.ne_next_of_live hli, eq_comm]

/-- **The driver owns its memory.** Every list of calls whose writes are not empty runs to its
end, whatever fails in it: no call uses a block after it was freed, frees one twice, or leaves
the bounds of one. In every state the blocks of the live entries and of the pending entry are live
and different, and each write that closes a command on a full ring frees the oldest one. -/
theorem block_ownership {c : InitCall} (hinit : aesdInitModule c = .ok (d, 0))
    {calls : List Call} (hne : ∀ file w, .write file w ∈ calls → w.payload ≠ []) :
    ∃ tr s, (System.machine K).exec (System.loaded d) calls = .ok (tr, s) ∧
      (∀ t ∈ states tr s, t.driver.OwnsPayloads) ∧
      ∀ m ∈ tr, ∀ file w, m.event = .write file w → 0 ≤ m.ret.toInt →
        w.payload.getLast? = some newline → m.pre.driver.ring.full = true → EvictsOldest K m := by
  have h₀ : ∃ cmds part, Represents (System.loaded d).driver cmds part :=
    ⟨[], [], (represents_of_loaded hinit).1⟩
  obtain ⟨tr, s, hexec⟩ := exec_total (M := System.machine K)
    (I := fun s ↦ ∃ cmds part, Represents s.driver cmds part)
    (A := fun e ↦ ∀ file w, e = .write file w → w.payload ≠ []) (fun s e ⟨_, _, h⟩ hA ↦ by
      obtain ⟨s', ret, hstep⟩ := System.step_total (K := K) h hA
      exact ⟨s', ret, hstep, System.step_represents h hstep⟩) h₀
    (fun e he file w hcall ↦ hne file w (hcall ▸ he))
  have hrun := run_of_exec hexec
  refine ⟨tr, s, hexec, fun t ht ↦ ?_, fun m hm file w hcall hret hlast hf ↦ ?_⟩
  · obtain ⟨tr', hrun', -⟩ := hrun.of_mem_states ht
    obtain ⟨_, _, h⟩ := represents_of_run h₀ hrun'
    exact h.ownsPayloads
  · obtain ⟨tr', s', hrun', hstep⟩ := hrun.of_mem hm
    obtain ⟨_, _, h⟩ := represents_of_run h₀ hrun'
    obtain ⟨pre, event, ret⟩ := m
    obtain rfl : event = .write file w := hcall
    exact evictsOldest h hstep hret hlast hf

/-- Ten commands fill the ring, a write is refused, and one more command follows. -/
private def fullRing : List Call :=
  List.replicate 10 (lineOf 97) ++
    [.write 0 ⟨false, [98, newline], length_line 98, false, none⟩, lineOf 99]

/-- The last command takes the place of the first one. -/
theorem block_ownership_of_refusal : ∃ tr s,
    (System.machine .documented).exec (System.loaded loadedDriver) fullRing = .ok (tr, s) ∧
      (∀ t ∈ states tr s, t.driver.OwnsPayloads) ∧
      ∃ m ∈ tr, m.event = lineOf 99 ∧ EvictsOldest .documented m := by
  have hne : ∀ file w, .write file w ∈ fullRing → w.payload ≠ [] := by
    intro file w hw
    simp only [fullRing, lineOf, writeCall, List.mem_append, List.mem_replicate, List.mem_cons,
      Call.write.injEq, List.not_mem_nil, or_false] at hw
    rcases hw with ⟨-, -, rfl⟩ | ⟨-, rfl⟩ | ⟨-, rfl⟩ <;> simp
  obtain ⟨tr, s, hexec, howns, hevicts⟩ :=
    @block_ownership .documented _ _ loadedDriver_init fullRing hne
  have htest : (match (System.machine .documented).exec (System.loaded loadedDriver) fullRing with
    | .ok (tr, _) => tr[11]?.any fun m ↦ decide (0 ≤ m.ret.toInt) && m.pre.driver.ring.full
    | .error _ => false) = true := by decide +kernel
  rw [hexec] at htest
  obtain ⟨m, hm, hlast⟩ := (Option.any_eq_true _ _).mp htest
  obtain ⟨hret, hfull⟩ := Bool.and_eq_true_iff.mp hlast
  have hevent : some m.event = some (lineOf 99) := by
    rw [← Option.map_some, ← hm, ← List.getElem?_map, events_of_exec hexec]
    rfl
  refine ⟨tr, s, hexec, howns, m, List.mem_of_getElem? hm, Option.some.inj hevent, ?_⟩
  exact hevicts m (List.mem_of_getElem? hm) _ _ (Option.some.inj hevent) (of_decide_eq_true hret)
    rfl hfull

end Ownership

/-! ## What leaks -/

/-- Block `i` is live and no longer referred to. -/
def Driver.Leaked (d : Driver) (i : ℕ) : Prop := d.heap.Live i ∧ i ∉ d.blocks

/-- The step is a write whose allocation fails while block `i` holds pending bytes. -/
def LosesPending (m : Move System Call Int64) (i : ℕ) : Prop :=
  ∃ file w, m.event = .write file w ∧ w.interrupted = false ∧
    ¬w.Allocates m.pre.driver.pending.size.toNat ∧ m.pre.driver.pending.buffptr = some i

section Leaks

variable {K : FixedSizeLlseek} {d : Driver} {cmds : List (List UInt8)} {part : List UInt8}

/-- **What a write leaks** is the pending block, when the allocation fails. -/
theorem WriteOutcome.leaked_iff {w : WriteCall} {fpos : Int64} {r : WriteResult}
    (h : Represents d cmds part) (hout : WriteOutcome d cmds part w fpos r) (i : ℕ) :
    r.driver.Leaked i ↔ d.Leaked i ∨
      (w.interrupted = false ∧ ¬w.Allocates part.length ∧ d.pending.buffptr = some i) := by
  have hpend : d.pending.buffptr = some i →
      d.heap.Live i ∧ d.dev.entry ≠ some i ∧ i ∉ d.ringBlocks := fun hbuf ↦
    ⟨h.live_of_mem_blocks (Driver.mem_blocks_iff.mpr (.inr (.inl hbuf))), h.entry_ne (.inl hbuf),
      fun hring ↦ h.pending_ne hring hbuf⟩
  have hkeep : ∀ heap e, Driver.ringBlocks ⟨heap, d.dev, e⟩ = d.ringBlocks := fun _ _ ↦ rfl
  simp only [Driver.Leaked, Driver.mem_blocks_iff, not_or]
  cases hout with
  | interrupted hint => simp [hint]
  | refused hint halloc =>
    by_cases hbuf : d.pending.buffptr = some i
    · simp [hkeep, hbuf, hpend hbuf, hint, halloc]
    · simp [hkeep, hbuf]
  | faulted hint halloc _ _ hlive =>
    by_cases hbuf : d.pending.buffptr = some i <;> simp [hkeep, hlive, hbuf, halloc]
  | continued hint halloc _ _ _ hlive =>
    by_cases hi : i = d.heap.next
    · refine iff_of_false (fun hl ↦ hl.2.2.1 (by rw [hi])) ?_
      have hdead : ¬d.heap.Live i := fun hl ↦ Heap.ne_next_of_live hl hi
      simp [hdead, halloc]
    · by_cases hbuf : d.pending.buffptr = some i <;>
        simp [hkeep, hlive, hbuf, halloc, hi, Ne.symm hi]
  | closed hint halloc _ _ _ hring _ hlive =>
    -- the fresh block is in the ring now, and the evicted one is not live any more
    obtain ⟨hold, hnew⟩ := ringBlocks_commit h.wf hring (i := i)
    constructor
    · rintro ⟨hl, hentry, -, hrest⟩
      rcases (hlive i).mp hl with rfl | ⟨hl, hbuf, hev⟩
      · exact absurd (hnew (.inl rfl)) hrest
      · exact .inl ⟨hl, hentry, hbuf, fun hmem ↦ hrest (hnew (.inr ⟨hmem, hev⟩))⟩
    · rintro (⟨hl, hentry, hbuf, hmem⟩ | ⟨-, hfail, -⟩)
      · have hev : d.evicted ≠ some i := fun hev ↦ hmem (mem_ringBlocks_of_evicted hev)
        refine ⟨(hlive i).mpr (.inr ⟨hl, hbuf, hev⟩), hentry, nofun, fun hrest ↦ ?_⟩
        rcases hold hrest with heq | hmem'
        · exact Heap.ne_next_of_live hl (Option.some.inj heq).symm
        · exact hmem hmem'
      · exact absurd halloc hfail

private theorem step_leaked_iff {s s' : System} {e : Call} {ret : Int64}
    (h : Represents s.driver cmds part) (hstep : System.step K s e = .ok (s', ret)) (i : ℕ) :
    s'.driver.Leaked i ↔ s.driver.Leaked i ∨ LosesPending ⟨s, e, ret⟩ i := by
  rcases System.step_cases h hstep with ⟨hne, hd⟩ | ⟨file, w, r, rfl, hout, hd, rfl⟩
  · have hno : ¬LosesPending ⟨s, e, ret⟩ i := fun ⟨file, w, hcall, _⟩ ↦ hne file w hcall
    rw [hd, or_iff_left hno]
  · rw [hd, hout.leaked_iff h, LosesPending, h.pending.size_eq]
    refine or_congr_right ⟨fun hl ↦ ⟨file, w, rfl, hl⟩, ?_⟩
    rintro ⟨file', w', hcall, hl⟩
    obtain ⟨rfl, rfl⟩ : file = file' ∧ w = w' := by simpa using hcall
    exact hl

/-- **What a run leaks** are the pending blocks of the writes whose allocation failed. -/
theorem leaked_iff_of_run {c : InitCall} (hinit : aesdInitModule c = .ok (d, 0))
    {tr : List (Move System Call Int64)} {s : System}
    (hrun : (System.machine K).Run (System.loaded d) tr s) (i : ℕ) :
    s.driver.Leaked i ↔ ∃ m ∈ tr, LosesPending m i := by
  obtain ⟨h₀, -, hlive⟩ := represents_of_loaded hinit
  refine hrun.invariant (I := fun tr s ↦ s.driver.Leaked i ↔ ∃ m ∈ tr, LosesPending m i) ?_ ?_
  · refine iff_of_false (fun hl ↦ hl.2 ?_) (by simp)
    exact Driver.mem_blocks_iff.mpr (.inl ((hlive i).mp hl.1))
  · intro tr s e s' ret hrun ih hstep
    obtain ⟨_, _, h⟩ := represents_of_run ⟨[], [], h₀⟩ hrun
    rw [step_leaked_iff h hstep, ih]
    simp [or_and_right, exists_or]

/-! ## Unloading -/

private theorem cleanup_live_iff (h : Stores d cmds part) :
    ∃ d', aesdCleanupModule d = .ok d' ∧
      ∀ i, d'.heap.Live i ↔ d.heap.Live i ∧ d.dev.entry ≠ some i := by
  obtain ⟨p, hp, hlive⟩ := h.entry
  obtain ⟨heap, hfree, hnone, -, hkeep⟩ := Heap.free_of_live hlive
  refine ⟨{ d with heap := heap }, by
    rw [aesdCleanupModule, hp, kfree, Heap.freePtr_some, hfree], fun i ↦ ?_⟩
  rw [hp, Heap.Live]
  by_cases hi : i = p
  · simp [hi, hnone]
  · rw [hkeep i hi, ← Heap.Live]
    simp [Ne.symm hi]

private theorem ringBlocks_eq_nil_iff (h : Stores d cmds part) : d.ringBlocks = [] ↔ cmds = [] := by
  have hheld := h.held
  rw [Driver.ringBlocks]
  cases hlive : d.ring.live with
  | nil =>
    rw [hlive, List.forall₂_nil_left_iff] at hheld
    simp [hheld]
  | cons e es =>
    rw [hlive] at hheld
    cases hheld with
    | cons he _ =>
      obtain ⟨p, hp, -⟩ := he.holds
      rw [List.filterMap_cons, hp]
      simp

private theorem payloadBlocks_eq_nil_iff (h : Stores d cmds part) :
    d.payloadBlocks = [] ↔ cmds = [] ∧ part = [] := by
  rw [Driver.payloadBlocks, List.append_eq_nil_iff, ringBlocks_eq_nil_iff h,
    Option.toList_eq_nil_iff, h.pending.buffptr_eq_none_iff, and_comm]

private theorem none_live_after_cleanup_iff (h : Stores d cmds part) :
    ∃ d', aesdCleanupModule d = .ok d' ∧
      ((∀ i, ¬d'.heap.Live i) ↔ (∀ i, ¬d.Leaked i) ∧ cmds = [] ∧ part = []) := by
  obtain ⟨d', hcleanup, hlive⟩ := cleanup_live_iff h
  refine ⟨d', hcleanup, ?_⟩
  rw [← payloadBlocks_eq_nil_iff h]
  constructor
  · intro hnone
    -- the cleanup frees one block only, so that one must be all there was
    have hentry : ∀ i, d.heap.Live i → d.dev.entry = some i := by
      intro i hi
      by_contra hne
      exact hnone i ((hlive i).mpr ⟨hi, hne⟩)
    refine ⟨fun i hl ↦ hl.2 (Driver.mem_blocks_iff.mpr (.inl (hentry i hl.1))), ?_⟩
    apply List.eq_nil_iff_forall_not_mem.mpr
    intro i hi
    exact h.entry_ne (Driver.mem_payloadBlocks_iff.mp hi) (hentry i (h.ownsPayloads.live i hi))
  · rintro ⟨hleak, hnil⟩ i hi
    obtain ⟨hi, hne⟩ := (hlive i).mp hi
    refine hleak i ⟨hi, fun hmem ↦ ?_⟩
    rcases List.mem_append.mp hmem with hmem | hmem
    · exact hne (Option.mem_toList.mp hmem)
    · have hmem' : i ∈ d.payloadBlocks := hmem
      rw [hnil] at hmem'
      cases hmem'

/-- A load that fails leaves the entry structure allocated, unless it failed before allocating
it. -/
private theorem none_live_after_init_iff {c : InitCall} {ret : ℤ}
    (hinit : aesdInitModule c = .ok (d, ret)) :
    (∀ i, ¬d.heap.Live i) ↔ c.allocChrdevRegion < 0 := by
  by_cases hregion : c.allocChrdevRegion < 0
  · rw [aesdInitModule, if_pos hregion] at hinit
    obtain ⟨rfl, -⟩ := Prod.mk.inj (Except.ok.inj hinit)
    exact iff_of_true (fun i hi ↦ by simp [Driver.unloaded, Heap.Live] at hi) hregion
  · refine iff_of_false (fun hnone ↦ ?_) hregion
    obtain ⟨p, -, hlive⟩ := (represents_of_init hinit (by omega)).1.entry
    exact hnone p hlive

/-- **When no block is lost.** In every state of a run all live payload blocks are referred to
exactly when no write of the run had its allocation fail with bytes pending. After unloading no
block is live exactly when, besides, no command was stored and no bytes were pending. After a
load that returns an error no block is live exactly when it failed at `alloc_chrdev_region`. -/
theorem nothing_lost_iff {c : InitCall} (hinit : aesdInitModule c = .ok (d, 0))
    {tr : List (Move System Call Int64)} {s : System}
    (hrun : (System.machine K).Run (System.loaded d) tr s) :
    ((∀ t ∈ states tr s, ∀ i, t.driver.heap.Live i → t.driver.dev.entry ≠ some i →
        i ∈ t.driver.payloadBlocks) ↔ ∀ m ∈ tr, ∀ i, ¬LosesPending m i) ∧
      (∃ d', aesdCleanupModule s.driver = .ok d' ∧
        ((∀ i, ¬d'.heap.Live i) ↔ (∀ m ∈ tr, ∀ i, ¬LosesPending m i) ∧
          s.driver.commands = some [] ∧ s.driver.pendingBytes = some [])) ∧
      ∀ c' d' ret, aesdInitModule c' = .ok (d', ret) → ret ≠ 0 →
        ((∀ i, ¬d'.heap.Live i) ↔ c'.allocChrdevRegion < 0) := by
  have hleak : (∀ i, ¬s.driver.Leaked i) ↔ ∀ m ∈ tr, ∀ i, ¬LosesPending m i := by
    simp only [leaked_iff_of_run hinit hrun, not_exists, not_and]
    exact ⟨fun h m hm i ↦ h i m hm, fun h i m hm ↦ h m hm i⟩
  have hiff : ∀ t : System, (∀ i, t.driver.heap.Live i → t.driver.dev.entry ≠ some i →
      i ∈ t.driver.payloadBlocks) ↔ ∀ i, ¬t.driver.Leaked i := by
    intro t
    apply forall_congr'
    intro i
    rw [Driver.Leaked, Driver.mem_blocks_iff, Driver.mem_payloadBlocks_iff]
    tauto
  obtain ⟨cmds, part, h⟩ := represents_of_run ⟨[], [], (represents_of_loaded hinit).1⟩ hrun
  obtain ⟨d', hcleanup, hnone⟩ := none_live_after_cleanup_iff h.toStores
  refine ⟨?_, ⟨d', hcleanup, ?_⟩, fun _ _ _ hinit' _ ↦ none_live_after_init_iff hinit'⟩
  · -- a leaked block stays leaked, so the last state speaks for all states
    rw [← hleak]
    constructor
    · intro hall
      exact (hiff s).mp (hall s (by simp [states]))
    · intro hs t ht
      obtain ⟨tr', hrun', hsub⟩ := hrun.of_mem_states ht
      apply (hiff t).mpr
      intro i hl
      obtain ⟨m, hm, hloses⟩ := (leaked_iff_of_run hinit hrun' i).mp hl
      exact hleak.mp hs m (hsub m hm) i hloses
  · rw [hnone, hleak, h.commands_eq, h.pendingBytes_eq, Option.some.injEq, Option.some.injEq]

end Leaks

private def grantedMove (m : Move System Call Int64) : Bool :=
  match m.event with
  | .write _ w => decide (w.Allocates m.pre.driver.pending.size.toNat)
  | _ => true

private theorem not_losesPending {m : Move System Call Int64} (h : grantedMove m = true) (i : ℕ) :
    ¬LosesPending m i := by
  rintro ⟨file, w, hevent, -, hno, -⟩
  rw [grantedMove, hevent] at h
  exact hno (of_decide_eq_true h)

/-- The second part of a command cannot be copied, which frees the first one. The module is unloaded
then, and leaves nothing. -/
theorem nothing_lost_of_failed_copy : ∃ tr s,
    (System.machine .documented).Run (System.loaded loadedDriver) tr s ∧
      tr.map Move.ret = [1, -Errno.efault] ∧
      (∀ t ∈ states tr s, ∀ i, t.driver.heap.Live i → t.driver.dev.entry ≠ some i →
        i ∈ t.driver.payloadBlocks) ∧
      ∃ d', aesdCleanupModule s.driver = .ok d' ∧ ∀ i, ¬d'.heap.Live i := by
  obtain ⟨tr, s, hrun, htest⟩ := exists_run_of_exec (System.machine .documented)
    (System.loaded loadedDriver)
    [writeCall 0 [97] (by decide), .write 0 ⟨false, [98], by decide, true, some 0⟩]
    (fun tr s ↦ decide (tr.map Move.ret = [1, -Errno.efault] ∧ s.driver.commands = some [] ∧
      s.driver.pendingBytes = some []) && tr.all grantedMove) (by decide +kernel)
  obtain ⟨hend, hall⟩ := Bool.and_eq_true_iff.mp htest
  obtain ⟨hrets, hcommands, hpending⟩ := of_decide_eq_true hend
  have hloses : ∀ m ∈ tr, ∀ i, ¬LosesPending m i := fun m hm i ↦
    not_losesPending (List.all_eq_true.mp hall m hm) i
  obtain ⟨hkept, ⟨d', hcleanup, hnone⟩, -⟩ := nothing_lost_iff loadedDriver_init hrun
  exact ⟨tr, s, hrun, hrets, hkept.mpr hloses, d', hcleanup,
    hnone.mpr ⟨hloses, hcommands, hpending⟩⟩

/-- A command that is stored when the module is unloaded stays allocated. -/
theorem stored_command_lost : ∃ (s : System) (d' : Driver), Reachable .documented s ∧
    aesdCleanupModule s.driver = .ok d' ∧ d'.heap.Live 1 := by
  obtain ⟨tr, s, hrun, htest⟩ := exists_run_of_exec (System.machine .documented)
    (System.loaded loadedDriver) [writeCall 0 [97, newline] (by decide)]
    (fun _ s ↦ match aesdCleanupModule s.driver with
      | .ok d' => decide (d'.heap.Live 1)
      | .error _ => false) (by decide +kernel)
  split at htest
  · rename_i d' hcleanup
    exact ⟨s, d', ⟨_, _, tr, loadedDriver_init, hrun⟩, hcleanup, of_decide_eq_true htest⟩
  · cases htest

end Aesd
