import Aesd.Driver.Cursor

/-!
# The running size

`aesd_device.size` is what `aesd_llseek` takes for the end of the contents. It is not computed from
the ring but kept along with it: a commit adds the count of the write that closed the command, and
on a full ring it first subtracts `oldEntry->size`, which by then is the size of the new entry.

## Two slips

A command that was written in several parts is counted with its last part alone. And since
`oldEntry` points to the slot that the new entry was stored in, an eviction takes off the length of
the new command instead of that of the old one. On a full ring the two only cancel when the evicted
entry has the right length; that is the condition `Counted`, which looks at the state before the
step and at the write, and at nothing that the step computes.

`sizeAfterCommit_eq_iff` compares the two totals after one commit, and `size_accounted_iff` says
which runs keep them equal.
-/

namespace Aesd

open AesdCircularBuffer Segments Machine

/-! ## One commit -/

section Commit

variable {d : Driver} {cmds : List (List UInt8)} {part : List UInt8}

private theorem sum_lengths_commit (h : Stores d cmds part) (xs : List UInt8) :
    ((((cmds ++ [xs]).rtake 10).map List.length).sum : ℤ)
      = d.ring.total + xs.length - if d.ring.full then (d.ring.sizes.headD 0 : ℤ) else 0 := by
  have hlen := h.length_eq
  rw [h.total_eq, h.sizes_eq, List.rtake, List.length_append, List.length_singleton]
  cases hf : d.ring.full with
  | true =>
    rw [liveCount_of_full hf] at hlen
    cases cmds with
    | nil => simp at hlen
    | cons x cmds =>
      rw [hlen]
      simp
      omega
  | false =>
    have hlt := liveCount_lt_of_not_full h.wf hf
    rw [show cmds.length + 1 - 10 = 0 by omega]
    simp

/-- **The running size after a commit** is the new total exactly when no bytes were pending or, on
a full ring, when the evicted entry is as long as the new one and its pending part together. -/
theorem sizeAfterCommit_eq_iff (h : Stores d cmds part) {w : WriteCall}
    (halloc : w.Allocates part.length) (hsize : d.dev.size.toInt = d.ring.total) :
    ((d.sizeAfterCommit (d.pending.size + w.count) w.count).toInt
        = (((cmds ++ [part ++ w.payload]).rtake 10).map List.length).sum)
      ↔ if d.ring.full then d.ring.sizes.headD 0 = 2 * part.length + w.payload.length
        else part.length = 0 := by
  have htotal := h.total_lt
  rw [WriteCall.Allocates, kmallocMaxSize] at halloc
  have hcount := w.toNat_count
  have hlen : (d.pending.size + w.count).toNat = part.length + w.payload.length := by
    rw [toNat_add_of_lt (by rw [h.pending.size_eq, hcount]; omega), h.pending.size_eq, hcount]
  rw [sum_lengths_commit h, List.length_append, Driver.sizeAfterCommit]
  cases hf : d.ring.full with
  | false =>
    simp only [Bool.false_eq_true, if_false]
    rw [toInt_add_size_of_lt (by omega), hsize, hcount]
    omega
  | true =>
    -- what is subtracted is the size of the new entry, where that of the evicted one is due
    simp only [if_true]
    have hsub := toInt_sub_size_of_le (x := d.dev.size) (n := d.pending.size + w.count)
      (by omega)
    rw [toInt_add_size_of_lt (by omega), hsub, hsize, hcount, hlen]
    omega

end Commit

/-! ## The size over a run -/

/-- The running size is the end of the contents: a read of everything returns that many bytes, and
seeks from the start and from the end are relative to it. -/
structure SeeksToTrueEnd (K : FixedSizeLlseek) (d : Driver) : Prop where
  size_eq : d.dev.size.toInt = d.ring.total
  read : ∀ (c : ReadCall) user, c.interrupted = false → (∀ i, c.copy i = none) →
    d.ring.total ≤ c.count.toNat → ∃ r, aesdRead d c user 0 = .ok r ∧ r.ret = d.dev.size
  seek_set : ∀ fpos offset, aesdLlseek K d false fpos offset seekSet =
    if 0 ≤ offset.toInt ∧ offset.toInt ≤ d.ring.total then (offset, offset)
    else (-Errno.einval, fpos)
  seek_end : ∀ fpos offset, ∃ pos : Int64,
    (aesdLlseek K d false fpos offset seekEnd =
      if 0 ≤ d.ring.total + offset.toInt ∧ d.ring.total + offset.toInt ≤ d.ring.total then
        (pos, pos) else (-Errno.einval, fpos)) ∧
    (offset.toInt ≤ 0 → 0 ≤ d.ring.total + offset.toInt →
      pos.toInt = d.ring.total + offset.toInt)

/-- The step closes no command, or closes it in a way that keeps the running size right: with no
bytes pending while the ring fills, and on a full ring by evicting an entry as long as the new
one and its pending part together. -/
def Counted (m : Move System Call Int64) : Prop :=
  ∀ file w, m.event = .write file w → w.interrupted = false →
    w.Allocates m.pre.driver.pending.size.toNat → w.Copies →
    w.payload.getLast? = some newline →
    if m.pre.driver.ring.full then
      m.pre.driver.ring.sizes.headD 0
        = 2 * m.pre.driver.pending.size.toNat + w.payload.length
    else m.pre.driver.pending.size.toNat = 0

section Accounting

variable {K : FixedSizeLlseek} {d : Driver} {cmds : List (List UInt8)} {part : List UInt8}

private theorem seeksToTrueEnd_iff (h : Stores d cmds part) :
    SeeksToTrueEnd K d ↔ d.dev.size.toInt = d.ring.total := by
  refine ⟨SeeksToTrueEnd.size_eq, fun hsize ↦ ⟨hsize, fun c user hint hcopy hcount ↦ ?_,
    fun fpos offset ↦ ?_, fun fpos offset ↦ ⟨d.dev.size + offset, ?_, fun hle hpos ↦ ?_⟩⟩⟩
  · obtain ⟨r, hr, hret, -⟩ := @Stores.read_rest d cmds part h c user 0 le_rfl hint hcopy
      (by rw [h.length_flatten, Int64.toInt_zero]; simpa using hcount)
    refine ⟨r, hr, Int64.toInt_inj.mp ?_⟩
    rw [hret, Int64.toInt_zero, Int.toNat_zero, List.drop_zero, h.length_flatten, hsize]
  · rw [aesdLlseek, if_neg Bool.false_ne_true, K.seek_set, hsize]
  · rw [aesdLlseek, if_neg Bool.false_ne_true, K.seek_end, hsize]
  · have htotal := h.total_lt
    rw [toInt_add_of_bounds (by omega) (by omega), hsize]

private theorem step_size_iff {s s' : System} {e : Call} {ret : Int64}
    (h : Represents s.driver cmds part) (hstep : System.step K s e = .ok (s', ret))
    (hsize : s.driver.dev.size.toInt = s.driver.ring.total) :
    s'.driver.dev.size.toInt = s'.driver.ring.total ↔ Counted ⟨s, e, ret⟩ := by
  rcases System.step_cases h hstep with ⟨hne, hd⟩ | ⟨file, w, r, rfl, hout, hd, rfl⟩
  · rw [hd]
    exact iff_of_true hsize fun file w hcall ↦ absurd hcall (hne file w)
  have hcounted : Counted ⟨s, .write file w, r.ret⟩ ↔ (w.interrupted = false →
      w.Allocates part.length → w.Copies → w.payload.getLast? = some newline →
      if s.driver.ring.full then s.driver.ring.sizes.headD 0 = 2 * part.length + w.payload.length
      else part.length = 0) := by
    rw [← h.pending.size_eq]
    refine ⟨fun hc ↦ hc file w rfl, fun hc file' w' hcall ↦ ?_⟩
    obtain ⟨-, rfl⟩ : file = file' ∧ w = w' := by simpa using hcall
    exact hc
  rw [hd, hcounted]
  cases hout with
  | interrupted hint => exact iff_of_true hsize fun hint' ↦ by simp [hint] at hint'
  | refused _ halloc => exact iff_of_true hsize fun _ halloc' ↦ absurd halloc' halloc
  | faulted _ _ hcopy => exact iff_of_true hsize fun _ _ hcopy' ↦ absurd hcopy' hcopy
  | continued _ _ _ hlast => exact iff_of_true hsize fun _ _ _ hlast' ↦ absurd hlast' hlast
  | closed hint halloc hcopy hlast hrep =>
    rw [hrep.total_eq]
    exact (sizeAfterCommit_eq_iff h.toStores halloc hsize).trans
      ⟨fun hc _ _ _ _ ↦ hc, fun hc ↦ hc hint halloc hcopy hlast⟩

/-- **When the running size is right.** The size is the end of the contents in every state of a run
exactly when every step of the run counts right. -/
theorem size_accounted_iff {c : InitCall} (hinit : aesdInitModule c = .ok (d, 0))
    {tr : List (Move System Call Int64)} {s : System}
    (hrun : (System.machine K).Run (System.loaded d) tr s) :
    (∀ t ∈ states tr s, SeeksToTrueEnd K t.driver) ↔ ∀ m ∈ tr, Counted m := by
  obtain ⟨h₀, hsize, -⟩ := represents_of_loaded hinit
  refine hrun.all_states_iff ?_ fun hrun hstep hP ↦ ?_
  · refine (seeksToTrueEnd_iff h₀.toStores).mpr ?_
    show d.dev.size.toInt = d.ring.total
    rw [hsize, h₀.total_eq]
    rfl
  · obtain ⟨_, _, h⟩ := represents_of_run ⟨[], [], h₀⟩ hrun
    obtain ⟨_, _, h'⟩ := System.step_represents h hstep
    rw [seeksToTrueEnd_iff h'.toStores]
    exact step_size_iff h hstep hP.size_eq

end Accounting

/-- Two commands in one write each. -/
theorem size_accounted_of_two : ∃ tr s,
    (System.machine .documented).Run (System.loaded loadedDriver) tr s ∧
      s.driver.content = some [97, newline, 98, newline] ∧
      ∀ t ∈ states tr s, SeeksToTrueEnd .documented t.driver := by
  obtain ⟨tr, s, hrun, htest⟩ := exists_run_of_exec (System.machine .documented)
    (System.loaded loadedDriver)
    [writeCall 0 [97, newline] (by decide), writeCall 0 [98, newline] (by decide)]
    (fun tr s ↦ decide (s.driver.content = some [97, newline, 98, newline] ∧
      ∀ m ∈ tr, m.pre.driver.ring.full = false ∧ m.pre.driver.pending.size.toNat = 0))
    (by decide +kernel)
  obtain ⟨hcontent, hfill⟩ := of_decide_eq_true htest
  refine ⟨tr, s, hrun, hcontent, (size_accounted_iff loadedDriver_init hrun).mpr fun m hm ↦ ?_⟩
  intro file w _ _ _ _ _
  rw [if_neg (by simp [(hfill m hm).1])]
  exact (hfill m hm).2

/-- A command of four bytes written in two parts of two leaves the size at two. -/
theorem size_of_two_parts : ∃ s : System, Reachable .documented s ∧
    s.driver.dev.size = 2 ∧ s.driver.ring.total = 4 ∧ ¬SeeksToTrueEnd .documented s.driver := by
  obtain ⟨tr, s, hrun, htest⟩ := exists_run_of_exec (System.machine .documented)
    (System.loaded loadedDriver)
    [writeCall 0 [97, 98] (by decide), writeCall 0 [99, newline] (by decide)]
    (fun _ s ↦ decide (s.driver.dev.size = 2 ∧ s.driver.ring.total = 4)) (by decide +kernel)
  obtain ⟨hsize, htotal⟩ := of_decide_eq_true htest
  refine ⟨s, ⟨_, _, tr, loadedDriver_init, hrun⟩, hsize, htotal, fun hend ↦ ?_⟩
  have hbad := hend.size_eq
  rw [hsize, htotal] at hbad
  exact absurd hbad (by decide)

end Aesd
