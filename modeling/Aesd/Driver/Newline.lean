import Aesd.Driver.Runs

/-!
# The newline test

`aesd_write` ends by looking at `buffptr[size - 1]`, the last pending byte. Nothing in the function
makes sure that there is one: `size` is a `size_t`, and for a pending entry of no bytes the index
wraps around. `atNewlineTest` is the part of the function before the test, and
`newline_test_iff` says for which writes the test is in range.

The writes that leave the range are those of no bytes with no bytes pending. They also decide what
a write of no bytes does: nothing at all, unless it leaves the range or loses the pending bytes to a
failed `krealloc`.

An allocation of no bytes gives a block like any other, only that it has no cells. So the first
write of no bytes gets as far as the test, which then looks in front of that block.
-/

namespace Aesd

open AesdCircularBuffer Machine

/-! ## The write up to its test -/

/-- `aesd_write` up to the newline test: the memory at the test, or `none` when the function has
returned before. -/
def atNewlineTest (d : Driver) (w : WriteCall) : Except Fault (Option Driver) := do
  if w.interrupted then return none
  let entry ← d.entryStruct
  match ← growEntry d.heap entry w with
  | (_, none) => return none
  | (heap, some p) =>
    let (heap, left) ← copyFromUser heap p entry.size.toNat w.payload w.copy
    if left ≠ 0 then return none
    return some ⟨heap, d.dev, ⟨some p, entry.size + w.count⟩⟩

/-- `aesd_device.entry->buffptr[aesd_device.entry->size - 1]`. -/
def Driver.lastByte (d : Driver) : Except Fault (List UInt8) :=
  match d.pending.buffptr with
  | none => .error .nullDereference
  | some p => d.heap.load p (d.pending.size - 1).toNat 1

/-- From the test on, `aesd_write` looks at the last byte and stores a finished command. -/
theorem aesdWrite_of_atNewlineTest {d g : Driver} {w : WriteCall} (fpos : Int64)
    (h : atNewlineTest d w = .ok (some g)) :
    aesdWrite d w fpos = do
      let last ← g.lastByte
      let stored ← if last = [newline] then commitEntry g w.count else .ok g
      return ⟨stored, w.count.toInt64, fpos + w.count.toInt64⟩ := by
  rw [atNewlineTest] at h
  rw [aesdWrite]
  cases hint : w.interrupted with
  | true =>
    rw [hint] at h
    cases h
  | false =>
    rw [hint, if_neg Bool.false_ne_true] at h
    rw [if_neg Bool.false_ne_true]
    obtain ⟨entry, hentry, h⟩ := exists_of_bind_eq_ok h
    obtain ⟨⟨heap, p⟩, hgrow, h⟩ := exists_of_bind_eq_ok h
    cases p with
    | none => cases h
    | some p =>
      obtain ⟨⟨heap', left⟩, hcopy, h⟩ := exists_of_bind_eq_ok h
      by_cases hleft : left = 0
      · subst hleft
        obtain rfl := Option.some.inj (Except.ok.inj h)
        simp only [hentry, hgrow, hcopy, ok_bind]
        rfl
      · have hnone : (Except.ok none : Except Fault (Option Driver)) = .ok (some g) := by
          simpa only [if_pos hleft, pure_eq_ok] using h
        cases hnone

/-! ## When the test is reached, and what it finds -/

section Test

variable {d : Driver} {cmds : List (List UInt8)} {part : List UInt8} {w : WriteCall}

/-- The write gets as far as its test when `part` bytes are pending. -/
def WriteCall.Reaches (w : WriteCall) (part : ℕ) : Prop :=
  w.interrupted = false ∧ w.Allocates part ∧ w.Copies

private theorem atNewlineTest_spec (h : Stores d cmds part) (w : WriteCall) :
    ∃ result, atNewlineTest d w = .ok result ∧ (result.isSome = true ↔ w.Reaches part.length) ∧
      ∀ g, result = some g → g.pending.size.toNat = (part ++ w.payload).length ∧
        ∃ p, g.pending.buffptr = some p ∧ g.heap.Holds p (part ++ w.payload) := by
  rw [atNewlineTest, WriteCall.Reaches]
  cases hint : w.interrupted with
  | true => exact ⟨none, rfl, by simp, nofun⟩
  | false =>
  rw [if_neg Bool.false_ne_true, h.entryStruct_eq, ok_bind]
  by_cases halloc : w.Allocates part.length
  swap
  · rw [h.growEntry_of_refused halloc, ok_bind]
    exact ⟨none, rfl, by simp [halloc], nofun⟩
  obtain ⟨heap, hgrow, hnew, -⟩ := h.growEntry_of_allocates halloc
  obtain ⟨heap', xs, hcopy, hxs, hholds, -⟩ := copyFromUser_spec hnew w.copy
  simp only [hgrow, ok_bind, h.pending.size_eq, hcopy]
  by_cases hcopies : w.Copies
  · obtain rfl := hxs hcopies
    have hleft := hcopies
    rw [WriteCall.Copies] at hleft
    rw [if_neg (by omega)]
    refine ⟨_, rfl, by simp [halloc, hcopies], ?_⟩
    rintro g ⟨⟩
    refine ⟨?_, _, rfl, hholds⟩
    rw [h.toNat_newSize w, List.length_append]
  · have hle := copied_le w.copy w.payload.length
    have hleft := hcopies
    rw [WriteCall.Copies] at hleft
    rw [if_pos (by omega)]
    exact ⟨none, rfl, by simp [hcopies], nofun⟩

/-- The test of memory `g` is in range: the pending entry is not empty, and the byte read is the
last one of the bytes `xs`. -/
structure TestInRange (g : Driver) (xs : List UInt8) : Prop where
  size_pos : 1 ≤ g.pending.size.toNat
  lastByte : ∃ b, g.lastByte = .ok [b] ∧ xs.getLast? = some b

private theorem testInRange_iff {g : Driver} {xs : List UInt8} {p : ℕ}
    (hsize : g.pending.size.toNat = xs.length) (hp : g.pending.buffptr = some p)
    (hholds : g.heap.Holds p xs) : TestInRange g xs ↔ xs ≠ [] := by
  constructor
  · rintro ⟨hpos, -⟩ rfl
    rw [hsize] at hpos
    exact absurd hpos (by decide)
  · intro hne
    obtain ⟨b, hload, hlast⟩ := load_last hholds hsize hne
    have hpos := List.length_pos_of_ne_nil hne
    refine ⟨by omega, b, ?_, hlast⟩
    rw [Driver.lastByte, hp]
    exact hload

end Test

/-! ## The test over all reachable states -/

structure LeavesAll (d : Driver) (r : WriteResult) : Prop where
  ring : r.driver.ring = d.ring
  commands : r.driver.commands = d.commands
  size : r.driver.dev.size = d.dev.size
  pendingBytes : r.driver.pendingBytes = d.pendingBytes

section Empty

variable {d : Driver} {cmds : List (List UInt8)} {part : List UInt8} {w : WriteCall}
  {fpos : Int64} {r : WriteResult}

private theorem copies_nil (hpay : w.payload = []) : w.Copies := by
  have hle := copied_le w.copy w.payload.length
  rw [hpay, List.length_nil] at hle
  rw [WriteCall.Copies, hpay, List.length_nil]
  omega

/-- A write of no bytes that returns leaves everything as it was exactly when it is interrupted, or
served with bytes pending, or refused without. -/
private theorem leavesAll_iff (h : Represents d cmds part) (hpay : w.payload = [])
    (hout : WriteOutcome d cmds part w fpos r) :
    LeavesAll d r ↔ w.interrupted = true ∨ (w.Allocates part.length ↔ part ≠ []) := by
  cases hout with
  | interrupted hint => exact iff_of_true ⟨rfl, rfl, rfl, rfl⟩ (.inl hint)
  | refused hint halloc hrep =>
    rw [hint, or_iff_right Bool.false_ne_true, iff_false_left halloc, not_not]
    constructor
    · intro hall
      have hbytes := hall.pendingBytes
      rw [hrep.pendingBytes_eq, h.pendingBytes_eq, Option.some.injEq] at hbytes
      exact hbytes.symm
    · rintro rfl
      exact ⟨rfl, by rw [hrep.commands_eq, h.commands_eq], rfl,
        by rw [hrep.pendingBytes_eq, h.pendingBytes_eq]⟩
  | faulted _ _ hcopy => exact absurd (copies_nil hpay) hcopy
  | continued _ halloc _ _ hrep =>
    rw [hpay, List.append_nil] at hrep
    have hne : part ≠ [] := by
      intro hnil
      have hbuf := hrep.pending.buffptr_eq_none_iff.mpr hnil
      cases hbuf
    refine iff_of_true ⟨rfl, by rw [hrep.commands_eq, h.commands_eq], rfl, ?_⟩
      (.inr (iff_of_true halloc hne))
    rw [hrep.pendingBytes_eq, h.pendingBytes_eq]
  | closed _ _ _ hlast =>
    rw [hpay] at hlast
    cases hlast

private theorem served_of_error (h : Represents d cmds part) {e : Fault}
    (herr : aesdWrite d w fpos = .error e) : w.interrupted = false ∧ w.Allocates part.length := by
  rw [aesdWrite] at herr
  cases hint : w.interrupted with
  | true =>
    rw [hint] at herr
    cases herr
  | false =>
    refine ⟨rfl, ?_⟩
    by_contra halloc
    rw [hint, if_neg Bool.false_ne_true, h.entryStruct_eq, ok_bind,
      h.growEntry_of_refused halloc] at herr
    cases herr

end Empty

/-- **When the newline test is in range.** In every reachable state, a write that gets as far as its
test finds a pending byte there, written by it or by an earlier write, exactly when it is not a
write of no bytes that is served with no bytes pending. And a write of no bytes leaves everything
as it was exactly when it is interrupted, or served with bytes pending, or refused without. -/
theorem newline_test_iff {K : FixedSizeLlseek} {s : System} (hs : Reachable K s) (w : WriteCall)
    (fpos : Int64) :
    ((∀ g, atNewlineTest s.driver w = .ok (some g) →
        ∃ part, s.driver.pendingBytes = some part ∧ TestInRange g (part ++ w.payload)) ↔
      w.payload ≠ [] ∨ s.driver.pendingBytes ≠ some [] ∨ w.interrupted = true ∨
        w.granted = false) ∧
    ((w.payload = [] → ∃ r, aesdWrite s.driver w fpos = .ok r ∧ LeavesAll s.driver r) ↔
      w.payload ≠ [] ∨ w.interrupted = true ∨
        (w.granted = true ↔ s.driver.pendingBytes ≠ some [])) := by
  obtain ⟨cmds, part, h⟩ := hs.represents
  obtain ⟨result, hresult, hreach, hheld⟩ := atNewlineTest_spec h.toStores w
  have hbytes := h.pendingBytes_eq
  have hpart : s.driver.pendingBytes ≠ some [] ↔ part ≠ [] := by
    rw [hbytes, Ne, Option.some.injEq]
  -- with no bytes to add, the allocation is never too large
  have halloc : w.payload = [] → (w.Allocates part.length ↔ w.granted = true) := by
    intro hpay
    rw [WriteCall.Allocates, hpay]
    exact and_iff_left h.pending.length_le
  rw [hpart]
  constructor
  · have hrange : (∀ g, atNewlineTest s.driver w = .ok (some g) →
        ∃ part, s.driver.pendingBytes = some part ∧ TestInRange g (part ++ w.payload)) ↔
          (w.Reaches part.length → part ++ w.payload ≠ []) := by
      rw [hresult, hbytes, ← hreach]
      cases result with
      | none => exact iff_of_true (fun g hg ↦ by cases hg) (fun hg ↦ by cases hg)
      | some g =>
        obtain ⟨hsize, p, hp, hholds⟩ := hheld g rfl
        rw [← testInRange_iff hsize hp hholds]
        constructor
        · intro hall _
          obtain ⟨part', hpart', hin⟩ := hall g rfl
          exact Option.some.inj hpart' ▸ hin
        · rintro hin _ ⟨⟩
          exact ⟨part, rfl, hin rfl⟩
    rw [hrange, WriteCall.Reaches, Ne, List.append_eq_nil_iff, not_and_or]
    by_cases hpay : w.payload = []
    · rw [halloc hpay, and_iff_left (copies_nil hpay)]
      cases w.interrupted <;> cases w.granted <;> simp [hpay]
    · exact iff_of_true (fun _ ↦ .inr hpay) (.inl hpay)
  · by_cases hpay : w.payload = []
    swap
    · exact iff_of_true (fun hnil ↦ absurd hnil hpay) (.inl hpay)
    rw [forall_prop_of_true hpay, or_iff_right (not_not.mpr hpay), ← halloc hpay]
    rcases aesdWrite_spec h w fpos with ⟨r, hr, hout⟩ | ⟨hnil, -, hr⟩
    · rw [← leavesAll_iff h hpay hout, hr]
      constructor
      · rintro ⟨r', hr', hall⟩
        exact Except.ok.inj hr' ▸ hall
      · intro hall
        exact ⟨r, rfl, hall⟩
    · obtain ⟨hint, hserved⟩ := served_of_error h hr
      rw [hr]
      apply iff_of_false
      · rintro ⟨r, hr', -⟩
        cases hr'
      · rw [hint, or_iff_right Bool.false_ne_true, hnil]
        intro hiff
        exact hiff.mp (hnil ▸ hserved) rfl

/-- A write of no bytes after `ab` was written finds the `b` and changes nothing. -/
theorem newline_test_of_pending : ∃ (s : System) (r : WriteResult),
    s.driver.pendingBytes = some [97, 98] ∧
    aesdWrite s.driver ⟨false, [], by decide, true, none⟩ 2 = .ok r ∧ LeavesAll s.driver r := by
  obtain ⟨tr, s, hrun, htest⟩ := exists_run_of_exec (System.machine .documented)
    (System.loaded loadedDriver) [writeCall 0 [97, 98] (by decide)]
    (fun _ s ↦ decide (s.driver.pendingBytes = some [97, 98])) (by decide +kernel)
  have hbytes := of_decide_eq_true htest
  obtain ⟨r, hr, hall⟩ := (newline_test_iff ⟨_, _, tr, loadedDriver_init, hrun⟩
    ⟨false, [], by decide, true, none⟩ 2).2.mpr (.inr (.inr (by rw [hbytes]; decide))) rfl
  exact ⟨s, r, hbytes, hr, hall⟩

/-- A write of no bytes to a device that was just loaded looks at the byte before an empty block. -/
theorem newline_test_out_of_range : ∃ (s : System) (g : Driver), Reachable .documented s ∧
    atNewlineTest s.driver ⟨false, [], by decide, true, none⟩ = .ok (some g) ∧
    g.pending.size = 0 ∧ g.pending.size - 1 = 0xFFFFFFFFFFFFFFFF ∧
    g.lastByte = .error .outOfBounds ∧
    aesdWrite s.driver ⟨false, [], by decide, true, none⟩ 0 = .error .outOfBounds :=
  ⟨System.loaded loadedDriver, _, ⟨_, _, [], loadedDriver_init, .nil⟩, rfl, rfl, rfl, rfl, rfl⟩

end Aesd
