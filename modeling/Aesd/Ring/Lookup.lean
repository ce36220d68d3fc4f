import Aesd.Foundation.Segments
import Aesd.Foundation.Words
import Aesd.Ring.Representation

/-!
# Looking up a byte offset

`aesd_circular_buffer_find_entry_offset_for_fpos` adds up sizes along the traversal and stops at
the first entry whose end lies past the offset. On a well-formed buffer whose sizes do not
overflow a `size_t` together, this is `Segments.locate` on the list of sizes (`find_spec`): the
slot returned is that of the located rank, and the out parameter is written exactly when there is
one.

The loop keeps the total of the sizes before the current entry. While it has not returned, that
total is at most the offset; this is the invariant, and it also says why an entry of size zero is
never returned, since its end is not past the offset either.
-/

namespace Aesd

open AesdCircularBuffer Segments

namespace AesdCircularBuffer

def sizes (b : AesdCircularBuffer) : List ℕ := b.live.map fun e ↦ e.size.toNat

def total (b : AesdCircularBuffer) : ℕ := b.sizes.sum

theorem sizes_eq (b : AesdCircularBuffer) :
    b.sizes = (List.range b.liveCount).map fun i ↦ (b.entry (b.slotOfRank i)).size.toNat := by
  rw [sizes, live, List.map_map]
  rfl

end AesdCircularBuffer

section Find

variable {b : AesdCircularBuffer}

/-- The lookup loop over the ranks in a list. -/
private abbrev findFold (b : AesdCircularBuffer) (off total : UInt64) (ranks : List ℕ) :
    UInt64 ⊕ (Slot × UInt64) :=
  foldExit (fun total i ↦ findEntryBody b off total i (b.slotOfRank i)) total ranks

/-- The lookup loop from rank `i` on. The running total stays at most the offset sought, since the
loop leaves as soon as it would pass it. -/
private theorem findFold_range (off : UInt64) : ∀ (n i : ℕ) (total : UInt64),
    total.toNat ≤ off.toNat →
    total.toNat + ((List.range' i n).map fun j ↦ (b.entry (b.slotOfRank j)).size.toNat).sum
      < 2 ^ 64 →
    match locate ((List.range' i n).map fun j ↦ (b.entry (b.slotOfRank j)).size.toNat)
        (off.toNat - total.toNat) with
    | none => ∃ t, findFold b off total (List.range' i n) = .inl t
    | some (j, o) => findFold b off total (List.range' i n)
        = .inr (b.slotOfRank (i + j), UInt64.ofNat o) := by
  intro n
  induction n with
  | zero => intro i total _ _; exact ⟨total, rfl⟩
  | succ n ih =>
    intro i total hle hsum
    rw [List.range'_succ, List.map_cons, List.sum_cons] at hsum
    rw [List.range'_succ, List.map_cons, findFold, foldExit_cons]
    have hadd : (total + (b.entry (b.slotOfRank i)).size).toNat
        = total.toNat + (b.entry (b.slotOfRank i)).size.toNat := toNat_add_of_lt (by omega)
    have htest : total + (b.entry (b.slotOfRank i)).size > off
        ↔ off.toNat < total.toNat + (b.entry (b.slotOfRank i)).size.toNat := by
      rw [gt_iff_lt, UInt64.lt_iff_toNat_lt, hadd]
    by_cases hin : off.toNat < total.toNat + (b.entry (b.slotOfRank i)).size.toNat
    · -- the entry ends behind the offset, and it does not start behind it
      rw [locate_cons_of_lt (by omega), findEntryBody, if_pos (htest.mpr hin)]
      simp only [Sum.elim_inr, Nat.add_zero]
      rw [show off - total = UInt64.ofNat (off.toNat - total.toNat) from UInt64.toNat_inj.mp (by
        rw [toNat_sub_of_le hle, toNat_ofNat_of_lt (by have := off.toNat_lt; omega)])]
    · rw [locate_cons_of_le (by omega), findEntryBody, if_neg (mt htest.mp hin), Sum.elim_inl]
      have hnext := ih (i + 1) (total + (b.entry (b.slotOfRank i)).size) (by omega) (by omega)
      rw [hadd, ← Nat.sub_sub] at hnext
      cases hl : locate ((List.range' (i + 1) n).map fun j ↦
          (b.entry (b.slotOfRank j)).size.toNat)
          (off.toNat - total.toNat - (b.entry (b.slotOfRank i)).size.toNat) with
      | none =>
        rw [hl] at hnext
        exact hnext
      | some q =>
        rw [hl] at hnext
        obtain ⟨j, o⟩ := q
        simp only [Option.map_some, show i + (j + 1) = i + 1 + j by omega]
        exact hnext

/-- **The lookup is `locate` on the sizes of the live entries.** -/
theorem find_spec (hb : b.WF) (htotal : b.total < 2 ^ 64) (off rtn : UInt64) :
    aesdCircularBufferFindEntryOffsetForFpos b off rtn
      = .ok (match locate b.sizes off.toNat with
        | none => (none, rtn)
        | some (i, o) => (some (b.slotOfRank i), UInt64.ofNat o)) := by
  have hfold := findFold_range (b := b) off b.liveCount 0 0 (Nat.zero_le _)
    (by rw [← List.range_eq_range', ← sizes_eq]; simpa [AesdCircularBuffer.total] using htotal)
  rw [← List.range_eq_range', ← sizes_eq, UInt64.toNat_zero, Nat.sub_zero] at hfold
  rw [aesdCircularBufferFindEntryOffsetForFpos,
    foreach_eq_foldExit hb _ (liveCount_lt_foreachFuel hb)]
  cases hl : locate b.sizes off.toNat with
  | none =>
    rw [hl] at hfold
    obtain ⟨t, ht⟩ := hfold
    rw [findFold] at ht
    rw [ht]
  | some q =>
    obtain ⟨i, o⟩ := q
    rw [hl] at hfold
    simp only [findFold, Nat.zero_add] at hfold
    rw [hfold]

theorem find_of_total_le (hb : b.WF) (htotal : b.total < 2 ^ 64) {off : UInt64} (rtn : UInt64)
    (h : b.total ≤ off.toNat) :
    aesdCircularBufferFindEntryOffsetForFpos b off rtn = .ok (none, rtn) := by
  rw [find_spec hb htotal, locate_eq_none_iff.mpr h]

theorem find_of_locate (hb : b.WF) (htotal : b.total < 2 ^ 64) {off : UInt64} (rtn : UInt64)
    {i o : ℕ} (h : locate b.sizes off.toNat = some (i, o)) :
    aesdCircularBufferFindEntryOffsetForFpos b off rtn
      = .ok (some (b.slotOfRank i), UInt64.ofNat o) := by
  rw [find_spec hb htotal, h]

/-- Rank `i` is that of the entry in which the byte at offset `off` lies: the older entries end at
or before it, and this one ends behind it. -/
structure Covers (b : AesdCircularBuffer) (off i : ℕ) : Prop where
  lt : i < b.live.length
  start_le : (b.sizes.take i).sum ≤ off
  lt_end : off < (b.sizes.take i).sum + (b.entry (b.slotOfRank i)).size.toNat

private theorem covers_iff {off i : ℕ} :
    Covers b off i ↔ locate b.sizes off = some (i, off - (b.sizes.take i).sum) := by
  have hlen : b.sizes.length = b.live.length := List.length_map ..
  have hsize : ∀ hi : i < b.sizes.length,
      b.sizes[i] = (b.entry (b.slotOfRank i)).size.toNat := by
    intro hi
    simp only [sizes, List.getElem_map]
    rw [getElem_live]
  rw [locate_eq_some_iff, position]
  constructor
  · rintro ⟨hi, hstart, hend⟩
    have hi' : i < b.sizes.length := by rwa [hlen]
    refine ⟨hi', ?_, by omega⟩
    rw [hsize hi']
    omega
  · rintro ⟨hi, hoff, hpos⟩
    rw [hsize hi] at hoff
    exact ⟨by rwa [← hlen], by omega, by omega⟩

/-- **The lookup finds the entry of every byte.** After any sequence of additions whose last ten
sizes fit a `size_t` together, it returns `NULL` exactly for the offsets at or past the end, and
then leaves the out parameter alone. For every other offset it returns the one live entry that
covers it, and stores the offset inside this entry. -/
theorem lookup_finds_entry (log : List AesdBufferEntry)
    (hsum : ((log.rtake 10).map fun e ↦ e.size.toNat).sum < 2 ^ 64) (off rtn : UInt64) :
    ∃ b result rtn', addEntries aesdCircularBufferInit log = .ok b ∧ b.live = log.rtake 10 ∧
      aesdCircularBufferFindEntryOffsetForFpos b off rtn = .ok (result, rtn') ∧
      (result = none ↔ ((log.rtake 10).map fun e ↦ e.size.toNat).sum ≤ off.toNat) ∧
      (result = none → rtn' = rtn) ∧
      ∀ slot, result = some slot → ∃ i, slot = b.slotOfRank i ∧ Covers b off.toNat i ∧
        (∀ j, Covers b off.toNat j → j = i) ∧ rtn'.toNat = off.toNat - (b.sizes.take i).sum := by
  obtain ⟨b, hb, hwf, hlive, -⟩ := addEntries_init_spec log
  have htotal : b.total = ((log.rtake 10).map fun e ↦ e.size.toNat).sum := by
    rw [AesdCircularBuffer.total, AesdCircularBuffer.sizes, hlive]
  rw [← htotal] at hsum ⊢
  cases hloc : locate b.sizes off.toNat with
  | none =>
    have hle := locate_eq_none_iff.mp hloc
    exact ⟨b, none, rtn, hb, hlive, find_of_total_le hwf hsum rtn hle, iff_of_true rfl hle,
      fun _ ↦ rfl, fun slot hslot ↦ by cases hslot⟩
  | some q =>
    obtain ⟨i, o⟩ := q
    obtain ⟨hi, ho, hpos⟩ := locate_eq_some_iff.mp hloc
    have hlt := position_lt_sum hi ho
    rw [position] at hpos hlt
    refine ⟨b, some (b.slotOfRank i), UInt64.ofNat o, hb, hlive, find_of_locate hwf hsum rtn hloc,
      iff_of_false (Option.some_ne_none _) ?_, fun h ↦ absurd h (Option.some_ne_none _), ?_⟩
    · rw [AesdCircularBuffer.total]
      omega
    · rintro slot ⟨⟩
      have ho' : o = off.toNat - (b.sizes.take i).sum := by omega
      refine ⟨i, rfl, covers_iff.mpr (by rw [hloc, ho']), fun j hj ↦ ?_, ?_⟩
      · have hj' := covers_iff.mp hj
        rw [hloc, Option.some.injEq, Prod.mk.injEq] at hj'
        exact hj'.1.symm
      · rw [toNat_ofNat_of_lt (by have := off.toNat_lt; omega), ho']

/-- Twelve entries of one, two, ... bytes, and the first byte of the second live one. -/
theorem lookup_finds_entry_of_twelve : ∃ b rtn',
    aesdCircularBufferFindEntryOffsetForFpos b 3 7 = .ok (some (b.slotOfRank 1), rtn') ∧
      rtn'.toNat = 0 := by
  obtain ⟨b, result, rtn', -, hlive, hfind, hnone, -, hsome⟩ := lookup_finds_entry
    ((List.range 12).map fun n ↦ ⟨some n, UInt64.ofNat (n + 1)⟩) (by decide) 3 7
  have hsizes : b.sizes = [3, 4, 5, 6, 7, 8, 9, 10, 11, 12] := by
    rw [AesdCircularBuffer.sizes, hlive]
    decide
  cases result with
  | none => exact absurd (hnone.mp rfl) (by decide)
  | some slot =>
    obtain ⟨i, rfl, -, huniq, hrtn⟩ := hsome slot rfl
    have hone : Covers b 3 1 := covers_iff.mpr (by rw [hsizes]; rfl)
    obtain rfl := huniq 1 hone
    refine ⟨b, rtn', hfind, ?_⟩
    rw [hrtn, hsizes]
    rfl

end Find

end Aesd
