import Aesd.Driver.Represents

/-!
# What a seek command does

`aesd_adjust_file_offset` walks the live entries with the same traversal as the lookup, but
compares the loop index with a command number where the lookup compares a running total with an
offset. On a state that stores `cmds` it goes to `Segments.position`, the inverse of the
`Segments.locate` that the lookup computes, whenever the command and the offset exist
(`adjust_of_lt`), and changes nothing otherwise (`adjust_of_not_lt`).

The loop adds up the sizes of the entries it passes in a `loff_t`. The sizes of ten stored commands
fit it together, so the sum is that of the numbers; and a rank that is not below the number of live
entries is never met, which leaves the loop at its end with `-EINVAL`.
-/

namespace Aesd

open AesdCircularBuffer Segments

section Fold

variable {b : AesdCircularBuffer} {x y : UInt32}

/-- The seek loop over the ranks in a list. -/
private abbrev adjustFold (b : AesdCircularBuffer) (x y : UInt32) (total : Int64)
    (ranks : List ℕ) : Int64 ⊕ Int64 :=
  foldExit (fun total i ↦ adjustBody b x y total i (b.slotOfRank i)) total ranks

private theorem toNat_offset (y : UInt32) : y.toUInt64.toNat = y.toNat := rfl

/-- The seek loop from rank `i` on, when the command has a rank still to come and the offset lies
inside its entry. The running total is the position of the entry at the current rank. -/
private theorem adjustFold_hit (hy : y.toNat < (b.entry (b.slotOfRank x.toNat)).size.toNat) :
    ∀ (n i : ℕ) (total : Int64), i ≤ x.toNat → x.toNat < i + n → 0 ≤ total.toInt →
      total.toInt + ((List.range' i n).map fun j ↦ (b.entry (b.slotOfRank j)).size.toNat).sum
        < 2 ^ 63 →
      ∃ pos, adjustFold b x y total (List.range' i n) = .inr pos ∧
        pos.toInt = total.toInt + (((List.range' i (x.toNat - i)).map fun j ↦
          (b.entry (b.slotOfRank j)).size.toNat).sum + y.toNat : ℕ) := by
  intro n
  induction n with
  | zero => intro i total hi hlt; omega
  | succ n ih =>
    intro i total hi hlt hpos hsum
    rw [List.range'_succ, List.map_cons, List.sum_cons] at hsum
    rw [List.range'_succ, adjustFold, foldExit_cons]
    by_cases hix : x.toNat = i
    · -- `total` is the position of this entry, since no entry before it was the one sought
      refine ⟨total + y.toUInt64.toInt64, ?_, ?_⟩
      · rw [adjustBody, if_pos hix, if_pos (UInt64.lt_iff_toNat_lt.mpr (by
          rwa [toNat_offset, ← hix]))]
        rfl
      · have hylt : y.toUInt64.toNat < 2 ^ 63 := by
          rw [toNat_offset]
          have := y.toNat_lt
          omega
        rw [hix] at hy
        rw [toInt_add_of_bounds (by rw [toInt_toInt64_of_lt hylt]; omega)
            (by rw [toInt_toInt64_of_lt hylt, toNat_offset]; omega),
          toInt_toInt64_of_lt hylt, toNat_offset, hix, Nat.sub_self]
        simp
    · have hadd : (total.toUInt64 + (b.entry (b.slotOfRank i)).size).toInt64.toInt
          = total.toInt + (b.entry (b.slotOfRank i)).size.toNat := toInt_add_size_of_lt (by omega)
      obtain ⟨pos, hrun, hval⟩ := ih (i + 1)
        (total.toUInt64 + (b.entry (b.slotOfRank i)).size).toInt64 (by omega) (by omega)
        (by omega) (by omega)
      refine ⟨pos, ?_, ?_⟩
      · rw [adjustBody, if_neg hix, Sum.elim_inl]
        exact hrun
      · rw [hval, hadd, show x.toNat - i = x.toNat - (i + 1) + 1 by omega, List.range'_succ,
          List.map_cons, List.sum_cons]
        omega

/-- The seek loop runs to its end when no rank is hit. -/
private theorem adjustFold_miss : ∀ (n i : ℕ) (total : Int64),
    (i ≤ x.toNat → x.toNat < i + n →
      ¬y.toNat < (b.entry (b.slotOfRank x.toNat)).size.toNat) →
    ∃ total', adjustFold b x y total (List.range' i n) = .inl total' := by
  intro n
  induction n with
  | zero => intro i total _; exact ⟨total, rfl⟩
  | succ n ih =>
    intro i total hmiss
    rw [List.range'_succ, adjustFold, foldExit_cons]
    by_cases hix : x.toNat = i
    · -- the entry is too short; its size is not added, but no later rank can be hit any more
      have hy := hmiss hix.ge (by omega)
      rw [hix] at hy
      rw [adjustBody, if_pos hix, if_neg (by rwa [UInt64.lt_iff_toNat_lt, toNat_offset]),
        Sum.elim_inl]
      exact ih (i + 1) total fun h _ ↦ by omega
    · rw [adjustBody, if_neg hix, Sum.elim_inl]
      exact ih (i + 1) _ fun h hlt ↦ hmiss (by omega) (by omega)

end Fold

section Adjust

variable {d : Driver} {cmds : List (List UInt8)} {part : List UInt8} {x y : UInt32}

namespace Stores

private theorem sizes_take (h : Stores d cmds part) {n : ℕ} (hn : n ≤ cmds.length) :
    ((List.range' 0 n).map fun j ↦ (d.ring.entry (d.ring.slotOfRank j)).size.toNat)
      = (cmds.map List.length).take n := by
  rw [← List.range_eq_range', ← h.sizes_eq, AesdCircularBuffer.sizes_eq, ← List.map_take,
    List.take_range, min_eq_left (by rwa [← h.length_eq])]

private theorem foreach_adjust (h : Stores d cmds part) (x y : UInt32) :
    aesdCircularBufferForeach d.ring (adjustBody d.ring x y) foreachFuel 0
      = .ok (adjustFold d.ring x y 0 (List.range' 0 cmds.length)) := by
  rw [foreach_eq_foldExit h.wf _ (liveCount_lt_foreachFuel h.wf), ← h.length_eq,
    List.range_eq_range']

/-- **A seek to a byte that exists** goes to its position. -/
theorem adjust_of_lt (h : Stores d cmds part) (hx : x.toNat < cmds.length)
    (hy : y.toNat < cmds[x.toNat].length) (fpos : Int64) :
    ∃ pos, aesdAdjustFileOffset d false fpos x y = .ok (0, pos) ∧
      pos.toInt = position (cmds.map List.length) x.toNat y.toNat := by
  have htotal := h.total_eq ▸ h.total_lt
  have hall := h.sizes_take le_rfl
  rw [List.take_of_length_le (by simp)] at hall
  obtain ⟨pos, hfold, hpos⟩ := adjustFold_hit (b := d.ring) (x := x) (y := y)
    (by rwa [(h.held_of_rank hx).size_eq]) cmds.length 0 0 (Nat.zero_le _) (by omega) le_rfl
    (by rw [hall, Int64.toInt_zero]; omega)
  refine ⟨pos, ?_, ?_⟩
  · rw [aesdAdjustFileOffset, if_neg Bool.false_ne_true, h.foreach_adjust, hfold]
  · rw [hpos, Nat.sub_zero, h.sizes_take hx.le, position]
    simp

theorem adjust_of_not_lt (h : Stores d cmds part)
    (hmiss : ∀ hx : x.toNat < cmds.length, ¬y.toNat < cmds[x.toNat].length) (fpos : Int64) :
    aesdAdjustFileOffset d false fpos x y = .ok (-Errno.einval, fpos) := by
  obtain ⟨total, hfold⟩ := adjustFold_miss (b := d.ring) (x := x) (y := y) cmds.length 0 0
    fun _ hlt ↦ by
      have hx : x.toNat < cmds.length := by omega
      rw [(h.held_of_rank hx).size_eq]
      exact hmiss hx
  rw [aesdAdjustFileOffset, if_neg Bool.false_ne_true, h.foreach_adjust, hfold]

theorem aesdIoctl_total (h : Stores d cmds part) (c : IoctlCall) (fpos : Int64) :
    ∃ r, aesdIoctl d c fpos = .ok r := by
  rw [aesdIoctl]
  split
  · split
    · exact ⟨_, rfl⟩
    · cases hint : c.interrupted with
      | true => exact ⟨_, rfl⟩
      | false =>
        by_cases hhit : ∃ hx : c.seekto.writeCmd.toNat < cmds.length,
            c.seekto.writeCmdOffset.toNat < cmds[c.seekto.writeCmd.toNat].length
        · obtain ⟨hx, hy⟩ := hhit
          obtain ⟨pos, hadj, -⟩ := h.adjust_of_lt hx hy fpos
          exact ⟨_, hadj⟩
        · exact ⟨_, h.adjust_of_not_lt (fun hx hy ↦ hhit ⟨hx, hy⟩) fpos⟩
  · exact ⟨_, rfl⟩

end Stores

end Adjust

end Aesd
