import Aesd.Driver.Represents
import Mathlib.Data.List.GetD

/-!
# What a read does

`aesd_read` looks its position up again after every entry it has copied, so the copies it makes
are the pieces into which the entry boundaries cut the interval it reads (`Segments.spans`).
`ReadOutcome` has one case for each exit of the function, and `aesdRead_spec` says that every read
from a position that is not negative has one of these outcomes.

## The position

The position a read leaves behind is part of the outcome. A read that runs past the end of the
contents has moved it by what was copied. A read that stops inside an entry, or at its end, adds
the whole return value to a position that the earlier pieces have already moved (`overshoot`).

## The loop

A pass either leaves or goes on with a smaller count, since no stored entry is empty; so the count
bounds the passes. The invariant says that what was copied so far is the slice up to the current
position, and that the rest of the interval has the rest of the pieces; it is carried by `LoopEnds`,
which is what the remaining passes do.
-/

namespace Aesd

open AesdCircularBuffer Segments

/-! ## User memory -/

namespace UserMemory

variable (user : UserMemory) (a : ℕ)

@[simp] theorem write_nil : user.write a [] = user := by
  funext i
  rw [write, if_neg (by simp)]

theorem write_write (xs ys : List UInt8) :
    (user.write a xs).write (a + xs.length) ys = user.write a (xs ++ ys) := by
  funext i
  simp only [write, List.length_append]
  by_cases hlo : i < a + xs.length
  · rw [if_neg (by omega)]
    by_cases ha : a ≤ i
    · rw [if_pos ⟨ha, hlo⟩, if_pos (by omega), List.getD_append _ _ _ _ (by omega)]
    · rw [if_neg (by omega), if_neg (by omega)]
  · by_cases hhi : i < a + xs.length + ys.length
    · rw [if_pos (by omega), if_pos (by omega), List.getD_append_right _ _ _ _ (by omega),
        show i - (a + xs.length) = i - a - xs.length by omega]
    · rw [if_neg (by omega), if_neg (by omega), if_neg (by omega)]

theorem write_inside {xs : List UInt8} {i : ℕ} (hi : i < xs.length) :
    user.write a xs (a + i) = xs[i] := by
  rw [write, if_pos (by omega), Nat.add_sub_cancel_left, List.getD_eq_getElem _ _ hi]

theorem read_write (xs : List UInt8) : (user.write a xs).read a xs.length = xs := by
  rw [read]
  refine List.ext_getElem (by simp) fun i hi hi' ↦ ?_
  rw [List.getElem_map, List.getElem_range, write_inside user a hi']

theorem write_outside {xs : List UInt8} {i : ℕ} (hi : i < a ∨ a + xs.length ≤ i) :
    user.write a xs i = user i := by
  rw [write, if_neg (by omega)]

end UserMemory

/-! ## The exits of a read -/

/-- The first copy that faults, among copies of the lengths in a list, the first of which has
number `k`. -/
def faultAt (copy : ℕ → Option ℕ) : ℕ → List ℕ → Option ℕ
  | _, [] => none
  | k, n :: ns => if copied (copy k) n < n then some 0 else (faultAt copy (k + 1) ns).map (· + 1)

theorem faultAt_of_none {copy : ℕ → Option ℕ} (h : ∀ i, copy i = none) (ns : List ℕ) (k : ℕ) :
    faultAt copy k ns = none := by
  induction ns generalizing k with
  | nil => rfl
  | cons n ns ih => rw [faultAt, h, copied_none, if_neg (Nat.lt_irrefl n), ih, Option.map_none]

theorem faultAt_lt {copy : ℕ → Option ℕ} {ns : List ℕ} {k j : ℕ} (h : faultAt copy k ns = some j) :
    j < ns.length := by
  induction ns generalizing k j with
  | nil => simp [faultAt] at h
  | cons n ns ih =>
    rw [faultAt] at h
    split at h
    · obtain rfl : 0 = j := Option.some.inj h
      exact Nat.succ_pos _
    · obtain ⟨j', hj', rfl⟩ := Option.map_eq_some_iff.mp h
      exact Nat.succ_lt_succ (ih hj')

namespace ReadCall

variable (c : ReadCall) (sizes : List ℕ) (q : ℕ)

/-- The pieces a read from position `q` copies, from entries of the given sizes. -/
def pieces : List ℕ := spans sizes q c.count.toNat

/-- How far a read from `q` moves the position past what it returned: when it does not run past
the end, by all pieces but the last. -/
def overshoot : ℕ := if q + c.count.toNat ≤ sizes.sum then (c.pieces sizes q).dropLast.sum else 0

/-- A read moves the position by what it returned when it stays within one entry or runs past the
end. -/
theorem overshoot_eq_zero_iff :
    c.overshoot sizes q = 0 ↔
      (c.pieces sizes q).length ≤ 1 ∨ sizes.sum < q + c.count.toNat := by
  rw [overshoot, pieces, ← sum_dropLast_spans_eq_zero_iff]
  split
  · exact (or_iff_left (by omega)).symm
  · exact iff_of_true rfl (.inr (by omega))

end ReadCall

/-- **The exits of `aesd_read`** from position `q` of a memory that stores `cmds`. -/
inductive ReadOutcome (cmds : List (List UInt8)) (c : ReadCall) (user : UserMemory)
    (fpos : Int64) (q : ℕ) : ReadResult → Prop
  /-- The wait for the mutex was interrupted. -/
  | interrupted (hint : c.interrupted = true) :
      ReadOutcome cmds c user fpos q ⟨-Errno.erestartsys, fpos, user⟩
  /-- Copy number `j` failed. The position has moved past the pieces before it. -/
  | faulted {r : ReadResult} {j : ℕ} (hint : c.interrupted = false)
      (hfault : faultAt c.copy 0 (c.pieces (cmds.map List.length) q) = some j)
      (hret : r.ret = -Errno.efault)
      (hpos : r.fpos.toInt = q + (((c.pieces (cmds.map List.length) q).take j).sum : ℕ)) :
      ReadOutcome cmds c user fpos q r
  /-- Every copy went through. -/
  | finished {r : ReadResult} (hint : c.interrupted = false)
      (hfault : faultAt c.copy 0 (c.pieces (cmds.map List.length) q) = none)
      (hret : r.ret.toInt = (c.pieces (cmds.map List.length) q).sum)
      (hpos : r.fpos.toInt = q + ((c.pieces (cmds.map List.length) q).sum
        + c.overshoot (cmds.map List.length) q : ℕ))
      (huser : r.user = user.write c.buf (slice cmds q c.count.toNat)) :
      ReadOutcome cmds c user fpos q r

/-! ## One pass of the loop -/

section Pass

variable {d : Driver} {cmds : List (List UInt8)} {part : List UInt8} {c : ReadCall}
  {s : ReadState} {q i o : ℕ}

namespace Stores

private theorem find_at (h : Stores d cmds part) {off : UInt64}
    (hloc : locate (cmds.map List.length) off.toNat = some (i, o)) (rtn : UInt64) :
    aesdCircularBufferFindEntryOffsetForFpos d.ring off rtn
      = .ok (some (d.ring.slotOfRank i), UInt64.ofNat o) :=
  find_of_locate h.wf (by have := h.total_lt; omega) rtn (by rw [h.sizes_eq, hloc])

theorem readPass_end (h : Stores d cmds part)
    (hq : (cmds.map List.length).sum ≤ s.fpos.toUInt64.toNat) :
    readPass d c s = .ok (.inr ⟨s.retval, s.fpos, s.user⟩) := by
  rw [readPass, find_of_total_le h.wf (by have := h.total_lt; omega) _ (by rwa [h.total_eq])]
  rfl

private theorem copyEntryToUser_spec (h : Stores d cmds part)
    (hloc : locate (cmds.map List.length) q = some (i, o)) (hi : i < cmds.length)
    {n : UInt64} (hn : n.toNat ≤ cmds[i].length - o) (limit : Option ℕ) :
    copyEntryToUser d (d.ring.entry (d.ring.slotOfRank i)) (UInt64.ofNat o) n s limit
      = .ok (s.user.write s.buf ((slice cmds q n.toNat).take (copied limit n.toNat)),
          n.toNat - copied limit n.toNat) := by
  have hheld := h.held_of_rank hi
  obtain ⟨_, ho, -⟩ := locate_eq_some_iff.mp hloc
  rw [List.getElem_map] at ho
  have hsize := hheld.length_le
  rw [kmallocMaxSize] at hsize
  obtain ⟨p, hp, hholds⟩ := hheld.holds
  have hlen : ((cmds[i].drop o).take n.toNat).length = n.toNat := by
    rw [List.length_take, List.length_drop]
    omega
  rw [copyEntryToUser, slice_of_le hloc hi hn]
  simp only [hp]
  rw [toNat_ofNat_of_lt (by omega), Heap.load_of_holds hholds (by omega), ok_bind, copyToUser,
    hlen, pure_eq_ok]

private theorem copyEntryToUser_cases (h : Stores d cmds part)
    (hloc : locate (cmds.map List.length) q = some (i, o)) (hi : i < cmds.length)
    {n : UInt64} (hn : n.toNat ≤ cmds[i].length - o) (limit : Option ℕ) :
    (copied limit n.toNat < n.toNat ∧ ∃ left, left ≠ 0 ∧
        copyEntryToUser d (d.ring.entry (d.ring.slotOfRank i)) (UInt64.ofNat o) n s limit
          = .ok (s.user.write s.buf ((slice cmds q n.toNat).take (copied limit n.toNat)), left)) ∨
      (¬copied limit n.toNat < n.toNat ∧
        copyEntryToUser d (d.ring.entry (d.ring.slotOfRank i)) (UInt64.ofNat o) n s limit
          = .ok (s.user.write s.buf (slice cmds q n.toNat), 0)) := by
  have hcopy := h.copyEntryToUser_spec (s := s) hloc hi hn limit
  have hle := copied_le limit n.toNat
  by_cases hfail : copied limit n.toNat < n.toNat
  · exact .inl ⟨hfail, _, Nat.sub_ne_zero_of_lt hfail, hcopy⟩
  · have hall : copied limit n.toNat = n.toNat := Nat.le_antisymm hle (Nat.le_of_not_lt hfail)
    refine .inr ⟨hfail, ?_⟩
    rw [hcopy, hall, Nat.sub_self, List.take_of_length_le]
    rw [length_slice]
    exact Nat.min_le_left ..

private theorem toNat_remaining (h : Stores d cmds part)
    (hloc : locate (cmds.map List.length) q = some (i, o)) (hi : i < cmds.length) :
    ((d.ring.entry (d.ring.slotOfRank i)).size - UInt64.ofNat o).toNat = cmds[i].length - o := by
  have hheld := h.held_of_rank hi
  obtain ⟨_, ho, -⟩ := locate_eq_some_iff.mp hloc
  rw [List.getElem_map] at ho
  have hsize := hheld.length_le
  rw [kmallocMaxSize] at hsize
  have ho' : (UInt64.ofNat o).toNat = o := toNat_ofNat_of_lt (by omega)
  rw [toNat_sub_of_le (by rw [hheld.size_eq, ho']; omega), hheld.size_eq, ho']

theorem readPass_last (h : Stores d cmds part) (hq : s.fpos.toUInt64.toNat = q)
    (hloc : locate (cmds.map List.length) q = some (i, o)) (hi : i < cmds.length)
    (hn : s.count.toNat ≤ cmds[i].length - o) :
    readPass d c s = .ok (.inr (
      if copied (c.copy s.copies) s.count.toNat < s.count.toNat then
        ⟨-Errno.efault, s.fpos, s.user.write s.buf ((slice cmds q s.count.toNat).take
          (copied (c.copy s.copies) s.count.toNat))⟩
      else ⟨(s.retval.toUInt64 + s.count).toInt64, s.fpos + (s.retval.toUInt64 + s.count).toInt64,
        s.user.write s.buf (slice cmds q s.count.toNat)⟩)) := by
  rw [readPass, h.find_at (hq ▸ hloc), ok_bind]
  simp only []
  rw [if_pos (UInt64.le_iff_toNat_le.mpr (by rwa [h.toNat_remaining hloc hi]))]
  rcases h.copyEntryToUser_cases (s := s) hloc hi hn (c.copy s.copies) with
    ⟨hfail, left, hleft, hcopy⟩ | ⟨hfail, hcopy⟩
  · rw [hcopy, ok_bind, if_pos hfail]
    simp only []
    rw [if_pos hleft, pure_eq_ok]
  · rw [hcopy, ok_bind, if_neg hfail]
    simp only []
    rw [if_neg (not_not_intro rfl), pure_eq_ok]

theorem readPass_next (h : Stores d cmds part) (hq : s.fpos.toUInt64.toNat = q)
    (hloc : locate (cmds.map List.length) q = some (i, o)) (hi : i < cmds.length)
    (hn : cmds[i].length - o < s.count.toNat) :
    ∃ m : UInt64, m.toNat = cmds[i].length - o ∧ readPass d c s = .ok (
      if copied (c.copy s.copies) m.toNat < m.toNat then
        .inr ⟨-Errno.efault, s.fpos, s.user.write s.buf ((slice cmds q m.toNat).take
          (copied (c.copy s.copies) m.toNat))⟩
      else .inl ⟨(s.fpos.toUInt64 + m).toInt64, s.count - m, s.buf + m.toNat,
        (s.retval.toUInt64 + m).toInt64, UInt64.ofNat o,
        s.user.write s.buf (slice cmds q m.toNat), s.copies + 1⟩) := by
  have hm := h.toNat_remaining hloc hi
  refine ⟨_, hm, ?_⟩
  rw [readPass, h.find_at (hq ▸ hloc), ok_bind]
  simp only []
  rw [if_neg (by rw [ge_iff_le, UInt64.le_iff_toNat_le, hm]; omega)]
  rcases h.copyEntryToUser_cases (s := s) hloc hi hm.le (c.copy s.copies) with
    ⟨hfail, left, hleft, hcopy⟩ | ⟨hfail, hcopy⟩
  · rw [hcopy, ok_bind, if_pos hfail]
    simp only []
    rw [if_pos hleft, pure_eq_ok]
  · rw [hcopy, ok_bind, if_neg hfail]
    simp only []
    rw [if_neg (not_not_intro rfl), pure_eq_ok]

end Stores

end Pass

/-! ## The loop -/

section Loop

variable {d : Driver} {cmds : List (List UInt8)} {part : List UInt8}

/-- What the loop makes of a state at position `q` that has already returned `t` bytes and still
has the pieces `ps` to copy. -/
private structure LoopEnds (cmds : List (List UInt8)) (c : ReadCall) (s : ReadState) (q t : ℕ)
    (ps : List ℕ) (r : ReadResult) : Prop where
  faulted : ∀ j, faultAt c.copy s.copies ps = some j →
    r.ret = -Errno.efault ∧ r.fpos.toInt = (q + (ps.take j).sum : ℕ)
  finished : faultAt c.copy s.copies ps = none →
    r.ret.toInt = (t + ps.sum : ℕ) ∧
      r.fpos.toInt = (q + ps.sum + (if q + s.count.toNat ≤ (cmds.map List.length).sum then
        t + ps.dropLast.sum else 0) : ℕ) ∧
      r.user = s.user.write s.buf (slice cmds q s.count.toNat)

variable {c : ReadCall} {s : ReadState} {q t i o : ℕ} {r : ReadResult}

private theorem loopEnds_end (hend : (cmds.map List.length).sum ≤ q) (hfpos : s.fpos.toInt = q)
    (hret : s.retval.toInt = t) (hpos : t = 0 ∨ 0 < s.count.toNat) :
    LoopEnds cmds c s q t [] ⟨s.retval, s.fpos, s.user⟩ := by
  refine ⟨(fun j hj ↦ by cases hj), fun _ ↦ ?_⟩
  rw [slice_of_sum_le _ hend, UserMemory.write_nil]
  refine ⟨hret, ?_, rfl⟩
  have hover : (if q + s.count.toNat ≤ (cmds.map List.length).sum then
      t + ([] : List ℕ).dropLast.sum else 0) = 0 := by
    split
    · simp only [List.dropLast_nil, List.sum_nil]
      omega
    · rfl
  rw [hover, List.sum_nil]
  exact hfpos

private theorem loopEnds_last (htotal : (cmds.map List.length).sum < 2 ^ 62)
    (hle : q + s.count.toNat ≤ (cmds.map List.length).sum) (hfpos : s.fpos.toInt = q)
    (hret : s.retval.toInt = t) (ht : t ≤ q) :
    LoopEnds cmds c s q t [s.count.toNat] (
      if copied (c.copy s.copies) s.count.toNat < s.count.toNat then
        ⟨-Errno.efault, s.fpos, s.user.write s.buf ((slice cmds q s.count.toNat).take
          (copied (c.copy s.copies) s.count.toNat))⟩
      else ⟨(s.retval.toUInt64 + s.count).toInt64, s.fpos + (s.retval.toUInt64 + s.count).toInt64,
        s.user.write s.buf (slice cmds q s.count.toNat)⟩) := by
  by_cases hfail : copied (c.copy s.copies) s.count.toNat < s.count.toNat
  · rw [if_pos hfail]
    refine ⟨fun j hj ↦ ?_, fun hnone ↦ ?_⟩
    · rw [faultAt, if_pos hfail] at hj
      obtain rfl : 0 = j := Option.some.inj hj
      exact ⟨rfl, hfpos⟩
    · rw [faultAt, if_pos hfail] at hnone
      cases hnone
  · rw [if_neg hfail]
    refine ⟨fun j hj ↦ ?_, fun _ ↦ ?_⟩
    · rw [faultAt, if_neg hfail] at hj
      cases hj
    · have hret' : (s.retval.toUInt64 + s.count).toInt64.toInt = t + s.count.toNat := by
        rw [toInt_add_size_of_lt (by omega), hret]
      refine ⟨by rw [hret', List.sum_singleton]; push_cast; rfl, ?_, rfl⟩
      rw [toInt_add_of_bounds (by omega) (by omega), hret', hfpos, if_pos hle]
      simp only [List.sum_singleton, List.dropLast_singleton, List.sum_nil]
      push_cast
      omega

private theorem LoopEnds.next {m : UInt64} {ps : List ℕ}
    (hfail : ¬copied (c.copy s.copies) m.toNat < m.toNat) (hm : m.toNat < s.count.toNat)
    (hslice : slice cmds q s.count.toNat
      = slice cmds q m.toNat ++ slice cmds (q + m.toNat) (s.count.toNat - m.toNat))
    (hlen : (slice cmds q m.toNat).length = m.toNat)
    (hps : ps = spans (cmds.map List.length) (q + m.toNat) (s.count.toNat - m.toNat))
    {fpos retval : Int64} {rtn : UInt64}
    (h : LoopEnds cmds c ⟨fpos, s.count - m, s.buf + m.toNat, retval, rtn,
      s.user.write s.buf (slice cmds q m.toNat), s.copies + 1⟩ (q + m.toNat) (t + m.toNat) ps r) :
    LoopEnds cmds c s q t (m.toNat :: ps) r := by
  have hcount : (s.count - m).toNat = s.count.toNat - m.toNat := toNat_sub_of_le (by omega)
  refine ⟨fun j hj ↦ ?_, fun hnone ↦ ?_⟩
  · rw [faultAt, if_neg hfail] at hj
    obtain ⟨j', hj', rfl⟩ := Option.map_eq_some_iff.mp hj
    obtain ⟨hret, hpos⟩ := h.faulted j' hj'
    refine ⟨hret, ?_⟩
    rw [hpos, List.take_succ_cons, List.sum_cons, Nat.add_assoc]
  · rw [faultAt, if_neg hfail, Option.map_eq_none_iff] at hnone
    obtain ⟨hret, hpos, huser⟩ := h.finished hnone
    refine ⟨by rw [hret, List.sum_cons, Nat.add_assoc], ?_, ?_⟩
    · have hover : (if q + m.toNat + (s.count.toNat - m.toNat) ≤ (cmds.map List.length).sum then
            t + m.toNat + ps.dropLast.sum else 0)
          = if q + s.count.toNat ≤ (cmds.map List.length).sum then
            t + (m.toNat :: ps).dropLast.sum else 0 := by
        rw [Nat.add_assoc q, Nat.add_sub_of_le hm.le]
        split
        · have hsum := sum_spans (cmds.map List.length) (q + m.toNat) (s.count.toNat - m.toNat)
          -- the interval goes on inside the contents, so the last piece is one of the others
          have hne : ps ≠ [] := by
            intro hnil
            rw [← hps, hnil, List.sum_nil] at hsum
            omega
          rw [List.dropLast_cons_of_ne_nil hne, List.sum_cons, Nat.add_assoc]
        · rfl
      rw [hpos, hcount, hover, List.sum_cons]
      congr 2
      omega
    · rw [huser, hcount, hslice, ← UserMemory.write_write, hlen]

/-- The loop is at position `q` and has returned `t` bytes so far. -/
private structure LoopAt (s : ReadState) (q t : ℕ) : Prop where
  fpos : s.fpos.toInt = q
  retval : s.retval.toInt = t
  le : t ≤ q
  count : t = 0 ∨ 0 < s.count.toNat

/-- One pass. It leaves, or it goes on with a smaller count, since no entry is empty. -/
private theorem readPass_cases (h : Stores d cmds part) (hs : LoopAt s q t) :
    (∃ q' t' s', readPass d c s = .ok (.inl s') ∧ LoopAt s' q' t' ∧
      s'.count.toNat < s.count.toNat ∧
      ∀ r, LoopEnds cmds c s' q' t' (spans (cmds.map List.length) q' s'.count.toNat) r →
        LoopEnds cmds c s q t (spans (cmds.map List.length) q s.count.toNat) r) ∨
    ∃ r, readPass d c s = .ok (.inr r) ∧
      LoopEnds cmds c s q t (spans (cmds.map List.length) q s.count.toNat) r := by
  obtain ⟨hfpos, hret, ht, hpos⟩ := hs
  have htotal := h.total_eq ▸ h.total_lt
  have hq : s.fpos.toUInt64.toNat = q := by
    rw [toNat_toUInt64_of_nonneg (by omega), hfpos, Int.toNat_natCast]
  by_cases hend : (cmds.map List.length).sum ≤ q
  · rw [spans_of_sum_le _ hend]
    exact .inr ⟨_, h.readPass_end (hq ▸ hend), loopEnds_end hend hfpos hret hpos⟩
  obtain ⟨i, o, hloc⟩ := exists_locate (Nat.lt_of_not_le hend)
  obtain ⟨hi', ho, hposn⟩ := locate_eq_some_iff.mp hloc
  have hi : i < cmds.length := by simpa using hi'
  have hle := position_end_le_sum hi'
  rw [position] at hle hposn
  rw [spans_of_locate _ hloc hi']
  rw [List.getElem_map] at ho hle ⊢
  by_cases hlast : s.count.toNat ≤ cmds[i].length - o
  · rw [if_pos hlast]
    exact .inr ⟨_, h.readPass_last hq hloc hi hlast, loopEnds_last htotal (by omega) hfpos hret ht⟩
  rw [if_neg hlast]
  obtain ⟨m, hm, hpass⟩ := h.readPass_next (c := c) hq hloc hi (Nat.lt_of_not_le hlast)
  rw [← hm] at hlast ⊢
  by_cases hfail : copied (c.copy s.copies) m.toNat < m.toNat
  · -- earlier passes have moved the position already, and the failing one does not
    rw [if_pos hfail] at hpass
    refine .inr ⟨_, hpass, (fun j hj ↦ ?_), fun hnone ↦ ?_⟩
    · rw [faultAt, if_pos hfail] at hj
      obtain rfl : 0 = j := Option.some.inj hj
      exact ⟨rfl, hfpos⟩
    · rw [faultAt, if_pos hfail] at hnone
      cases hnone
  · rw [if_neg hfail] at hpass
    have hcount : (s.count - m).toNat = s.count.toNat - m.toNat := toNat_sub_of_le (by omega)
    refine .inl ⟨q + m.toNat, t + m.toNat, _, hpass, ⟨?_, ?_, ?_, ?_⟩, ?_, fun r hends ↦ ?_⟩
    · rw [toInt_add_size_of_lt (by omega), hfpos]
      push_cast
      rfl
    · rw [toInt_add_size_of_lt (by omega), hret]
      push_cast
      rfl
    · omega
    · exact .inr (by rw [hcount]; omega)
    · show (s.count - m).toNat < s.count.toNat
      omega
    · simp only [hcount] at hends
      refine hends.next hfail (by omega) ?_ ?_ rfl
      · rw [← slice_append, Nat.add_sub_of_le (by omega)]
      · rw [length_slice]
        omega

/-- The loop ends, with more fuel than its count. -/
private theorem run_readPass (h : Stores d cmds part) (hs : LoopAt s q t) {fuel : ℕ}
    (hfuel : s.count.toNat < fuel) :
    ∃ r, Loop.run .outOfFuel (readPass d c) fuel s = .ok r ∧
      LoopEnds cmds c s q t (spans (cmds.map List.length) q s.count.toNat) r := by
  refine Loop.run_total (I := fun g s ↦ LoopAt s g.1 g.2)
    (Q := fun g s ↦ LoopEnds cmds c s g.1 g.2 (spans (cmds.map List.length) g.1 s.count.toNat))
    (fun _ s ↦ s.count.toNat) (fun g s hs ↦ ?_) (g := (q, t)) hs hfuel
  rcases readPass_cases (c := c) h hs with ⟨q', t', s', hnext⟩ | hleave
  · exact .inl ⟨(q', t'), s', hnext⟩
  · exact .inr hleave

end Loop

/-! ## One read -/

section Read

variable {d : Driver} {cmds : List (List UInt8)} {part : List UInt8}

/-- **Every read has one of the outcomes.** -/
theorem aesdRead_spec (h : Stores d cmds part) (c : ReadCall) (user : UserMemory) {fpos : Int64}
    {q : ℕ} (hq : fpos.toInt = q) :
    ∃ r, aesdRead d c user fpos = .ok r ∧ ReadOutcome cmds c user fpos q r := by
  rw [aesdRead]
  cases hint : c.interrupted with
  | true => exact ⟨_, rfl, .interrupted hint⟩
  | false =>
    have hs : LoopAt ⟨fpos, c.count, c.buf, 0, 0, user, 0⟩ q 0 :=
      ⟨hq, rfl, Nat.zero_le _, .inl rfl⟩
    obtain ⟨r, hrun, hends⟩ := run_readPass (c := c) h hs (Nat.lt_succ_self _)
    refine ⟨r, by rw [if_neg Bool.false_ne_true, hrun], ?_⟩
    cases hfault : faultAt c.copy 0 (c.pieces (cmds.map List.length) q) with
    | some j =>
      obtain ⟨hret, hpos⟩ := hends.faulted j hfault
      exact .faulted hint hfault hret (by rw [hpos]; push_cast; rfl)
    | none =>
      obtain ⟨hret, hpos, huser⟩ := hends.finished hfault
      refine .finished hint hfault (by rw [hret, Nat.zero_add]; rfl) ?_ huser
      rw [hpos, ReadCall.overshoot, ReadCall.pieces]
      simp only [Nat.zero_add]
      push_cast
      omega

/-- A read does not fault, whatever its position. -/
theorem aesdRead_total (h : Stores d cmds part) (c : ReadCall) (user : UserMemory) (fpos : Int64) :
    ∃ r, aesdRead d c user fpos = .ok r := by
  by_cases hneg : 0 ≤ fpos.toInt
  · obtain ⟨r, hr, -⟩ := aesdRead_spec h c user (Int.toNat_of_nonneg hneg).symm
    exact ⟨r, hr⟩
  · -- a negative position is past every entry once it is a `size_t`
    have hbig := le_toNat_toUInt64_of_neg (Int.lt_of_not_ge hneg)
    have htotal := h.total_eq ▸ h.total_lt
    rw [aesdRead]
    cases c.interrupted with
    | true => exact ⟨_, rfl⟩
    | false =>
      rw [if_neg Bool.false_ne_true]
      exact ⟨_, Loop.run_leave (h.readPass_end (by show _ ≤ fpos.toUInt64.toNat; omega)) _⟩

end Read

end Aesd
