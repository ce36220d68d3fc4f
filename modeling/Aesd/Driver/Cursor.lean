import Aesd.Driver.Runs

/-!
# Reading and seeking through one file

The contents of the device are its commands, concatenated. `read_returns_slice` says that one read
returns the part of the contents that it asks for, and `seek_is_inverse` that seeking and looking
up are inverse to each other on them.

## Reads that share a position

Reads that share a position do not always return adjacent parts. `chunked_reads_iff` says when they
do: each has to stay within one entry, to ask for more than there is, to be interrupted, or to
fail at its first copy. The reads left over stop inside a second entry, or at its end, and
`aesd_read` adds their whole return value to a position it has already moved.

The position here is `*f_pos` as the function leaves it, also after an error, since that is what the
source computes. What the kernel makes of it is another question (`System.writeBack`).

## Seeking

A seek names a command and an offset, a lookup finds them for a position. Both are `Segments` on the
lengths of the commands, once in either direction, so that they are inverse to each other is a fact
about `locate` and `position`; what is left is that a rank and an offset fit 32 bits.
-/

namespace Aesd

open AesdCircularBuffer Segments Machine

namespace Driver

def content (d : Driver) : Option (List UInt8) := d.commands.map List.flatten

end Driver

section

variable {d : Driver} {cmds : List (List UInt8)} {part : List UInt8}

theorem Stores.content_eq (h : Stores d cmds part) : d.content = some cmds.flatten := by
  rw [Driver.content, h.commands_eq, Option.map_some]

theorem Stores.length_flatten (h : Stores d cmds part) : cmds.flatten.length = d.ring.total := by
  rw [length_flatten_eq_sum, h.total_eq]

end

/-! ## One read -/

/-- **A read returns the part of the contents it asks for.** A read from a position that is not
negative, in which no copy fails, copies the bytes from its position on, as many as it asks for or
as there are, to the user buffer, returns their number, and writes nowhere else. -/
theorem read_returns_slice {K : FixedSizeLlseek} {s : System} (hs : Reachable K s) (c : ReadCall)
    (hcopy : ∀ i, c.copy i = none) (user : UserMemory) {fpos : Int64} (hpos : 0 ≤ fpos.toInt) :
    ∃ content r, s.driver.content = some content ∧ content.length = s.driver.ring.total ∧
      aesdRead s.driver c user fpos = .ok r ∧
      if c.interrupted then r = ⟨-Errno.erestartsys, fpos, user⟩
      else ∃ n, n = min c.count.toNat (s.driver.ring.total - fpos.toInt.toNat) ∧
        r.ret.toInt = n ∧
        (∀ i < n, content[fpos.toInt.toNat + i]? = some (r.user (c.buf + i))) ∧
        ∀ a, a < c.buf ∨ c.buf + n ≤ a → r.user a = user a := by
  obtain ⟨cmds, part, h⟩ := hs.represents
  obtain ⟨r, hr, hout⟩ := aesdRead_spec h.toStores c user (Int.toNat_of_nonneg hpos).symm
  refine ⟨cmds.flatten, r, h.content_eq, h.length_flatten, hr, ?_⟩
  cases hout with
  | interrupted hint => rw [if_pos hint]
  | faulted _ hfault =>
    rw [faultAt_of_none hcopy] at hfault
    cases hfault
  | finished hint _ hret _ huser =>
    rw [if_neg (by simp [hint])]
    have hlen : (slice cmds fpos.toInt.toNat c.count.toNat).length
        = min c.count.toNat (s.driver.ring.total - fpos.toInt.toNat) := by
      rw [length_slice, h.total_eq]
    refine ⟨_, rfl, ?_, fun i hi ↦ ?_, fun a ha ↦ ?_⟩
    · rw [hret, ReadCall.pieces, sum_spans, h.total_eq]
    · rw [← hlen] at hi
      rw [huser, UserMemory.write_inside _ _ hi, ← List.getElem?_eq_getElem hi, slice,
        List.getElem?_take_of_lt (by rw [length_slice] at hi; omega), List.getElem?_drop]
    · rw [huser, UserMemory.write_outside _ _ (by rwa [hlen])]

/-- Two commands are stored, and more is asked for than is left from inside the first one on. -/
theorem read_returns_slice_past_end : ∃ (s : System) (r : ReadResult), Reachable .documented s ∧
    s.driver.commands = some [[97, newline], [98, newline]] ∧
    aesdRead s.driver ⟨false, 100, 5, fun _ ↦ none⟩ (fun _ ↦ 0) 1 = .ok r ∧ r.ret.toInt = 3 ∧
      r.user 100 = newline ∧ r.user 101 = 98 ∧ r.user 102 = newline ∧ r.user 103 = 0 := by
  obtain ⟨tr, s, hrun, htest⟩ := exists_run_of_exec (System.machine .documented)
    (System.loaded loadedDriver)
    [writeCall 0 [97, newline] (by decide), writeCall 0 [98, newline] (by decide)]
    (fun _ s ↦ decide (s.driver.commands = some [[97, newline], [98, newline]]))
    (by decide +kernel)
  have hcommands := of_decide_eq_true htest
  have hs : Reachable .documented s := ⟨_, _, tr, loadedDriver_init, hrun⟩
  obtain ⟨content, r, hc, hlen, hr, n, hn, hret, hin, hout⟩ := read_returns_slice hs
    ⟨false, 100, 5, fun _ ↦ none⟩ (fun _ ↦ rfl) (fun _ ↦ 0) (show 0 ≤ (1 : Int64).toInt by decide)
  rw [Driver.content, hcommands, Option.map_some, Option.some.injEq] at hc
  subst hc
  rw [← hlen] at hn
  obtain rfl : n = 3 := hn
  have h0 : some newline = some (r.user 100) := hin 0 (by omega)
  have h1 : some 98 = some (r.user 101) := hin 1 (by omega)
  have h2 : some newline = some (r.user 102) := hin 2 (by omega)
  exact ⟨s, r, hs, hcommands, hr, hret, (Option.some.inj h0).symm, (Option.some.inj h1).symm,
    (Option.some.inj h2).symm, hout 103 (.inr le_rfl)⟩

/-! ## Reads that share a position -/

/-- Consecutive reads through one file, each with the user memory it finds. The state is the
position. -/
def reader (d : Driver) : Machine Int64 (ReadCall × UserMemory) ReadResult Fault where
  step fpos e :=
    match aesdRead d e.1 e.2 fpos with
    | .error e => .error e
    | .ok r => .ok (r.fpos, r)

/-- A read by its position, its arguments and its result. -/
abbrev ReadMove := Move Int64 (ReadCall × UserMemory) ReadResult

namespace ReadMove

def Succeeded (m : ReadMove) : Prop := 0 ≤ m.ret.ret.toInt

instance (m : ReadMove) : Decidable m.Succeeded := inferInstanceAs (Decidable (_ ≤ _))

/-- The bytes that the call returned in its buffer. -/
def bytes (m : ReadMove) : List UInt8 :=
  m.ret.user.read m.event.1.buf m.ret.ret.toInt.toNat

/-- The number of bytes that the call asked for, if it succeeded. -/
def wanted (m : ReadMove) : ℕ := if m.Succeeded then m.event.1.count.toNat else 0

/-- The call moved the position by what it returned, or not at all when it failed. -/
def Advances (m : ReadMove) : Prop :=
  if m.Succeeded then m.ret.fpos.toInt = m.pre.toInt + m.ret.ret.toInt else m.ret.fpos = m.pre

end ReadMove

/-- Reads that together return the contents from position `q` on, up to the number of bytes they
ask for or to the end, and that each move the position by what they return. -/
structure ReadsInOrder (content : List UInt8) (q : ℕ) (tr : List ReadMove) : Prop where
  bytes : tr.flatMap ReadMove.bytes = (content.drop q).take (tr.map ReadMove.wanted).sum
  advances : ∀ m ∈ tr, m.Advances

namespace ReadCall

variable (c : ReadCall) (sizes : List ℕ) (q : ℕ)

/-- The condition under which a read from `q` moves the position by what it returns: it is
interrupted, or its first copy fails, or no copy fails and it stays within one entry or asks for
more than there is. -/
def Exact : Prop :=
  c.interrupted = true ∨
    match faultAt c.copy 0 (c.pieces sizes q) with
    | some j => j = 0
    | none => (c.pieces sizes q).length ≤ 1 ∨ sizes.sum < q + c.count.toNat

def gain : ℕ :=
  if c.interrupted then 0
  else match faultAt c.copy 0 (c.pieces sizes q) with
    | some _ => 0
    | none => min c.count.toNat (sizes.sum - q)

end ReadCall

/-- Every read of a list is exact at the position that the reads before it leave. -/
def ExactReads (sizes : List ℕ) : ℕ → List ReadCall → Prop
  | _, [] => True
  | q, c :: cs => c.Exact sizes q ∧ ExactReads sizes (q + c.gain sizes q) cs

section Chunks

variable {d : Driver} {cmds : List (List UInt8)} {part : List UInt8} {c : ReadCall}
  {user : UserMemory} {fpos : Int64} {q : ℕ} {r : ReadResult}

/-- What one read of a sequence does. It advances exactly when it is exact, and then it returns
the contents from its position on and leaves the position behind them. -/
private structure MoveSpec (cmds : List (List UInt8)) (q : ℕ) (m : ReadMove) : Prop where
  advances_iff : m.Advances ↔ m.event.1.Exact (cmds.map List.length) q
  next : m.Advances → m.ret.fpos.toInt = (q + m.event.1.gain (cmds.map List.length) q : ℕ)
  bytes : m.Advances → m.bytes = slice cmds q m.wanted
  rest : cmds.flatten.drop (q + m.event.1.gain (cmds.map List.length) q)
    = cmds.flatten.drop (q + m.wanted)

private theorem moveSpec_of_failed (hq : fpos.toInt = q) (hret : r.ret.toInt < 0)
    (hgain : c.gain (cmds.map List.length) q = 0)
    (hiff : r.fpos = fpos ↔ c.Exact (cmds.map List.length) q) :
    MoveSpec cmds q ⟨fpos, (c, user), r⟩ := by
  have hno : ¬ReadMove.Succeeded ⟨fpos, (c, user), r⟩ := Int.not_le.mpr hret
  have hadv : ReadMove.Advances ⟨fpos, (c, user), r⟩ ↔ r.fpos = fpos := by
    rw [ReadMove.Advances, if_neg hno]
  have hwanted : ReadMove.wanted ⟨fpos, (c, user), r⟩ = 0 := if_neg hno
  refine ⟨hadv.trans hiff, fun h ↦ ?_, fun _ ↦ ?_, by rw [hwanted, hgain]⟩
  · rw [hadv.mp h, hgain]
    exact hq
  · rw [hwanted, ReadMove.bytes, Int.toNat_of_nonpos hret.le]
    rfl

private theorem moveSpec_of_finished (hq : fpos.toInt = q) (hint : c.interrupted = false)
    (hfault : faultAt c.copy 0 (c.pieces (cmds.map List.length) q) = none)
    (hret : r.ret.toInt = (c.pieces (cmds.map List.length) q).sum)
    (hpos : r.fpos.toInt = q + ((c.pieces (cmds.map List.length) q).sum
      + c.overshoot (cmds.map List.length) q : ℕ))
    (huser : r.user = user.write c.buf (slice cmds q c.count.toNat)) :
    MoveSpec cmds q ⟨fpos, (c, user), r⟩ := by
  have hsucc : ReadMove.Succeeded ⟨fpos, (c, user), r⟩ := by
    rw [ReadMove.Succeeded, hret]
    exact Int.natCast_nonneg _
  have hsum : (c.pieces (cmds.map List.length) q).sum
      = min c.count.toNat ((cmds.map List.length).sum - q) := sum_spans ..
  have hgain : c.gain (cmds.map List.length) q
      = min c.count.toNat ((cmds.map List.length).sum - q) := by
    rw [ReadCall.gain, if_neg (by simp [hint]), hfault]
  have hadv : ReadMove.Advances ⟨fpos, (c, user), r⟩
      ↔ c.overshoot (cmds.map List.length) q = 0 := by
    rw [ReadMove.Advances, if_pos hsucc, hpos, hret, hq]
    omega
  have hwanted : ReadMove.wanted ⟨fpos, (c, user), r⟩ = c.count.toNat := if_pos hsucc
  refine ⟨hadv.trans ?_, fun h ↦ ?_, fun _ ↦ ?_, ?_⟩
  · rw [ReadCall.Exact, hint, hfault, ReadCall.overshoot_eq_zero_iff]
    simp only [Bool.false_eq_true, false_or]
  · simp only [hpos, hadv.mp h, hgain, hsum, Nat.add_zero]
    push_cast
    rfl
  · rw [hwanted, ReadMove.bytes]
    simp only [hret, huser, hsum]
    rw [Int.toNat_natCast, ← length_slice]
    exact UserMemory.read_write ..
  · -- what was asked for and not there makes no difference, since nothing is behind the end
    rw [hwanted, hgain]
    by_cases hle : c.count.toNat ≤ (cmds.map List.length).sum - q
    · rw [min_eq_left hle]
    · rw [List.drop_of_length_le (by rw [length_flatten_eq_sum]; omega),
        List.drop_of_length_le (by rw [length_flatten_eq_sum]; omega)]

private theorem moveSpec (hq : fpos.toInt = q) (hout : ReadOutcome cmds c user fpos q r) :
    MoveSpec cmds q ⟨fpos, (c, user), r⟩ := by
  cases hout with
  | interrupted hint =>
    refine moveSpec_of_failed hq (show (-Errno.erestartsys).toInt < 0 by decide) ?_ ?_
    · rw [ReadCall.gain, if_pos hint]
    · exact iff_of_true rfl (.inl hint)
  | @faulted r j hint hfault hret hpos =>
    apply moveSpec_of_failed hq (by rw [hret]; decide)
    · rw [ReadCall.gain, if_neg (by simp [hint]), hfault]
    · -- the position has moved by the pieces before the failing one, none of which is empty
      have hj := sum_take_spans_eq_zero_iff (faultAt_lt hfault)
      rw [ReadCall.Exact, hint, hfault, ← Int64.toInt_inj, hpos, hq]
      simp only [Bool.false_eq_true, false_or]
      rw [← hj, ReadCall.pieces]
      omega
  | finished hint hfault hret hpos huser =>
    exact moveSpec_of_finished hq hint hfault hret hpos huser

private theorem exec_reader (h : Stores d cmds part) : ∀ (calls : List (ReadCall × UserMemory))
    {fpos : Int64} {q : ℕ}, fpos.toInt = q →
    ∃ tr t, (reader d).exec fpos calls = .ok (tr, t) ∧
      ((∀ m ∈ tr, ReadMove.Advances m)
        ↔ ExactReads (cmds.map List.length) q (calls.map Prod.fst)) ∧
      ((∀ m ∈ tr, ReadMove.Advances m) →
        tr.flatMap ReadMove.bytes = slice cmds q (tr.map ReadMove.wanted).sum) := by
  intro calls
  induction calls with
  | nil =>
    intro fpos q _
    exact ⟨[], fpos, rfl, by simp [ExactReads], fun _ ↦ by simp [slice]⟩
  | cons e calls ih =>
    intro fpos q hq
    obtain ⟨c, user⟩ := e
    obtain ⟨r, hr, hout⟩ := aesdRead_spec h c user hq
    have hm := moveSpec hq hout
    have hstep : (reader d).step fpos (c, user) = .ok (r.fpos, r) := by
      simp only [reader, hr]
    by_cases hadv : ReadMove.Advances ⟨fpos, (c, user), r⟩
    · obtain ⟨tr, t, hexec, hiff, hbytes⟩ := ih (hm.next hadv)
      refine ⟨⟨fpos, (c, user), r⟩ :: tr, t, by simp only [exec, hstep, hexec], ?_, fun hall ↦ ?_⟩
      · rw [List.forall_mem_cons, hiff, List.map_cons, ExactReads, hm.advances_iff]
      · rw [List.forall_mem_cons] at hall
        rw [List.flatMap_cons, List.map_cons, List.sum_cons, hm.bytes hadv, hbytes hall.2,
          slice_append]
        congr 1
        rw [slice, slice, hm.rest]
    · -- the first read already moves too far, so all that matters is that the others return
      obtain ⟨tr, t, hexec⟩ : ∃ tr t, (reader d).exec r.fpos calls = .ok (tr, t) :=
        exec_total (I := fun _ ↦ True) (A := fun _ ↦ True) (fun fpos e _ _ ↦ by
          obtain ⟨r, hr⟩ := aesdRead_total h e.1 e.2 fpos
          exact ⟨r.fpos, r, by simp only [reader, hr], trivial⟩) trivial (fun _ _ ↦ trivial)
      refine ⟨⟨fpos, (c, user), r⟩ :: tr, t, by simp only [exec, hstep, hexec], ?_, fun hall ↦ ?_⟩
      · rw [List.forall_mem_cons, List.map_cons, ExactReads, ← hm.advances_iff]
        simp [hadv]
      · exact absurd (List.forall_mem_cons.mp hall).1 hadv

/-- **When consecutive reads return the contents in order.** Any list of reads from a position that
is not negative runs to its end. The reads return the contents from that position on without a
gap or a repetition, and each moves the position by what it returns, exactly when every read
is exact where it starts. -/
theorem chunked_reads_iff {K : FixedSizeLlseek} {s : System} (hs : Reachable K s)
    (calls : List (ReadCall × UserMemory)) {fpos : Int64} (hpos : 0 ≤ fpos.toInt) :
    ∃ content tr t, s.driver.content = some content ∧
      (reader s.driver).exec fpos calls = .ok (tr, t) ∧
      (ReadsInOrder content fpos.toInt.toNat tr
        ↔ ExactReads s.driver.ring.sizes fpos.toInt.toNat (calls.map Prod.fst)) := by
  obtain ⟨cmds, part, h⟩ := hs.represents
  obtain ⟨tr, t, hexec, hiff, hbytes⟩ := exec_reader h.toStores calls
    (Int.toNat_of_nonneg hpos).symm
  refine ⟨cmds.flatten, tr, t, h.content_eq, hexec, ?_⟩
  rw [h.sizes_eq, ← hiff]
  exact ⟨ReadsInOrder.advances, fun hall ↦ ⟨hbytes hall, hall⟩⟩

end Chunks

/-- A read of one entry, and a read of more than is left. -/
theorem chunked_reads_of_two : ∃ (s : System) (tr : List ReadMove) (t : Int64),
    (reader s.driver).exec 0 [(⟨false, 100, 4, fun _ ↦ none⟩, fun _ ↦ 0),
      (⟨false, 104, 9, fun _ ↦ none⟩, fun _ ↦ 0)] = .ok (tr, t) ∧
    ReadsInOrder [97, 98, 99, newline, 100, newline] 0 tr := by
  obtain ⟨tr, s, hrun, htest⟩ := exists_run_of_exec (System.machine .documented)
    (System.loaded loadedDriver)
    [writeCall 0 [97, 98, 99, newline] (by decide), writeCall 0 [100, newline] (by decide)]
    (fun _ s ↦ decide (s.driver.content = some [97, 98, 99, newline, 100, newline] ∧
      s.driver.ring.sizes = [4, 2])) (by decide +kernel)
  obtain ⟨hcontent, hsizes⟩ := of_decide_eq_true htest
  obtain ⟨content, tr, t, hc, hexec, hiff⟩ := chunked_reads_iff
    ⟨_, _, tr, loadedDriver_init, hrun⟩ [(⟨false, 100, 4, fun _ ↦ none⟩, fun _ ↦ 0),
      (⟨false, 104, 9, fun _ ↦ none⟩, fun _ ↦ 0)] (show 0 ≤ (0 : Int64).toInt by decide)
  rw [hcontent, Option.some.injEq] at hc
  subst hc
  rw [hsizes] at hiff
  exact ⟨s, tr, t, hexec, hiff.mpr ⟨.inr (.inl (by decide)), .inr (.inr (by decide)), trivial⟩⟩

/-- With `abc` and `d` stored, a read of five bytes from the start returns five bytes but leaves the
position at nine, so the next read returns nothing and the last byte is never returned. -/
theorem chunked_reads_skip : ∃ (s : System) (tr : List ReadMove) (t : Int64),
    Reachable .documented s ∧ s.driver.content = some [97, 98, 99, newline, 100, newline] ∧
    (reader s.driver).exec 0 [(⟨false, 100, 5, fun _ ↦ none⟩, fun _ ↦ 0),
      (⟨false, 105, 5, fun _ ↦ none⟩, fun _ ↦ 0)] = .ok (tr, t) ∧
    tr.map (fun m ↦ m.ret.fpos) = [9, 9] ∧
    ¬ReadsInOrder [97, 98, 99, newline, 100, newline] 0 tr := by
  obtain ⟨tr, s, hrun, htest⟩ := exists_run_of_exec (System.machine .documented)
    (System.loaded loadedDriver)
    [writeCall 0 [97, 98, 99, newline] (by decide), writeCall 0 [100, newline] (by decide)]
    (fun _ s ↦ match (reader s.driver).exec 0 [(⟨false, 100, 5, fun _ ↦ none⟩, fun _ ↦ 0),
        (⟨false, 105, 5, fun _ ↦ none⟩, fun _ ↦ 0)] with
      | .ok (tr, _) => decide (s.driver.content = some [97, 98, 99, newline, 100, newline] ∧
        tr.map (fun m ↦ m.ret.fpos) = [9, 9] ∧
        tr.flatMap ReadMove.bytes ≠ [97, 98, 99, newline, 100, newline].take
          (tr.map ReadMove.wanted).sum)
      | .error _ => false) (by decide +kernel)
  split at htest
  · rename_i tr' t hexec
    obtain ⟨hcontent, hfpos, hbytes⟩ := of_decide_eq_true htest
    exact ⟨s, tr', t, ⟨_, _, tr, loadedDriver_init, hrun⟩, hcontent, hexec, hfpos,
      fun hread ↦ hbytes hread.bytes⟩
  · cases htest

/-! ## Seeking and looking up -/

namespace Driver

/-- The live entry of rank `x` has a byte at offset `y`. -/
def HasByte (d : Driver) (x y : ℕ) : Prop := ∃ e, d.ring.live[x]? = some e ∧ y < e.size.toNat

/-- The number of bytes in the live entries older than that of rank `x`. -/
def bytesBefore (d : Driver) (x : ℕ) : ℕ := (d.ring.sizes.take x).sum

/-- Seeking and looking up are inverse to each other on the contents of the device. -/
structure SeekIsInverse (d : Driver) (content : List UInt8) : Prop where
  /-- A seek whose wait for the mutex is interrupted does nothing. -/
  interrupted : ∀ x y fpos,
    aesdAdjustFileOffset d true fpos x y = .ok (-Errno.erestartsys, fpos)
  /-- A seek succeeds exactly when the byte exists. -/
  succeeds_iff : ∀ x y fpos, (∃ pos, aesdAdjustFileOffset d false fpos x y = .ok (0, pos)) ↔
    d.HasByte x.toNat y.toNat
  /-- It then goes to the position of the byte. -/
  position : ∀ x y fpos pos, aesdAdjustFileOffset d false fpos x y = .ok (0, pos) →
    pos.toInt = (d.bytesBefore x.toNat + y.toNat : ℕ)
  /-- The lookup of that position finds the byte again. -/
  lookup : ∀ x y fpos pos rtn, aesdAdjustFileOffset d false fpos x y = .ok (0, pos) →
    aesdCircularBufferFindEntryOffsetForFpos d.ring pos.toUInt64 rtn
      = .ok (some (d.ring.slotOfRank x.toNat), y.toUInt64)
  /-- A read from there that covers the rest returns the rest. -/
  read : ∀ x y fpos pos (c : ReadCall) user,
    aesdAdjustFileOffset d false fpos x y = .ok (0, pos) →
    c.interrupted = false → (∀ i, c.copy i = none) →
    content.length ≤ pos.toInt.toNat + c.count.toNat →
    ∃ r, aesdRead d c user pos = .ok r ∧
      r.ret.toInt = (content.drop pos.toInt.toNat).length ∧
      r.user = user.write c.buf (content.drop pos.toInt.toNat)
  /-- In every other case the seek is refused and the position stays. -/
  refused : ∀ x y fpos, ¬d.HasByte x.toNat y.toNat →
    aesdAdjustFileOffset d false fpos x y = .ok (-Errno.einval, fpos)
  /-- Every position in the contents is found, and the seek to what was found goes to it. -/
  converse : ∀ (p rtn : UInt64), p.toNat < content.length → ∃ i off,
    aesdCircularBufferFindEntryOffsetForFpos d.ring p rtn
      = .ok (some (d.ring.slotOfRank i), off) ∧ d.HasByte i off.toNat ∧
    ∀ fpos, aesdAdjustFileOffset d false fpos (UInt32.ofNat i) off.toUInt32 = .ok (0, p.toInt64)

end Driver

section Seek

variable {d : Driver} {cmds : List (List UInt8)} {part : List UInt8}

private theorem hasByte_iff (h : Stores d cmds part) {x y : ℕ} :
    d.HasByte x y ↔ ∃ hx : x < cmds.length, y < cmds[x].length := by
  have hlen : d.ring.live.length = cmds.length := h.held.length_eq
  constructor
  · rintro ⟨e, he, hy⟩
    obtain ⟨hx, rfl⟩ := List.getElem?_eq_some_iff.mp he
    refine ⟨hlen ▸ hx, ?_⟩
    rwa [getElem_live, (h.held_of_rank (hlen ▸ hx)).size_eq] at hy
  · rintro ⟨hx, hy⟩
    refine ⟨_, List.getElem?_eq_getElem (hlen ▸ hx), ?_⟩
    rwa [getElem_live, (h.held_of_rank hx).size_eq]

private theorem adjust_spec (h : Stores d cmds part) {x y : UInt32} {fpos pos : Int64}
    (hadj : aesdAdjustFileOffset d false fpos x y = .ok (0, pos)) :
    ∃ hx : x.toNat < cmds.length, y.toNat < cmds[x.toNat].length ∧
      pos.toInt = position (cmds.map List.length) x.toNat y.toNat := by
  by_cases hhit : ∃ hx : x.toNat < cmds.length, y.toNat < cmds[x.toNat].length
  · obtain ⟨hx, hy⟩ := hhit
    obtain ⟨pos', hadj', hpos⟩ := h.adjust_of_lt hx hy fpos
    rw [hadj] at hadj'
    obtain rfl := (Prod.mk.inj (Except.ok.inj hadj')).2
    exact ⟨hx, hy, hpos⟩
  · rw [h.adjust_of_not_lt (fun hx hy ↦ hhit ⟨hx, hy⟩)] at hadj
    exact absurd (Prod.mk.inj (Except.ok.inj hadj)).1 (by decide)

private theorem locate_of_adjust (h : Stores d cmds part) {x y : UInt32} {fpos pos : Int64}
    (hadj : aesdAdjustFileOffset d false fpos x y = .ok (0, pos)) :
    0 ≤ pos.toInt ∧ locate (cmds.map List.length) pos.toInt.toNat = some (x.toNat, y.toNat) := by
  obtain ⟨hx, hy, hpos⟩ := adjust_spec h hadj
  refine ⟨by rw [hpos]; exact Int.natCast_nonneg _, locate_eq_some_iff.mpr
    ⟨by simpa using hx, by simpa using hy, ?_⟩⟩
  rw [hpos, Int.toNat_natCast]

private theorem lookup_of_adjust (h : Stores d cmds part) {x y : UInt32} {fpos pos : Int64}
    (hadj : aesdAdjustFileOffset d false fpos x y = .ok (0, pos)) (rtn : UInt64) :
    aesdCircularBufferFindEntryOffsetForFpos d.ring pos.toUInt64 rtn
      = .ok (some (d.ring.slotOfRank x.toNat), y.toUInt64) := by
  obtain ⟨hpos, hloc⟩ := locate_of_adjust h hadj
  have hy : UInt64.ofNat y.toNat = y.toUInt64 := UInt64.toNat_inj.mp (by
    rw [toNat_ofNat_of_lt (by have := y.toNat_lt; omega)]
    rfl)
  rw [find_of_locate h.wf (by have := h.total_lt; omega) rtn
    (by rw [h.sizes_eq, toNat_toUInt64_of_nonneg hpos, hloc]), hy]

theorem Stores.read_rest (h : Stores d cmds part) {c : ReadCall} {user : UserMemory}
    {pos : Int64} (hpos : 0 ≤ pos.toInt) (hint : c.interrupted = false)
    (hcopy : ∀ i, c.copy i = none)
    (hcount : cmds.flatten.length ≤ pos.toInt.toNat + c.count.toNat) :
    ∃ r, aesdRead d c user pos = .ok r ∧
      r.ret.toInt = (cmds.flatten.drop pos.toInt.toNat).length ∧
      r.user = user.write c.buf (cmds.flatten.drop pos.toInt.toNat) := by
  obtain ⟨r, hr, hout⟩ := aesdRead_spec h c user (Int.toNat_of_nonneg hpos).symm
  refine ⟨r, hr, ?_⟩
  cases hout with
  | interrupted hint' =>
    rw [hint] at hint'
    cases hint'
  | faulted _ hfault =>
    rw [faultAt_of_none hcopy] at hfault
    cases hfault
  | finished _ _ hret _ huser =>
    rw [length_flatten_eq_sum] at hcount
    constructor
    · rw [hret, ReadCall.pieces, sum_spans, List.length_drop, length_flatten_eq_sum,
        min_eq_right (by omega)]
    · rw [huser, slice, List.take_of_length_le]
      rw [List.length_drop, length_flatten_eq_sum]
      omega

private theorem adjust_of_locate (h : Stores d cmds part)
    (hshort : ∀ xs ∈ cmds, xs.length < 2 ^ 32) {p : UInt64} {i o : ℕ}
    (hloc : locate (cmds.map List.length) p.toNat = some (i, o)) (fpos : Int64) :
    aesdAdjustFileOffset d false fpos (UInt32.ofNat i) (UInt64.ofNat o).toUInt32
      = .ok (0, p.toInt64) := by
  obtain ⟨hi, ho, hp⟩ := locate_eq_some_iff.mp hloc
  rw [List.length_map] at hi
  rw [List.getElem_map] at ho
  have hlt := hshort _ (List.getElem_mem hi)
  have hle := h.length_eq ▸ liveCount_le h.wf
  have hx : (UInt32.ofNat i).toNat = i := UInt32.toNat_ofNat_of_lt' (by
    rw [UInt32.size]
    omega)
  have hy : (UInt64.ofNat o).toUInt32.toNat = o := by
    rw [UInt64.toNat_toUInt32, toNat_ofNat_of_lt (by omega), Nat.mod_eq_of_lt (by omega)]
  obtain ⟨pos, hadj, hpos⟩ := @Stores.adjust_of_lt d cmds part (UInt32.ofNat i)
    (UInt64.ofNat o).toUInt32 h (by rwa [hx]) (by simpa only [hx, hy] using ho) fpos
  have htotal := h.total_eq ▸ h.total_lt
  have hplt : p.toNat < (cmds.map List.length).sum := by
    rw [← hp]
    exact position_lt_sum (by simpa using hi) (by simpa using ho)
  rw [hadj, show pos = p.toInt64 from Int64.toInt_inj.mp (by
    rw [hpos, hx, hy, hp, toInt_toInt64_of_lt (by omega)])]

/-- **Seeking and looking up are inverse to each other**, in every reachable state whose entries
are shorter than `2 ^ 32` bytes. -/
theorem seek_is_inverse {K : FixedSizeLlseek} {s : System} (hs : Reachable K s)
    (hshort : ∀ e ∈ s.driver.ring.live, e.size.toNat < 2 ^ 32) :
    ∃ content, s.driver.content = some content ∧ s.driver.SeekIsInverse content := by
  obtain ⟨cmds, part, h⟩ := hs.represents
  have hshort' : ∀ xs ∈ cmds, xs.length < 2 ^ 32 := by
    intro xs hxs
    obtain ⟨i, hi, rfl⟩ := List.getElem_of_mem hxs
    have hi' : i < s.driver.ring.live.length := h.held.length_eq ▸ hi
    have hlt := hshort _ (List.getElem_mem hi')
    rwa [getElem_live, (h.held_of_rank hi).size_eq] at hlt
  refine ⟨cmds.flatten, h.content_eq, ⟨fun _ _ _ ↦ rfl, fun x y fpos ↦ ?_,
    fun x y fpos pos hadj ↦ ?_, fun x y fpos pos rtn hadj ↦ lookup_of_adjust h.toStores hadj rtn,
    fun x y fpos pos c user hadj hint hcopy hcount ↦
      h.read_rest (locate_of_adjust h.toStores hadj).1 hint hcopy hcount,
    fun x y fpos hno ↦ ?_, fun p rtn hp ↦ ?_⟩⟩
  · rw [hasByte_iff h.toStores]
    constructor
    · rintro ⟨pos, hadj⟩
      obtain ⟨hx, hy, -⟩ := adjust_spec h.toStores hadj
      exact ⟨hx, hy⟩
    · rintro ⟨hx, hy⟩
      obtain ⟨pos, hadj, -⟩ := h.adjust_of_lt hx hy fpos
      exact ⟨pos, hadj⟩
  · obtain ⟨hx, hy, hpos⟩ := adjust_spec h.toStores hadj
    rw [hpos, Driver.bytesBefore, h.sizes_eq]
    rfl
  · exact h.adjust_of_not_lt (fun hx hy ↦ hno ((hasByte_iff h.toStores).mpr ⟨hx, hy⟩)) fpos
  · -- rank and offset fit the 32-bit fields of a request, so nothing is lost in the conversion
    rw [length_flatten_eq_sum] at hp
    obtain ⟨i, o, hloc⟩ := exists_locate hp
    obtain ⟨hi, ho, -⟩ := locate_eq_some_iff.mp hloc
    rw [List.length_map] at hi
    rw [List.getElem_map] at ho
    have hlt := hshort' _ (List.getElem_mem hi)
    refine ⟨i, UInt64.ofNat o, find_of_locate h.wf (by have := h.total_lt; omega) rtn
      (by rw [h.sizes_eq, hloc]), ?_, adjust_of_locate h.toStores hshort' hloc⟩
    rw [toNat_ofNat_of_lt (by omega)]
    exact (hasByte_iff h.toStores).mpr ⟨hi, ho⟩

/-- Two commands are stored, and the last byte of the second is addressed. -/
theorem seek_is_inverse_of_two : ∃ (s : System) (pos : Int64), Reachable .documented s ∧
    s.driver.ring.sizes = [4, 2] ∧
    aesdAdjustFileOffset s.driver false 0 1 1 = .ok (0, pos) ∧ pos.toInt = 5 := by
  obtain ⟨tr, s, hrun, htest⟩ := exists_run_of_exec (System.machine .documented)
    (System.loaded loadedDriver)
    [writeCall 0 [97, 98, 99, newline] (by decide), writeCall 0 [100, newline] (by decide)]
    (fun _ s ↦ decide (s.driver.ring.sizes = [4, 2] ∧
      (s.driver.ring.live[1]?).map AesdBufferEntry.size = some 2 ∧
      ∀ e ∈ s.driver.ring.live, e.size.toNat < 2 ^ 32)) (by decide +kernel)
  obtain ⟨hsizes, hlive, hshort⟩ := of_decide_eq_true htest
  have hs : Reachable .documented s := ⟨_, _, tr, loadedDriver_init, hrun⟩
  obtain ⟨content, -, hinv⟩ := seek_is_inverse hs hshort
  obtain ⟨e, he, hsize⟩ := Option.map_eq_some_iff.mp hlive
  obtain ⟨pos, hadj⟩ := (hinv.succeeds_iff 1 1 0).mpr ⟨e, he, by rw [hsize]; decide⟩
  refine ⟨s, pos, hs, hsizes, hadj, ?_⟩
  rw [hinv.position 1 1 0 pos hadj, Driver.bytesBefore, hsizes]
  rfl

end Seek

end Aesd
