import Aesd.Driver.Cursor

/-!
# Standard I/O on the device

What the C library makes of `fwrite`, `rewind` and `fread` on a file that is the device. How a
message is cut into calls of `aesd_write`, and how many bytes each call of `aesd_read` asks for, is
up to the library; both are inputs here. No wait for the mutex is interrupted and no copy
fails.

## Writing

A message that ends in its only newline becomes one command, whatever the pieces it is cut into
(`fwritePieces_spec`). The running size changes as it does for the last piece alone.

## Reading

Reading to the end is more fragile, since `aesd_read` skips bytes when it stops inside a second
entry: `freadAll_spec` says that the bytes read are the whole rest of the contents exactly when no
call does so (`ReadsWhole`). Reading ends in any case, also from a position that is negative or past
the end (`freadAll_total`).
-/

namespace Aesd

open AesdCircularBuffer Segments

/-! ## Writing and rewinding -/

/-- The part of a message that one call of `aesd_write` is given. -/
structure Piece where
  bytes : List UInt8
  ne_nil : bytes ≠ []
  length_lt : bytes.length < 2 ^ 63

/-- The message that was cut into the pieces. -/
def Piece.join (pieces : List Piece) : List UInt8 := pieces.flatMap Piece.bytes

/-- `fwrite` and `fflush` of a message cut into pieces: one `aesd_write` after the other, until one
returns an error. -/
def fwritePieces (d : Driver) (fpos : Int64) : List Piece → Except Fault (Driver × Int64)
  | [] => .ok (d, fpos)
  | piece :: pieces =>
    match aesdWrite d ⟨false, piece.bytes, piece.length_lt, true, none⟩ fpos with
    | .error e => .error e
    | .ok r =>
      if r.ret < 0 then .ok (r.driver, r.fpos) else fwritePieces r.driver r.fpos pieces

/-- `rewind`, which reports no error: the file position after the call. -/
def rewind (K : FixedSizeLlseek) (d : Driver) (fpos : Int64) : Int64 :=
  (aesdLlseek K d false fpos 0 seekSet).2

/-- The number of bytes of the last piece. -/
def lastLength (pieces : List Piece) : ℕ := (pieces.getLast?.map fun p ↦ p.bytes.length).getD 0

@[simp] theorem Piece.join_nil : Piece.join [] = [] := rfl

@[simp] theorem Piece.join_cons (p : Piece) (pieces : List Piece) :
    Piece.join (p :: pieces) = p.bytes ++ Piece.join pieces := List.flatMap_cons ..

theorem lastLength_le (pieces : List Piece) : lastLength pieces ≤ (Piece.join pieces).length := by
  rw [lastLength]
  cases hlast : pieces.getLast? with
  | none => exact Nat.zero_le _
  | some p =>
    have hsub := List.sublist_flatten_of_mem
      (List.mem_map_of_mem (f := Piece.bytes) (List.mem_of_getLast? hlast))
    rw [← List.flatMap_def] at hsub
    exact hsub.length_le

theorem rewind_eq (K : FixedSizeLlseek) (d : Driver) (fpos : Int64) :
    rewind K d fpos = if 0 ≤ d.dev.size.toInt then 0 else fpos := by
  rw [rewind, aesdLlseek, if_neg Bool.false_ne_true, K.seek_set, Int64.toInt_zero]
  by_cases h : 0 ≤ d.dev.size.toInt
  · rw [if_pos ⟨le_rfl, h⟩, if_pos h]
  · rw [if_neg fun hand ↦ h hand.2, if_neg h]

section Fwrite

variable {d : Driver} {cmds : List (List UInt8)} {part : List UInt8}

private theorem write_continues (h : Represents d cmds part) (p : Piece)
    (hlast : p.bytes.getLast? ≠ some newline)
    (hlen : part.length + p.bytes.length ≤ kmallocMaxSize) (fpos : Int64) :
    ∃ d', aesdWrite d ⟨false, p.bytes, p.length_lt, true, none⟩ fpos
        = .ok ⟨d', (UInt64.ofNat p.bytes.length).toInt64,
          fpos + (UInt64.ofNat p.bytes.length).toInt64⟩ ∧
      Represents d' cmds (part ++ p.bytes) ∧ d'.dev = d.dev := by
  obtain ⟨r, hr, hout⟩ := aesdWrite_total h ⟨false, p.bytes, p.length_lt, true, none⟩ fpos p.ne_nil
  cases hout with
  | interrupted hint => cases hint
  | refused _ halloc => exact absurd ⟨rfl, hlen⟩ halloc
  | faulted _ _ hcopy => exact absurd rfl hcopy
  | continued _ _ _ _ hrep => exact ⟨_, hr, hrep, rfl⟩
  | closed _ _ _ hlast' => exact absurd hlast' hlast

private theorem write_closes (h : Represents d cmds part) (p : Piece)
    (hlast : p.bytes.getLast? = some newline)
    (hlen : part.length + p.bytes.length ≤ kmallocMaxSize) (fpos : Int64) :
    ∃ d', aesdWrite d ⟨false, p.bytes, p.length_lt, true, none⟩ fpos
        = .ok ⟨d', (UInt64.ofNat p.bytes.length).toInt64,
          fpos + (UInt64.ofNat p.bytes.length).toInt64⟩ ∧
      Represents d' ((cmds ++ [part ++ p.bytes]).rtake 10) [] ∧
      d'.dev.size = d.sizeAfterCommit (UInt64.ofNat (part.length + p.bytes.length))
        (UInt64.ofNat p.bytes.length) := by
  obtain ⟨r, hr, hout⟩ := aesdWrite_total h ⟨false, p.bytes, p.length_lt, true, none⟩ fpos p.ne_nil
  have hsize : d.pending.size + UInt64.ofNat p.bytes.length
      = UInt64.ofNat (part.length + p.bytes.length) := by
    rw [UInt64.ofNat_add, ← h.pending.size_eq, UInt64.ofNat_toNat]
  cases hout with
  | interrupted hint => cases hint
  | refused _ halloc => exact absurd ⟨rfl, hlen⟩ halloc
  | faulted _ _ hcopy => exact absurd rfl hcopy
  | continued _ _ _ hlast' => exact absurd hlast hlast'
  | closed _ _ _ _ hrep => exact ⟨_, hr, hrep, by rw [← hsize]; rfl⟩

private theorem count_not_neg (p : Piece) : ¬(UInt64.ofNat p.bytes.length).toInt64 < 0 := by
  have hlt := p.length_lt
  have hcount : (UInt64.ofNat p.bytes.length).toNat = p.bytes.length :=
    toNat_ofNat_of_lt (by omega)
  rw [Int64.lt_iff_toInt_lt, toInt_toInt64_of_lt (by rwa [hcount]), hcount, Int64.toInt_zero]
  omega

private theorem toInt_add_count {fpos : Int64} {q : ℕ} (hq : fpos.toInt = q) (p : Piece)
    (hlt : q + p.bytes.length < 2 ^ 63) :
    (fpos + (UInt64.ofNat p.bytes.length).toInt64).toInt = (q + p.bytes.length : ℕ) := by
  have hcount : (UInt64.ofNat p.bytes.length).toInt64.toInt = p.bytes.length := by
    rw [toInt_toInt64_of_lt (by rw [toNat_ofNat_of_lt (by omega)]; exact p.length_lt),
      toNat_ofNat_of_lt (by omega)]
  rw [toInt_add_of_bounds (by omega) (by omega), hq, hcount]
  rfl

/-- **A message becomes one command**, in however many pieces it is written. The running size
changes as it does for the last piece. -/
theorem fwritePieces_spec : ∀ {pieces : List Piece} {d : Driver} {part : List UInt8}
    {fpos : Int64} {q : ℕ}, Represents d cmds part →
    (Piece.join pieces).getLast? = some newline →
    newline ∉ (Piece.join pieces).dropLast →
    part.length + (Piece.join pieces).length ≤ kmallocMaxSize →
    fpos.toInt = q → q + (Piece.join pieces).length < 2 ^ 63 →
    ∃ d' fpos', fwritePieces d fpos pieces = .ok (d', fpos') ∧
      Represents d' ((cmds ++ [part ++ Piece.join pieces]).rtake 10) [] ∧
      d'.dev.size = d.sizeAfterCommit
        (UInt64.ofNat (part.length + (Piece.join pieces).length))
        (UInt64.ofNat (lastLength pieces)) ∧
      fpos'.toInt = (q + (Piece.join pieces).length : ℕ) := by
  intro pieces
  induction pieces with
  | nil => intro _ _ _ _ _ hlast; simp at hlast
  | cons p pieces ih =>
    intro d part fpos q h hlast hopen hlen hq hlt
    rw [Piece.join_cons] at hlast hopen hlen hlt ⊢
    cases pieces with
    | nil =>
      rw [Piece.join_nil, List.append_nil] at hlast hopen hlen hlt ⊢
      obtain ⟨d', hwrite, hrep, hsize⟩ := write_closes h p hlast hlen fpos
      refine ⟨d', fpos + (UInt64.ofNat p.bytes.length).toInt64, ?_, hrep, hsize,
        toInt_add_count hq p hlt⟩
      rw [fwritePieces, hwrite]
      simp only [if_neg (count_not_neg p), fwritePieces]
    | cons p' pieces =>
      rw [List.length_append] at hlen hlt ⊢
      have hne : Piece.join (p' :: pieces) ≠ [] := by simp [p'.ne_nil]
      -- the newline of the message is in a later piece
      have hmid : p.bytes.getLast? ≠ some newline := fun hp ↦ hopen (by
        rw [List.dropLast_append_of_ne_nil hne]
        exact List.mem_append_left _ (List.mem_of_getLast? hp))
      obtain ⟨d', hwrite, hrep, hdev⟩ := write_continues h p hmid (by omega) fpos
      obtain ⟨d'', fpos', hrest, hrep', hsize, hpos⟩ := ih hrep
        (by rwa [List.getLast?_append_of_ne_nil _ hne] at hlast)
        (fun hmem ↦ hopen (by
          rw [List.dropLast_append_of_ne_nil hne]
          exact List.mem_append_right _ hmem))
        (by rw [List.length_append]; omega) (toInt_add_count hq p (by omega)) (by omega)
      refine ⟨d'', fpos', ?_, ?_, ?_, ?_⟩
      · rw [fwritePieces, hwrite]
        simp only [if_neg (count_not_neg p), hrest]
      · rwa [List.append_assoc] at hrep'
      · rw [hsize, Driver.sizeAfterCommit, Driver.sizeAfterCommit, Driver.ring, Driver.ring, hdev,
          List.length_append, Nat.add_assoc]
        rfl
      · rw [hpos, Nat.add_assoc]

end Fwrite

/-! ## Reading to the end -/

/-- How many bytes each call of `aesd_read` asks for while a file is read to its end. -/
structure Counts where
  count : ℕ → UInt64
  pos : ∀ k, 0 < (count k).toNat

/-- The count of call `k`. -/
def Counts.bytes (counts : Counts) (k : ℕ) : ℕ := (counts.count k).toNat

/-- Call `k`, into the buffer of the library. -/
def Counts.call (counts : Counts) (k : ℕ) : ReadCall := ⟨false, 0, counts.count k, fun _ ↦ none⟩

/-- The state between two calls: the file position, the buffer of the library, the number of calls
made so far, and what they have returned. -/
structure FreadState where
  fpos : Int64
  user : UserMemory
  calls : ℕ
  bytes : List UInt8

/-- One call of `aesd_read`. Reading ends when it returns nothing or an error. -/
def freadPass (d : Driver) (counts : Counts) (s : FreadState) :
    Except Fault (FreadState ⊕ List UInt8) :=
  match aesdRead d (counts.call s.calls) s.user s.fpos with
  | .error e => .error e
  | .ok r =>
    if r.ret ≤ 0 then .ok (.inr s.bytes)
    else .ok (.inl ⟨r.fpos, r.user, s.calls + 1, s.bytes ++ r.user.read 0 r.ret.toInt.toNat⟩)

/-- `fread` until nothing is left: all bytes that it returned. Every call but the last moves the
position forward, so one more than there are bytes is enough. -/
def freadAll (d : Driver) (counts : Counts) (fpos : Int64) : Except Fault (List UInt8) :=
  Loop.run .outOfFuel (freadPass d counts) (d.ring.total + 1) ⟨fpos, fun _ ↦ 0, 0, []⟩

/-- From position `q` on, no call stops inside a second entry, or at its end, with bytes left to
read. Call `k` starts behind what the calls before it asked for. -/
def ReadsWhole (sizes : List ℕ) (count : ℕ → ℕ) (q : ℕ) : Prop :=
  ∀ k, q + ((List.range k).map count).sum < sizes.sum →
    (spans sizes (q + ((List.range k).map count).sum) (count k)).length ≤ 1 ∨
      sizes.sum ≤ q + ((List.range k).map count).sum + count k

theorem readsWhole_iff {sizes : List ℕ} {count : ℕ → ℕ} {q : ℕ} :
    ReadsWhole sizes count q ↔
      (q < sizes.sum → (spans sizes q (count 0)).length ≤ 1 ∨ sizes.sum ≤ q + count 0) ∧
        ReadsWhole sizes (fun k ↦ count (k + 1)) (q + count 0) := by
  have hshift : ∀ k, q + ((List.range (k + 1)).map count).sum
      = q + count 0 + ((List.range k).map fun k ↦ count (k + 1)).sum := by
    intro k
    rw [List.range_succ_eq_map, List.map_cons, List.sum_cons, List.map_map, Nat.add_assoc]
    rfl
  constructor
  · exact fun h ↦ ⟨h 0, fun k ↦ hshift k ▸ h (k + 1)⟩
  · rintro ⟨hfirst, hrest⟩ k
    cases k with
    | zero => exact hfirst
    | succ k =>
      rw [hshift]
      exact hrest k

theorem readsWhole_of_le {sizes : List ℕ} {count : ℕ → ℕ} {q : ℕ} (h : sizes.sum ≤ q) :
    ReadsWhole sizes count q := fun _ hlt ↦ by omega

theorem readsWhole_of_first {sizes : List ℕ} {count : ℕ → ℕ} {q : ℕ}
    (h : sizes.sum ≤ q + count 0) : ReadsWhole sizes count q :=
  readsWhole_iff.mpr ⟨fun _ ↦ .inr h, readsWhole_of_le h⟩

section Fread

variable {d : Driver} {cmds : List (List UInt8)} {part : List UInt8} (counts : Counts)

private theorem read_call (h : Stores d cmds part) (k : ℕ) (user : UserMemory) {fpos : Int64}
    {q : ℕ} (hq : fpos.toInt = q) :
    ∃ r, aesdRead d (counts.call k) user fpos = .ok r ∧
      r.ret.toInt = (slice cmds q (counts.bytes k)).length ∧
      r.user = user.write 0 (slice cmds q (counts.bytes k)) ∧
      r.fpos.toInt = (q + ((slice cmds q (counts.bytes k)).length
        + (counts.call k).overshoot (cmds.map List.length) q) : ℕ) := by
  obtain ⟨r, hr, hout⟩ := aesdRead_spec h (counts.call k) user hq
  cases hout with
  | interrupted hint => cases hint
  | faulted _ hfault =>
    have hcopy : ∀ i, (counts.call k).copy i = none := fun _ ↦ rfl
    rw [faultAt_of_none hcopy] at hfault
    cases hfault
  | finished _ _ hret hpos huser =>
    rw [ReadCall.pieces, sum_spans] at hret hpos
    rw [length_slice]
    exact ⟨r, hr, hret, huser, hpos⟩

private theorem freadPass_end (h : Stores d cmds part) {s : FreadState} {q : ℕ}
    (hq : s.fpos.toInt = q) (hend : (cmds.map List.length).sum ≤ q) :
    freadPass d counts s = .ok (.inr s.bytes) := by
  obtain ⟨r, hr, hret, -⟩ := read_call counts h s.calls s.user hq
  rw [slice_of_sum_le _ hend] at hret
  rw [freadPass, hr]
  have hle : r.ret ≤ 0 := Int64.le_iff_toInt_le.mpr (le_of_eq hret)
  simp only [if_pos hle]

private theorem freadPass_next (h : Stores d cmds part) {s : FreadState} {q : ℕ}
    (hq : s.fpos.toInt = q) (hlt : q < (cmds.map List.length).sum) :
    ∃ s', freadPass d counts s = .ok (.inl s') ∧ s'.calls = s.calls + 1 ∧
      s'.bytes = s.bytes ++ slice cmds q (counts.bytes s.calls) ∧
      s'.fpos.toInt = (q + ((slice cmds q (counts.bytes s.calls)).length
        + (counts.call s.calls).overshoot (cmds.map List.length) q) : ℕ) := by
  obtain ⟨r, hr, hret, huser, hpos⟩ := read_call counts h s.calls s.user hq
  have hcount : 0 < counts.bytes s.calls := counts.pos s.calls
  have hsome : ¬r.ret ≤ 0 := by
    rw [Int64.le_iff_toInt_le, hret, length_slice, Int64.toInt_zero]
    omega
  refine ⟨⟨r.fpos, r.user, s.calls + 1, s.bytes ++ r.user.read 0 r.ret.toInt.toNat⟩, ?_, rfl, ?_,
    hpos⟩
  · rw [freadPass, hr]
    simp only [if_neg hsome]
  · rw [hret, huser, Int.toNat_natCast, UserMemory.read_write]

/-- What reading on from position `q` in state `s` makes of it: the bytes read so far and a rest. -/
private def FreadEnds (counts : Counts) (cmds : List (List UInt8)) (q : ℕ) (s : FreadState)
    (bytes : List UInt8) : Prop :=
  ∃ rest, bytes = s.bytes ++ rest ∧ rest.length ≤ (cmds.map List.length).sum - q ∧
    (rest = cmds.flatten.drop q ↔
      ReadsWhole (cmds.map List.length) (fun k ↦ counts.bytes (s.calls + k)) q)

/-- One call before the end of the contents and what follows it. A call that moves the position too
far leaves too few bytes for the rest to be whole. -/
private theorem FreadEnds.next {s s' : FreadState} {q q' : ℕ} {bytes : List UInt8}
    (hlt : q < (cmds.map List.length).sum) (hcalls : s'.calls = s.calls + 1)
    (hbytes : s'.bytes = s.bytes ++ slice cmds q (counts.bytes s.calls))
    (hq' : q' = q + ((slice cmds q (counts.bytes s.calls)).length
      + (counts.call s.calls).overshoot (cmds.map List.length) q))
    (h : FreadEnds counts cmds q' s' bytes) : FreadEnds counts cmds q s bytes := by
  obtain ⟨rest, rfl, hle, hiff⟩ := h
  have hcount : 0 < counts.bytes s.calls := counts.pos s.calls
  have hlen := length_slice cmds q (counts.bytes s.calls)
  refine ⟨slice cmds q (counts.bytes s.calls) ++ rest, ?_, ?_, ?_⟩
  · rw [hbytes, List.append_assoc]
  · rw [List.length_append]
    omega
  have hshift : (fun k ↦ counts.bytes (s'.calls + k)) = fun k ↦ counts.bytes (s.calls + (k + 1)) :=
    funext fun k ↦ by rw [hcalls, Nat.add_right_comm, Nat.add_assoc]
  rw [readsWhole_iff, slice_append_eq_drop_iff, Nat.add_zero]
  rw [hshift] at hiff
  by_cases hreach : (cmds.map List.length).sum ≤ q + counts.bytes s.calls
  · -- the call returned everything that was left
    rw [List.drop_of_length_le (by rwa [length_flatten_eq_sum])]
    refine iff_of_true (List.length_eq_zero_iff.mp ?_) ⟨fun _ ↦ .inr hreach, ?_⟩
    · omega
    · exact readsWhole_of_le hreach
  have hone : (counts.call s.calls).overshoot (cmds.map List.length) q = 0 ↔
      (spans (cmds.map List.length) q (counts.bytes s.calls)).length ≤ 1 := by
    rw [ReadCall.overshoot_eq_zero_iff]
    exact or_iff_left fun hpast ↦ hreach hpast.le
  by_cases hover : (counts.call s.calls).overshoot (cmds.map List.length) q = 0
  · rw [hq', hover, hlen, min_eq_left (by omega), Nat.add_zero] at hiff
    rw [hiff]
    exact (and_iff_right fun _ ↦ .inl (hone.mp hover)).symm
  · refine iff_of_false (fun hrest ↦ ?_) fun hwhole ↦ ?_
    · rw [hrest, List.length_drop, length_flatten_eq_sum] at hle
      omega
    · exact (hwhole.1 hlt).elim (mt hone.mpr hover) hreach

private theorem run_freadPass (h : Stores d cmds part) {s : FreadState} {q fuel : ℕ}
    (hq : s.fpos.toInt = q) (hfuel : (cmds.map List.length).sum - q < fuel) :
    ∃ bytes, Loop.run .outOfFuel (freadPass d counts) fuel s = .ok bytes ∧
      FreadEnds counts cmds q s bytes := by
  refine Loop.run_total (I := fun (q : ℕ) (s : FreadState) ↦ s.fpos.toInt = q)
    (Q := fun q s ↦ FreadEnds counts cmds q s) (fun q _ ↦ (cmds.map List.length).sum - q)
    (fun q s hq ↦ ?_) hq hfuel
  by_cases hend : (cmds.map List.length).sum ≤ q
  · refine .inr ⟨s.bytes, freadPass_end counts h hq hend, [], (List.append_nil _).symm,
      Nat.zero_le _, iff_of_true ?_ (readsWhole_of_le hend)⟩
    rw [List.drop_of_length_le (by rwa [length_flatten_eq_sum])]
  · have hlt := Nat.lt_of_not_le hend
    obtain ⟨s', hpass, hcalls, hbytes, hpos⟩ := freadPass_next counts h hq hlt
    have hcount : 0 < counts.bytes s.calls := counts.pos s.calls
    have hlen := length_slice cmds q (counts.bytes s.calls)
    refine .inl ⟨_, s', hpass, hpos, ?_, fun _ ↦ .next counts hlt hcalls hbytes rfl⟩
    omega

/-- **Reading to the end** from position `q` returns the rest of the contents exactly when no call
stops inside a second entry with bytes left to read, and never more bytes than that. -/
theorem freadAll_spec (h : Stores d cmds part) {fpos : Int64} {q : ℕ}
    (hq : fpos.toInt = q) :
    ∃ bytes, freadAll d counts fpos = .ok bytes ∧
      bytes.length ≤ (cmds.map List.length).sum - q ∧
      (bytes = cmds.flatten.drop q ↔ ReadsWhole (cmds.map List.length) counts.bytes q) := by
  have hfuel : (cmds.map List.length).sum - q < d.ring.total + 1 := by
    rw [h.total_eq]
    omega
  obtain ⟨bytes, hrun, rest, rfl, hle, hiff⟩ := run_freadPass counts h
    (s := ⟨fpos, fun _ ↦ 0, 0, []⟩) hq hfuel
  simp only [Nat.zero_add] at hiff
  exact ⟨_, hrun, hle, hiff⟩

/-- Reading ends, wherever it starts. A negative position is past every entry. -/
theorem freadAll_total (h : Stores d cmds part) (fpos : Int64) :
    ∃ bytes, freadAll d counts fpos = .ok bytes := by
  by_cases hneg : 0 ≤ fpos.toInt
  · obtain ⟨bytes, hread, -⟩ := freadAll_spec counts h (Int.toNat_of_nonneg hneg).symm
    exact ⟨bytes, hread⟩
  · have hbig := le_toNat_toUInt64_of_neg (Int.lt_of_not_ge hneg)
    have htotal := h.total_eq ▸ h.total_lt
    have hend : (cmds.map List.length).sum ≤ fpos.toUInt64.toNat := by omega
    have hread : ∀ user, aesdRead d (counts.call 0) user fpos = .ok ⟨0, fpos, user⟩ := fun user ↦
      Loop.run_leave (h.readPass_end hend) _
    have hpass : freadPass d counts ⟨fpos, fun _ ↦ 0, 0, []⟩ = .ok (.inr []) := by
      rw [freadPass, hread]
      rfl
    exact ⟨[], Loop.run_leave hpass _⟩

end Fread

end Aesd
