import Aesd.Server.Connector
import Aesd.Server.Framing

/-!
# Commands

One connection from its first `recv` to the end of its thread, with what it does to the file as a
list of operations. `connectorServe_eq_performOps` says that these operations, done on the driver,
are what `connectorServe` does.

## What counts as a command

The source takes every message that contains the seek string before its first NUL for a seek
command, and computes with `NULL` when no comma follows. A message that is a seek command is
understood whatever the chunks it comes in (`connector_seek`), and one that is not is written to the
file exactly when it does not contain the seek string (`connector_data_iff`).

## When `realloc` fails

The loop frees the buffer and stops, but the pointer and the length are still there, and the part of
`connector` behind the loop looks at them. After a failure in the first pass the pointer is `NULL`
and nothing happens; after one in a later pass `strstr` reads a block that was freed.
`connector_contained_iff` says for which failures the message buffer is freed once and not used
again.
-/

namespace Aesd

open Received

/-! ## A connection -/

/-- What a connection does to the file. `fwrite` stands for `fwrite` and `fflush`, and `sendFile`
for the loop that reads the file to its end and sends it. -/
inductive FileOp
  | ioctl (cmd : UInt32) (seekto : AesdSeekto)
  | fwrite (bytes : List UInt8)
  | rewind
  | sendFile
  deriving DecidableEq

/-- `connector` after its receive loop: the operations on the file, and the memory in the end. -/
def processMessage (c : Connector) : Except Fault (List FileOp × Heap UInt8) :=
  match c.messageBuf with
  | none => .ok ([], c.heap)
  | some messageBuf =>
    if c.totalLen = 0 then .ok ([], c.heap)
    else do
      let message ← CString.ofBlock c.heap messageBuf
      let ops ← match ← seekRequest message with
        | some seekto => pure [.ioctl aesdcharIocseekto seekto]
        | none => do
          let bytes ← c.heap.load messageBuf 0 c.totalLen.toNat
          pure [.fwrite bytes, .rewind]
      let heap ← c.heap.free messageBuf
      return (ops ++ [.sendFile], heap)

/-- `connector`, for what `recv` returns before the stream ends or fails. -/
def connector (rs : List Received) : Except Fault (List FileOp × Heap UInt8) := do
  let (c, _) ← receiveLoop .start rs
  processMessage c

/-! ## The operations on the driver -/

open ServerError (lift lift_ok)

def performOps (K : FixedSizeLlseek) (io : Stdio) :
    Driver → Int64 → List FileOp → Except ServerError (Driver × Option (List UInt8))
  | d, _, [] => .ok (d, none)
  | d, fpos, .ioctl cmd seekto :: ops => do
    let (_, fpos) ← lift (aesdIoctl d ⟨false, cmd, seekto, none⟩ fpos)
    performOps K io d fpos ops
  | d, fpos, .fwrite bytes :: ops =>
    if Piece.join io.pieces = bytes then do
      let (d, fpos) ← lift (fwritePieces d fpos io.pieces)
      performOps K io d fpos ops
    else .error .disabled
  | d, fpos, .rewind :: ops => performOps K io d (rewind K d fpos) ops
  | d, fpos, .sendFile :: _ => do
    let reply ← lift (freadAll d io.counts fpos)
    return (d, some reply)

theorem live_of_ofBlock {h : Heap UInt8} {p : ℕ} {s : List UInt8}
    (hstring : CString.ofBlock h p = .ok s) : h.Live p := by
  rw [CString.ofBlock] at hstring
  split at hstring
  · cases hstring
  · rename_i cells hcells
    rw [Heap.Live, hcells]
    rfl

/-- **What a connection does to the file is what it does to the driver.** -/
theorem connectorServe_eq_performOps (K : FixedSizeLlseek) (d : Driver) (c : Connector)
    (io : Stdio) :
    connectorServe K d c io = (do
      let (ops, _) ← lift (processMessage c)
      performOps K io d 0 ops) := by
  rw [connectorServe, processMessage]
  cases c.messageBuf with
  | none => rfl
  | some p =>
  by_cases hzero : c.totalLen = 0
  · simp only [if_pos hzero]
    rfl
  simp only [if_neg hzero]
  cases hstring : CString.ofBlock c.heap p with
  | error e => rfl
  | ok message =>
  obtain ⟨heap, hfree, -⟩ := Heap.free_of_live (live_of_ofBlock hstring)
  rw [lift_ok, ok_bind, ok_bind]
  cases seekRequest message with
  | error e => rfl
  | ok request =>
    rw [lift_ok, ok_bind, ok_bind]
    cases request with
    | some seekto =>
      simp only [hfree, pure_eq_ok, ok_bind, lift_ok, List.singleton_append, performOps, serveSeek]
      cases aesdIoctl d ⟨false, aesdcharIocseekto, seekto, none⟩ 0 with
      | error e => rfl
      | ok r => rfl
    | none =>
      cases c.heap.load p 0 c.totalLen.toNat with
      | error e => rfl
      | ok bytes =>
        simp only [hfree, pure_eq_ok, ok_bind, lift_ok, List.cons_append, List.nil_append,
          performOps, serveData]
        by_cases hio : Piece.join io.pieces = bytes
        · simp only [if_pos hio]
          cases fwritePieces d 0 io.pieces with
          | error e => rfl
          | ok r => rfl
        · simp only [if_neg hio, error_bind]

/-! ## What a message is taken for -/

/-- The message of a connection whose calls of `realloc` succeed. -/
def Received.message (rs : List Received) : List UInt8 := firstRecord newline (join rs)

/-- The string that a message starts with. -/
def cString (msg : List UInt8) : List UInt8 := msg.takeWhile fun b ↦ b != 0

/-- The operations on the file for a message, and the seek command found in it. -/
def messageOps (msg : List UInt8) : Option AesdSeekto → List FileOp
  | some seekto => [.ioctl aesdcharIocseekto seekto, .sendFile]
  | none => [.fwrite msg, .rewind, .sendFile]

section Served

variable {c : Connector} {msg : List UInt8} {rs : List Received}

private theorem processMessage_of_framed (h : Framed c msg) :
    ∃ p heap, c.messageBuf = some p ∧ c.heap.free p = .ok heap ∧
      processMessage c = (seekRequest (cString msg)).map fun r ↦ (messageOps msg r, heap) := by
  obtain ⟨p, hp, hholds⟩ := h.held
  obtain ⟨heap, hfree, -⟩ := Heap.free_of_live hholds.live
  have hload : c.heap.load p 0 c.totalLen.toNat = .ok msg := by
    rw [h.totalLen, Heap.load_of_holds hholds (by simp), List.drop_zero, List.take_left]
  have hzero : c.totalLen ≠ 0 := by
    intro hzero
    have hlen := h.totalLen
    rw [hzero] at hlen
    exact h.ne_nil (List.length_eq_zero_iff.mp hlen.symm)
  refine ⟨p, heap, hp, hfree, ?_⟩
  simp only [processMessage, hp, if_neg hzero, CString.ofBlock_of_holds hholds, ok_bind, cString]
  cases seekRequest (msg.takeWhile fun b ↦ b != 0) with
  | error e => rfl
  | ok request =>
    cases request with
    | some seekto =>
      simp only [ok_bind, pure_eq_ok, hfree]
      rfl
    | none =>
      simp only [ok_bind, hload, pure_eq_ok, hfree]
      rfl

/-- **A connection whose calls of `realloc` succeed.** The message alone decides what is done to the
file, and no block is left. -/
theorem connector_of_served (hne : join rs ≠ []) (hserved : refusedAt 0 rs = none) :
    ∃ heap, (∀ b, ¬heap.Live b) ∧
      connector rs = (seekRequest (cString (message rs))).map fun r ↦
        (messageOps (message rs) r, heap) := by
  obtain ⟨c, hloop, hframed, -⟩ := framed_of_served hne hserved
  obtain ⟨p, heap, hp, hfree, hprocess⟩ := processMessage_of_framed hframed
  have honly := (onlyBuffer_start.receiveLoop hloop).1 rfl
  refine ⟨heap, honly.not_live_of_freePtr (by rw [hp, Heap.freePtr_some, hfree]), ?_⟩
  rw [connector, hloop, ok_bind]
  exact hprocess

end Served

/-! ## Seek commands -/

section Seek

variable {msg : List UInt8} {x y : ℕ} {rs : List Received}

theorem SeekCommand.shape (h : SeekCommand msg x y) : ioctlString.IsPrefix msg ∧ comma ∈ msg := by
  obtain ⟨xs, ys, ending, rfl, -⟩ := h
  constructor
  · rw [List.append_assoc]
    exact List.prefix_append ..
  · exact List.mem_append_right _ List.mem_cons_self

theorem SeekCommand.cString_eq (h : SeekCommand msg x y) : cString msg = msg := h.takeWhile_eq

theorem SeekCommand.firstRecord_eq (h : SeekCommand msg x y) : firstRecord newline msg = msg := by
  obtain ⟨xs, ys, ending, rfl, hx, hy, hending⟩ := h
  have hno : newline ∉ ioctlString ++ xs ++ comma :: ys := by
    simp only [List.mem_append, List.mem_cons, not_or]
    exact ⟨⟨by decide, hx.not_mem (by decide)⟩, by decide, hy.not_mem (by decide)⟩
  rw [← List.cons_append, ← List.append_assoc, firstRecord_append_of_not_mem hno]
  rcases hending with rfl | rfl <;> rfl

/-- **A seek command is understood.** In whatever chunks it comes, and however its numbers are
spelled, the two numbers go to one `ioctl` and nothing is written to the file. The command is one
that is received: no `realloc` is refused. -/
theorem connector_seek (hseek : SeekCommand msg x y) (hrs : join rs = msg)
    (hserved : refusedAt 0 rs = none) :
    (∃ heap, connector rs
        = .ok ([.ioctl aesdcharIocseekto ⟨.ofNat x, .ofNat y⟩, .sendFile], heap)) ∧
      (UInt32.ofNat x).toNat = x ∧ (UInt32.ofNat y).toNat = y := by
  subst hrs
  obtain ⟨heap, -, hconn⟩ := connector_of_served hseek.ne_nil hserved
  rw [message, hseek.firstRecord_eq, hseek.cString_eq, hseek.seekRequest_eq] at hconn
  exact ⟨⟨heap, hconn⟩, hseek.toNat_eq⟩

/-- The command `AESDCHAR_IOCSEEKTO:007,4294967295` with its newline, in three chunks. -/
theorem connector_seek_of_three_chunks : (∃ heap, connector
      [⟨⟨ioctlString.take 12, by decide, by decide⟩, true⟩,
        ⟨⟨ioctlString.drop 12 ++ [48, 48, 55, 44, 52, 50], by decide, by decide⟩, true⟩,
        ⟨⟨[57, 52, 57, 54, 55, 50, 57, 53, 10], by decide, by decide⟩, true⟩]
      = .ok ([.ioctl aesdcharIocseekto ⟨.ofNat 7, .ofNat 4294967295⟩, .sendFile], heap)) ∧
    (UInt32.ofNat 7).toNat = 7 ∧ (UInt32.ofNat 4294967295).toNat = 4294967295 :=
  connector_seek ⟨[48, 48, 55], [52, 50, 57, 52, 57, 54, 55, 50, 57, 53], [10], rfl,
    ⟨by decide, List.all_eq_true.mp rfl, rfl, by decide⟩,
    ⟨by decide, List.all_eq_true.mp rfl, rfl, by decide⟩, .inr rfl⟩ rfl (by decide)

end Seek

/-! ## Everything else -/

section Data

variable {msg : List UInt8} {rs : List Received}

private theorem seekRequest_eq_none_iff :
    seekRequest (cString msg) = .ok none ↔ ¬ioctlString.IsInfix (cString msg) := by
  rw [← CString.strstr_eq_none_iff, seekRequest]
  cases CString.strstr ioctlString (cString msg) with
  | none => exact iff_of_true rfl rfl
  | some i =>
    refine iff_of_false (fun hnone ↦ ?_) (by simp)
    dsimp only at hnone
    split at hnone <;> cases hnone

/-- **When a message that is not a seek command is data.** Such a message goes to the file byte for
byte, and to no `ioctl`, exactly when it does not contain the seek string before its first NUL. -/
theorem connector_data_iff (hne : join rs ≠ []) (hserved : refusedAt 0 rs = none) :
    ((¬∃ x y, SeekCommand (message rs) x y) →
        ∃ heap, connector rs = .ok ([.fwrite (message rs), .rewind, .sendFile], heap)) ↔
      (∃ x y, SeekCommand (message rs) x y) ∨ ¬ioctlString.IsInfix (cString (message rs)) := by
  obtain ⟨heap, -, hconn⟩ := connector_of_served hne hserved
  rw [← seekRequest_eq_none_iff, or_iff_not_imp_left, hconn]
  refine imp_congr_right fun _ ↦ ?_
  cases seekRequest (cString (message rs)) with
  | error e =>
    apply iff_of_false
    · rintro ⟨heap', h⟩
      cases h
    · intro h
      cases h
  | ok request =>
    cases request with
    | none => exact iff_of_true ⟨heap, rfl⟩ rfl
    | some seekto =>
      apply iff_of_false
      · rintro ⟨heap', h⟩
        cases h
      · intro h
        cases h

/-- A message that spells the seek string without its colon. -/
theorem connector_data_of_misspelled : ∃ heap, connector
    [⟨⟨ioctlString.dropLast ++ [49, 44, 50, 10], by decide, by decide⟩, true⟩]
      = .ok ([.fwrite (ioctlString.dropLast ++ [49, 44, 50, 10]), .rewind, .sendFile], heap) :=
  (connector_data_iff (by decide) (by decide)).mpr (.inr (by decide))
    fun ⟨_, _, h⟩ ↦ absurd h.shape.1 (by decide)

/-- The seek string alone makes the thread compute with `NULL`, and in the middle of a text it makes
the text disappear. -/
theorem connector_data_lost :
    (¬(∃ x y, SeekCommand (ioctlString ++ [10]) x y) ∧
      connector [⟨⟨ioctlString ++ [10], by decide, by decide⟩, true⟩]
        = .error .nullDereference) ∧
    (¬(∃ x y, SeekCommand (97 :: ioctlString ++ [49, 44, 50, 10]) x y) ∧
      ∃ heap, connector [⟨⟨97 :: ioctlString ++ [49, 44, 50, 10], by decide, by decide⟩, true⟩]
        = .ok ([.ioctl aesdcharIocseekto ⟨1, 2⟩, .sendFile], heap)) :=
  ⟨⟨fun ⟨_, _, h⟩ ↦ absurd h.shape.2 (by decide), rfl⟩,
    ⟨fun ⟨_, _, h⟩ ↦ absurd h.shape.1 (by decide), _, rfl⟩⟩

end Data

/-! ## Failures of `realloc` -/

section Failures

variable {msg : List UInt8} {rs : List Received}

/-- A connection keeps its memory in order: it ends, no block is left, and a message that was cut
short by a `realloc` that failed is not used. -/
def Contained (rs : List Received) : Prop :=
  ∃ c served ops heap, receiveLoop .start rs = .ok (c, served) ∧
    connector rs = .ok (ops, heap) ∧ (∀ b, ¬heap.Live b) ∧ (served = false → ops = [])

/-- The parser meets `NULL` exactly when no comma follows the seek string. -/
private theorem seekRequest_isOk_iff :
    (∃ r, seekRequest msg = .ok r) ↔
      ∀ i, CString.strstr ioctlString msg = some i → comma ∈ msg.drop i := by
  rw [seekRequest]
  cases CString.strstr ioctlString msg with
  | none => exact iff_of_true ⟨none, rfl⟩ fun i hi ↦ by cases hi
  | some i =>
    simp only [Option.some.injEq, forall_eq']
    rw [← CString.strchr_ne_none_iff]
    cases CString.strchr (msg.drop i) comma with
    | none =>
      apply iff_of_false
      · rintro ⟨r, h⟩
        cases h
      · intro h
        exact h rfl
    | some j => exact iff_of_true ⟨_, rfl⟩ (by simp)

/-- After a failure in a later pass the processing starts with a block that was freed. -/
private theorem processMessage_of_refused {c : Connector} (h : Assembled c msg) (hne : msg ≠ [])
    {heap : Heap UInt8} (hfree : c.heap.freePtr c.messageBuf = .ok heap) (recvBuf : List UInt8) :
    processMessage { c with heap, recvBuf, receiving := false } = .error .useAfterFree := by
  obtain ⟨-, p, hp, hholds⟩ := h.buf.resolve_left fun hnil ↦ hne hnil.1
  rw [hp, Heap.freePtr_some] at hfree
  have hdead : heap.cells p = none := by
    rw [← Option.not_isSome_iff_eq_none]
    exact fun hlive ↦ ((Heap.live_of_free hfree).mp hlive).2 rfl
  have hzero : c.totalLen ≠ 0 := by
    intro hzero
    have hlen := h.totalLen
    rw [hzero] at hlen
    exact hne (List.length_eq_zero_iff.mp hlen.symm)
  have hstring : CString.ofBlock heap p = .error .useAfterFree := by
    rw [CString.ofBlock, hdead]
  simp only [processMessage, hp, if_neg hzero, hstring, error_bind]

private theorem contained_of_refused_first (h : refusedAt 0 rs = some 0) : Contained rs := by
  obtain ⟨c, msg, heap, recvBuf, hc, hnil, -, hloop⟩ := receiveLoop_of_refused assembled_start h
  obtain rfl := hnil.mpr ⟨rfl, rfl⟩
  obtain ⟨-, hnone⟩ := hc.buf.resolve_right fun hsome ↦ hsome.1 rfl
  refine ⟨_, false, [], heap, hloop, ?_, (onlyBuffer_start.receiveLoop hloop).2 rfl, fun _ ↦ rfl⟩
  rw [connector, hloop, ok_bind]
  simp only [processMessage, hnone]

private theorem contained_iff_of_served (h : refusedAt 0 rs = none) :
    Contained rs ↔ ∃ r, seekRequest (cString (message rs)) = .ok r := by
  by_cases hne : join rs = []
  · have hnil : rs = [] := by
      by_contra hrs
      obtain ⟨r, rs', rfl⟩ := List.exists_cons_of_ne_nil hrs
      rw [join_cons, List.append_eq_nil_iff] at hne
      exact r.chunk.ne_nil hne.1
    subst hnil
    exact iff_of_true ⟨_, true, [], Heap.empty, rfl, rfl, (fun b hb ↦ by cases hb), nofun⟩
      ⟨none, rfl⟩
  · obtain ⟨c, hloop, -⟩ := framed_of_served hne h
    obtain ⟨heap, hdead, hconn⟩ := connector_of_served hne h
    constructor
    · rintro ⟨-, -, ops, heap', -, hok, -⟩
      rw [hconn] at hok
      cases hrequest : seekRequest (cString (message rs)) with
      | error e =>
        rw [hrequest] at hok
        cases hok
      | ok r => exact ⟨r, rfl⟩
    · rintro ⟨r, hr⟩
      rw [hr] at hconn
      exact ⟨c, true, _, heap, hloop, hconn, hdead, nofun⟩

/-- **When a failed `realloc` is contained.** The connection keeps its memory in order exactly when
the first `realloc` fails, or none does and a comma follows the seek string wherever the
message contains it. -/
theorem connector_contained_iff (rs : List Received) :
    Contained rs ↔ refusedAt 0 rs = some 0 ∨
      (refusedAt 0 rs = none ∧ ∀ i, CString.strstr ioctlString (cString (message rs)) = some i →
        comma ∈ (cString (message rs)).drop i) := by
  cases hrefused : refusedAt 0 rs with
  | none =>
    rw [contained_iff_of_served hrefused, seekRequest_isOk_iff, or_iff_right (by simp),
      and_iff_right rfl]
  | some k =>
    rw [or_iff_left (by simp)]
    by_cases hk : k = 0
    · subst hk
      exact iff_of_true (contained_of_refused_first hrefused) rfl
    obtain ⟨c, msg, heap, recvBuf, h, hnil, hfree, hloop⟩ :=
      receiveLoop_of_refused assembled_start hrefused
    refine iff_of_false ?_ (by simpa using hk)
    rintro ⟨-, -, ops, heap', -, hok, -⟩
    have hmsg : msg ≠ [] := fun hmsg ↦ hk (hnil.mp hmsg).2
    rw [connector, hloop, ok_bind] at hok
    dsimp only at hok
    rw [processMessage_of_refused h hmsg hfree] at hok
    cases hok

/-- A `realloc` that fails after a first chunk makes the thread search the freed buffer. -/
theorem connector_use_after_free :
    connector [⟨⟨[97], by decide, by decide⟩, true⟩, ⟨⟨[98], by decide, by decide⟩, false⟩]
      = .error .useAfterFree ∧
    ¬Contained [⟨⟨[97], by decide, by decide⟩, true⟩, ⟨⟨[98], by decide, by decide⟩, false⟩] := by
  have hfault : connector [⟨⟨[97], by decide, by decide⟩, true⟩,
      ⟨⟨[98], by decide, by decide⟩, false⟩] = .error .useAfterFree := rfl
  refine ⟨hfault, ?_⟩
  rintro ⟨c, served, ops, heap, -, hok, -⟩
  rw [hfault] at hok
  cases hok

end Failures

end Aesd
