import Aesd.Server.Receive
import Aesd.Server.Stdio

/-!
# Answering a message

The part of `connector` behind its receive loop, which runs under `file_mutex`. A message that
contains the seek string becomes an `ioctl`; every other message is written to the device, and the
file is rewound. Either way the rest of the file from its position on is the reply. The
file was opened for this connection alone, so its position is `0` before.

`serve_data` and `serve_seek` say what the reply is, and when it is the one that was meant: the
reads have to be kind to `aesd_read` (`ReadsWhole`), and after a message the rewinding has to
succeed, which takes a running size that is not negative.

## Errors

`ServerError` is a fault of the thread, or a step that cannot be taken, such as an `fwrite` whose
pieces do not make up the message. Nothing that the driver returns is an error here: `connector`
does not look at the results of `fwrite`, `fflush` and `rewind`, and only prints a message when the
`ioctl` fails.
-/

namespace Aesd

open AesdCircularBuffer Segments

/-! ## Recognising a seek command -/

/-- `ioctlString`, that is `AESDCHAR_IOCSEEKTO:`. -/
def ioctlString : List UInt8 :=
  [65, 69, 83, 68, 67, 72, 65, 82, 95, 73, 79, 67, 83, 69, 69, 75, 84, 79, 58]

def comma : UInt8 := 44

/-- The seek command in a string, if there is one. Without a comma the source computes with
`NULL`. -/
def seekRequest (message : List UInt8) : Except Fault (Option AesdSeekto) :=
  match CString.strstr ioctlString message with
  | none => .ok none
  | some ioctlCase =>
    let x := CString.atoi (message.drop (ioctlCase + ioctlString.length))
    match CString.strchr (message.drop ioctlCase) comma with
    | none => .error .nullDereference
    | some separator =>
      let y := CString.atoi (message.drop (ioctlCase + (separator + 1)))
      .ok (some ⟨x.toUInt32, y.toUInt32⟩)

/-- A data message: it ends in a newline and does not contain the seek string. -/
def DataMessage (msg : List UInt8) : Prop :=
  msg.getLast? = some newline ∧ ¬ioctlString.IsInfix msg

instance (msg : List UInt8) : Decidable (DataMessage msg) := inferInstanceAs (Decidable (_ ∧ _))

/-- The decimal representation of a number that fits an `unsigned int`. -/
structure Decimal (ds : List UInt8) (n : ℕ) : Prop where
  ne_nil : ds ≠ []
  digits : ∀ b ∈ ds, CString.isdigit b = true
  value : CString.digitsValue ds = n
  lt : n < 2 ^ 32

/-- A well-formed seek command for byte `y` of command `x`, with or without a newline. -/
def SeekCommand (msg : List UInt8) (x y : ℕ) : Prop :=
  ∃ xs ys ending, msg = ioctlString ++ xs ++ comma :: (ys ++ ending) ∧ Decimal xs x ∧
    Decimal ys y ∧ (ending = [] ∨ ending = [newline])

section Request

variable {msg : List UInt8} {x y : ℕ}

theorem DataMessage.ne_nil (h : DataMessage msg) : msg ≠ [] := by
  rintro rfl
  cases h.1

theorem SeekCommand.not_data (h : SeekCommand msg x y) : ¬DataMessage msg := by
  obtain ⟨xs, ys, ending, rfl, -⟩ := h
  rintro ⟨-, hno⟩
  rw [List.append_assoc] at hno
  exact hno (List.prefix_append ..).isInfix

theorem Decimal.not_mem {ds : List UInt8} {n : ℕ} (h : Decimal ds n) {b : UInt8}
    (hb : CString.isdigit b = false) : b ∉ ds := by
  intro hmem
  rw [h.digits b hmem] at hb
  cases hb

private theorem Decimal.atoi {ds rest : List UInt8} {n : ℕ} (h : Decimal ds n)
    (hrest : ∀ b ∈ rest.head?, CString.isdigit b = false) :
    (CString.atoi (ds ++ rest)).toUInt32 = UInt32.ofNat n := by
  rw [CString.toUInt32_atoi_digits h.ne_nil h.digits hrest (by rw [h.value]; exact h.lt), h.value]

theorem DataMessage.seekRequest_eq (h : DataMessage msg) :
    seekRequest (msg.takeWhile fun b ↦ b != 0) = .ok none := by
  rw [seekRequest, CString.strstr_eq_none fun hsub ↦
    h.2 (hsub.trans (List.takeWhile_prefix _).isInfix)]

theorem SeekCommand.seekRequest_eq (h : SeekCommand msg x y) :
    seekRequest msg = .ok (some ⟨UInt32.ofNat x, UInt32.ofNat y⟩) := by
  obtain ⟨xs, ys, ending, rfl, hx, hy, hending⟩ := h
  have hcase : CString.strstr ioctlString (ioctlString ++ xs ++ comma :: (ys ++ ending))
      = some 0 := by
    rw [List.append_assoc]
    exact CString.strstr_append _ _ (by decide)
  have hcomma : comma ∉ ioctlString ++ xs := by
    rw [List.mem_append, not_or]
    exact ⟨by decide, hx.not_mem (by decide)⟩
  have hfirst : (CString.atoi (xs ++ comma :: (ys ++ ending))).toUInt32 = UInt32.ofNat x :=
    hx.atoi (by simpa using show CString.isdigit comma = false by decide)
  have hsecond : (CString.atoi (ys ++ ending)).toUInt32 = UInt32.ofNat y := by
    apply hy.atoi
    intro b hb
    rcases hending with rfl | rfl
    · cases hb
    · obtain rfl : newline = b := by simpa using hb
      decide
  rw [seekRequest, hcase]
  simp only [List.drop_zero, Nat.zero_add, CString.strchr_append hcomma]
  rw [List.append_assoc, List.drop_left, hfirst, ← List.append_assoc, ← List.drop_drop,
    List.drop_left, List.drop_one, List.tail_cons, hsecond]

theorem SeekCommand.ne_nil (h : SeekCommand msg x y) : msg ≠ [] := by
  obtain ⟨xs, ys, ending, rfl, -⟩ := h
  simp

/-- The numbers of a seek command survive in a `struct aesd_seekto`. -/
theorem SeekCommand.toNat_eq (h : SeekCommand msg x y) :
    (UInt32.ofNat x).toNat = x ∧ (UInt32.ofNat y).toNat = y := by
  obtain ⟨xs, ys, ending, -, hx, hy, -⟩ := h
  exact ⟨UInt32.toNat_ofNat_of_lt' hx.lt, UInt32.toNat_ofNat_of_lt' hy.lt⟩

theorem SeekCommand.takeWhile_eq (h : SeekCommand msg x y) :
    msg.takeWhile (fun b ↦ b != 0) = msg := by
  obtain ⟨xs, ys, ending, rfl, hx, hy, hending⟩ := h
  have hzero : (0 : UInt8) ∉ ioctlString ++ xs ++ comma :: (ys ++ ending) := by
    simp only [List.mem_append, List.mem_cons, not_or]
    refine ⟨⟨by decide, hx.not_mem (by decide)⟩, by decide, hy.not_mem (by decide), ?_⟩
    rcases hending with rfl | rfl <;> decide
  rw [List.takeWhile_eq_self_iff]
  intro b hb
  rw [bne_iff_ne]
  rintro rfl
  exact hzero hb

end Request

/-! ## Serving -/

/-- How the C library cuts a message into calls of `aesd_write`, and what it asks of `aesd_read`
afterwards. -/
structure Stdio where
  pieces : List Piece
  counts : Counts

/-- Why a step of the server is not taken: it leaves the semantics of C, or it is not one that the
threads can take. -/
inductive ServerError
  | fault (f : Fault)
  | disabled
  deriving DecidableEq

/-- A computation of the C program, as part of a step of the server. -/
def ServerError.lift {α : Type} (r : Except Fault α) : Except ServerError α := r.mapError .fault

@[simp] theorem ServerError.lift_ok {α : Type} (a : α) : lift (.ok a : Except Fault α) = .ok a :=
  rfl

@[simp] theorem ServerError.lift_error {α : Type} (f : Fault) :
    lift (.error f : Except Fault α) = .error (.fault f) := rfl

theorem ServerError.lift_eq_ok {α : Type} {r : Except Fault α} {a : α} (h : lift r = .ok a) :
    r = .ok a := by
  cases r with
  | error e => cases h
  | ok b =>
    cases h
    rfl

open ServerError (lift lift_ok)

/-- The branch for a seek command: the file position after the `ioctl`, whose failure is only
reported. -/
def serveSeek (d : Driver) (seekto : AesdSeekto) : Except Fault Int64 :=
  match aesdIoctl d ⟨false, aesdcharIocseekto, seekto, none⟩ 0 with
  | .error e => .error e
  | .ok (_, fpos) => .ok fpos

/-- The branch for every other message. -/
def serveData (K : FixedSizeLlseek) (d : Driver) (pieces : List Piece) :
    Except Fault (Driver × Int64) :=
  match fwritePieces d 0 pieces with
  | .error e => .error e
  | .ok (d', fpos) => .ok (d', rewind K d' fpos)

/-- `connector` from the end of its receive loop on: the driver and the reply, if there is one. The
pieces have to make up the message. -/
def connectorServe (K : FixedSizeLlseek) (d : Driver) (c : Connector) (io : Stdio) :
    Except ServerError (Driver × Option (List UInt8)) :=
  match c.messageBuf with
  | none => .ok (d, none)
  | some messageBuf =>
    if c.totalLen = 0 then .ok (d, none)
    else do
      let message ← lift (CString.ofBlock c.heap messageBuf)
      let (d', fpos) ← match ← lift (seekRequest message) with
        | some seekto => do
          let fpos ← lift (serveSeek d seekto)
          pure (d, fpos)
        | none => do
          let bytes ← lift (c.heap.load messageBuf 0 c.totalLen.toNat)
          if Piece.join io.pieces = bytes then lift (serveData K d io.pieces)
          else .error .disabled
      let reply ← lift (freadAll d' io.counts fpos)
      let _ ← lift (c.heap.free messageBuf)
      return (d', some reply)

section Serve

variable {K : FixedSizeLlseek} {d : Driver} {cmds : List (List UInt8)} {c : Connector}
  {msg : List UInt8} {io : Stdio}

theorem serve_nothing (ha : Assembled c []) : connectorServe K d c io = .ok (d, none) := by
  obtain ⟨-, hnone⟩ := ha.buf.resolve_right fun h ↦ h.1 rfl
  rw [connectorServe, hnone]

theorem Assembled.message (ha : Assembled c msg) (hne : msg ≠ []) :
    ∃ p heap, c.messageBuf = some p ∧ c.totalLen ≠ 0 ∧
      CString.ofBlock c.heap p = .ok (msg.takeWhile fun b ↦ b != 0) ∧
      c.heap.load p 0 c.totalLen.toNat = .ok msg ∧ c.heap.free p = .ok heap := by
  obtain ⟨-, p, hp, hholds⟩ := ha.buf.resolve_left fun h ↦ hne h.1
  obtain ⟨heap, hfree, -⟩ := Heap.free_of_live hholds.live
  refine ⟨p, heap, hp, fun hzero ↦ ?_, CString.ofBlock_of_holds hholds, ?_, hfree⟩
  · have hlen := ha.totalLen
    rw [hzero] at hlen
    exact hne (List.length_eq_zero_iff.mp hlen.symm)
  · rw [ha.totalLen, Heap.load_of_holds hholds (by simp), List.drop_zero, List.take_left]

/-- Rewinding and reading to the end. When the size is negative the position stays behind the
message, and the reply is too short. -/
private theorem read_rewound (h : Represents d cmds []) (counts : Counts) {fpos : Int64} {q : ℕ}
    (hpos : fpos.toInt = q) (hq : 0 < q) (hne : cmds.flatten ≠ []) :
    ∃ reply, freadAll d counts (rewind K d fpos) = .ok reply ∧
      (reply = cmds.flatten ↔
        0 ≤ d.dev.size.toInt ∧ ReadsWhole (cmds.map List.length) counts.bytes 0) := by
  rw [rewind_eq]
  by_cases hsize : 0 ≤ d.dev.size.toInt
  · rw [if_pos hsize]
    obtain ⟨reply, hread, -, hiff⟩ := freadAll_spec counts h.toStores
      (show (0 : Int64).toInt = (0 : ℕ) from rfl)
    exact ⟨reply, hread, hiff.trans (and_iff_right hsize).symm⟩
  · rw [if_neg hsize]
    obtain ⟨reply, hread, hle, -⟩ := freadAll_spec counts h.toStores hpos
    -- reading starts behind the message, so what is read is shorter than the contents
    refine ⟨reply, hread, iff_of_false ?_ fun hand ↦ hsize hand.1⟩
    rintro rfl
    have hlen := List.length_pos_of_ne_nil hne
    rw [length_flatten_eq_sum] at hle hlen
    omega

/-- **The reply to a data message.** The message is stored. The reply is everything stored exactly
when the running size is not negative afterwards and the reads are whole. -/
theorem serve_data (h : Represents d cmds []) (ha : Assembled c msg) (hdata : DataMessage msg)
    (hopen : newline ∉ msg.dropLast) (hlen : msg.length ≤ kmallocMaxSize)
    (hio : Piece.join io.pieces = msg) :
    ∃ d' reply, connectorServe K d c io = .ok (d', some reply) ∧
      Represents d' ((cmds ++ [msg]).rtake 10) [] ∧
      d'.dev.size = d.sizeAfterCommit (UInt64.ofNat msg.length)
        (UInt64.ofNat (lastLength io.pieces)) ∧
      (reply = ((cmds ++ [msg]).rtake 10).flatten ↔ 0 ≤ d'.dev.size.toInt ∧
        ReadsWhole (((cmds ++ [msg]).rtake 10).map List.length) io.counts.bytes 0) := by
  subst hio
  obtain ⟨p, heap, hp, hzero, hstring, hload, hfree⟩ := ha.message hdata.ne_nil
  have hmax : kmallocMaxSize < 2 ^ 63 := by decide
  obtain ⟨d', fpos, hwrite, hrep, hsize, hpos⟩ := fwritePieces_spec h hdata.1 hopen
    (by simpa using hlen) (show (0 : Int64).toInt = (0 : ℕ) from rfl) (by omega)
  rw [List.length_nil, Nat.zero_add] at hsize
  rw [List.nil_append] at hrep
  have hlast : ((cmds ++ [Piece.join io.pieces]).rtake 10).flatten ≠ [] := by
    rw [List.rtake_concat_succ, List.flatten_append, List.flatten_singleton]
    exact List.append_ne_nil_of_right_ne_nil _ hdata.ne_nil
  obtain ⟨reply, hread, hiff⟩ := read_rewound (K := K) hrep io.counts hpos
    (by have := List.length_pos_of_ne_nil hdata.ne_nil; omega) hlast
  refine ⟨d', reply, ?_, hrep, hsize, hiff⟩
  simp only [connectorServe, hp, if_neg hzero, hstring, lift_ok, ok_bind, hdata.seekRequest_eq,
    hload, if_true, serveData, hwrite, hread, hfree]
  rfl

theorem serve_mismatch (ha : Assembled c msg) (hdata : DataMessage msg)
    (hio : Piece.join io.pieces ≠ msg) : connectorServe K d c io = .error .disabled := by
  obtain ⟨p, heap, hp, hzero, hstring, hload, -⟩ := ha.message hdata.ne_nil
  simp only [connectorServe, hp, if_neg hzero, hstring, lift_ok, ok_bind, hdata.seekRequest_eq,
    hload, if_neg hio, error_bind]

/-- The `ioctl` of a seek command goes to the byte that the command addresses, and stays at the
start of the file when there is no such byte. -/
private theorem serveSeek_spec (h : Stores d cmds []) (x y : UInt32) :
    ∃ fpos q, serveSeek d ⟨x, y⟩ = .ok fpos ∧ fpos.toInt = (q : ℕ) ∧
      ∀ cmd, cmds[x.toNat]? = some cmd → y.toNat < cmd.length →
        q = position (cmds.map List.length) x.toNat y.toNat := by
  have hioctl : aesdIoctl d ⟨false, aesdcharIocseekto, ⟨x, y⟩, none⟩ 0
      = aesdAdjustFileOffset d false 0 x y := by
    rw [aesdIoctl, if_pos rfl, copied_none, if_neg (Nat.lt_irrefl 8)]
  rw [serveSeek, hioctl]
  by_cases hhit : ∃ hx : x.toNat < cmds.length, y.toNat < cmds[x.toNat].length
  · obtain ⟨hx, hy⟩ := hhit
    obtain ⟨pos, hadj, hpos⟩ := h.adjust_of_lt hx hy 0
    rw [hadj]
    exact ⟨pos, _, rfl, hpos, fun _ _ _ ↦ rfl⟩
  · rw [h.adjust_of_not_lt fun hx hy ↦ hhit ⟨hx, hy⟩]
    refine ⟨0, 0, rfl, rfl, fun cmd hcmd hy ↦ absurd ?_ hhit⟩
    obtain ⟨hx, rfl⟩ := List.getElem?_eq_some_iff.mp hcmd
    exact ⟨hx, hy⟩

private theorem drop_position {x y : ℕ} {cmd : List UInt8} (hcmd : cmds[x]? = some cmd)
    (hy : y < cmd.length) : cmds.flatten.drop (position (cmds.map List.length) x y)
      = cmd.drop y ++ (cmds.drop (x + 1)).flatten := by
  obtain ⟨hx, rfl⟩ := List.getElem?_eq_some_iff.mp hcmd
  obtain ⟨_, -, hdrop⟩ := drop_flatten_of_locate (l := cmds)
    (locate_eq_some_iff.mpr ⟨by simpa using hx, by simpa using hy, rfl⟩)
  exact hdrop

/-- **The reply to a seek command** leaves the driver as it is. When the command addresses a byte,
the reply is everything stored from that byte on exactly when the reads are whole. -/
theorem serve_seek {x y : ℕ} (h : Represents d cmds []) (ha : Assembled c msg)
    (hseek : SeekCommand msg x y) (io : Stdio) :
    ∃ reply, connectorServe K d c io = .ok (d, some reply) ∧
      ∀ cmd, cmds[x]? = some cmd → y < cmd.length →
        (reply = cmd.drop y ++ (cmds.drop (x + 1)).flatten ↔
          ReadsWhole (cmds.map List.length) io.counts.bytes
            (position (cmds.map List.length) x y)) := by
  obtain ⟨p, heap, hp, hzero, hstring, -, hfree⟩ := ha.message hseek.ne_nil
  rw [hseek.takeWhile_eq] at hstring
  obtain ⟨fpos, q, hioctl, hpos, haddr⟩ := serveSeek_spec h.toStores (UInt32.ofNat x)
    (UInt32.ofNat y)
  rw [hseek.toNat_eq.1, hseek.toNat_eq.2] at haddr
  obtain ⟨reply, hread, -, hiff⟩ := freadAll_spec io.counts h.toStores hpos
  refine ⟨reply, ?_, fun cmd hcmd hy ↦ ?_⟩
  · simp only [connectorServe, hp, if_neg hzero, hstring, lift_ok, ok_bind, hseek.seekRequest_eq,
      hioctl, pure_eq_ok, hread, hfree]
  · rw [← drop_position hcmd hy, ← haddr cmd hcmd hy]
    exact hiff

end Serve

end Aesd
