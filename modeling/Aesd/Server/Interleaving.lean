import Aesd.Driver.Mutex
import Aesd.Server.Commands
import Aesd.Server.Replies

/-!
# Connection threads between two accesses

`Server.machine` answers a message in one step. Here the part of `connector` under `file_mutex` is
taken apart, and between any two of its steps the other threads accept, receive and end.

## The section

A thread comes to the mutex with the result of `strstr`, which it has called before. Once it holds
the mutex it reads the numbers of a seek command, if it has found one: `strchr` returns `NULL` when
there is no comma, and the thread then faults with the mutex in its hands. Every `aesd_ioctl`,
`aesd_write`, `aesd_llseek` and `aesd_read` that follows is an access of its own, and so is every
`send`, which may take less than it is given and need not return. The file is opened and closed
outside of the section. Every `fopen` succeeds, nobody else uses the device, and its calls are those
of `Stdio`, which are not interrupted.

## What the mutex is worth

Nobody can tell the difference (`interleaved_history_iff`): what the clients see, and the device
whenever the mutex is free, are those of runs that answer and send whole messages.

The thread that holds the mutex gets to the end of its section on its own, when its calls of `send`
return, exactly when it is not before the numbers of a seek command without a comma
(`file_mutex_released`). In that one case the process ends by `SIGSEGV`; there is no next access.
-/

namespace Aesd

open Machine
open ServerError (lift lift_ok lift_error)

/-! ## The section under the mutex -/

/-- What a thread brings to `file_mutex`: its memory with the message, the calls that it makes of
it, what becomes of its reply, and where it is. -/
structure FileSection (π : Type) where
  heap : Heap UInt8
  messageBuf : ℕ
  io : Stdio
  sends : Sends
  pc : π

def FileSection.goto {π π' : Type} (k : FileSection π) (pc : π') : FileSection π' :=
  ⟨k.heap, k.messageBuf, k.io, k.sends, pc⟩

/-- The string in `message_buf`, and what `strstr` has returned for it. -/
structure Found where
  message : List UInt8
  ioctlCase : Option ℕ

/-- How far a thread has come under `file_mutex`. -/
inductive FilePc
  /-- It has the mutex, and has not looked at what it has found. -/
  | locked (found : Found)
  | ioctl (seekto : AesdSeekto)
  /-- The pieces that are still to be written; then the file is rewound. -/
  | fwrite (pieces : List Piece) (fpos : Int64)
  /-- The file is read and sent. -/
  | reply (file : FreadState ⊕ List UInt8) (sending : Sending)

def FreadState.start (fpos : Int64) : FreadState := ⟨fpos, fun _ ↦ 0, 0, []⟩

/-- The connection that an event is about. -/
def ServerEvent.conn : ServerEvent → ℕ
  | .accept i => i
  | .recv i _ _ => i
  | .hangup i => i
  | .serve i _ => i

/-- There is a message to answer. -/
def Connector.hasMessage (c : Connector) : Bool := c.messageBuf.isSome && c.totalLen != 0

/-- The numbers behind the seek string at `ioctlCase`. Without a comma the source computes with
`NULL`. -/
def seektoAt (message : List UInt8) (ioctlCase : ℕ) : Except Fault AesdSeekto :=
  let x := CString.atoi (message.drop (ioctlCase + ioctlString.length))
  match CString.strchr (message.drop ioctlCase) comma with
  | none => .error .nullDereference
  | some separator =>
    let y := CString.atoi (message.drop (ioctlCase + (separator + 1)))
    .ok ⟨x.toUInt32, y.toUInt32⟩

/-- There is a comma behind the seek string, if there is one. -/
def Found.Understood : Found → Prop
  | ⟨message, some ioctlCase⟩ => comma ∈ message.drop ioctlCase
  | ⟨_, none⟩ => True

instance : DecidablePred Found.Understood
  | ⟨message, some ioctlCase⟩ => inferInstanceAs (Decidable (comma ∈ message.drop ioctlCase))
  | ⟨_, none⟩ => .isTrue trivial

theorem Found.understood_iff {message : List UInt8} {ioctlCase : ℕ} :
    Found.Understood ⟨message, some ioctlCase⟩ ↔
      ∃ seekto, seektoAt message ioctlCase = .ok seekto := by
  rw [Found.Understood, seektoAt, ← CString.strchr_ne_none_iff]
  cases CString.strchr (message.drop ioctlCase) comma <;> simp

/-- A thread is not about to read the numbers of a seek command without a comma. -/
def FilePc.Understood : FilePc → Prop
  | .locked found => found.Understood
  | _ => True

instance : DecidablePred FilePc.Understood
  | .locked found => inferInstanceAs (Decidable found.Understood)
  | .ioctl _ => .isTrue trivial
  | .fwrite _ _ => .isTrue trivial
  | .reply _ _ => .isTrue trivial

namespace Interleaving

/-- What a thread does without the mutex. -/
def outside (t : Option Connector) : ServerEvent → Except ServerError (Option Connector × Reply)
  | .accept _ =>
    match t with
    | some _ => .error .disabled
    | none => .ok (some .start, .quiet)
  | .recv _ chunk granted =>
    match t with
    | none => .error .disabled
    | some c =>
      if c.receiving then
        match receivePass c chunk granted with
        | .error f => .error (.fault f)
        | .ok (c', served) => .ok (some c', if served then .quiet else .refused)
      else .error .disabled
  | .hangup _ =>
    match t with
    | none => .error .disabled
    | some c =>
      if c.receiving then .ok (some { c with receiving := false }, .quiet) else .error .disabled
  | .serve _ _ =>
    match t with
    | none => .error .disabled
    | some c => if c.receiving || c.hasMessage then .error .disabled else .ok (none, .quiet)

/-- `strstr`, and `pthread_mutex_lock`. The pieces of the `fwrite` have to make up the message, if
there will be one. -/
def enterSection (c : Connector) (io : Stdio) (sends : Sends) :
    Except ServerError (FileSection Found) :=
  match c.messageBuf with
  | none => .error .disabled
  | some messageBuf =>
    if c.totalLen = 0 then .error .disabled
    else do
      let message ← lift (CString.ofBlock c.heap messageBuf)
      match CString.strstr ioctlString message with
      | some ioctlCase => return ⟨c.heap, messageBuf, io, sends, message, some ioctlCase⟩
      | none =>
        let bytes ← lift (c.heap.load messageBuf 0 c.totalLen.toNat)
        if Piece.join io.pieces = bytes then return ⟨c.heap, messageBuf, io, sends, message, none⟩
        else .error .disabled

def enter (t : Option Connector) : ServerEvent × Sends → Except ServerError (FileSection Found)
  | (.serve _ io, sends) =>
    match t with
    | none => .error .disabled
    | some c => if c.receiving then .error .disabled else enterSection c io sends
  | _ => .error .disabled

/-- One access by the thread that holds the mutex. The last one lets go of the mutex and frees the
message. -/
def access (K : FixedSizeLlseek) : Driver × FileSection FilePc →
    Except ServerError ((Driver × FileSection FilePc) ⊕ (Driver × Option Connector × Reply))
  | (d, k) =>
    match k.pc with
    | .locked ⟨message, some ioctlCase⟩ =>
      match seektoAt message ioctlCase with
      | .error f => .error (.fault f)
      | .ok seekto => .ok (.inl (d, k.goto (.ioctl seekto)))
    | .locked ⟨_, none⟩ => .ok (.inl (d, k.goto (.fwrite k.io.pieces 0)))
    | .ioctl seekto =>
      match serveSeek d seekto with
      | .error f => .error (.fault f)
      | .ok fpos => .ok (.inl (d, k.goto (.reply (.inl (.start fpos)) .start)))
    | .fwrite [] fpos =>
      .ok (.inl (d, k.goto (.reply (.inl (.start (rewind K d fpos))) .start)))
    | .fwrite (piece :: pieces) fpos =>
      match aesdWrite d ⟨false, piece.bytes, piece.length_lt, true, none⟩ fpos with
      | .error f => .error (.fault f)
      | .ok r =>
        -- after an error `fwrite` gives up the rest
        .ok (.inl (r.driver, k.goto (.fwrite (if r.ret < 0 then [] else pieces) r.fpos)))
    | .reply file sending =>
      match replyPass (freadPass d k.io.counts) FreadState.bytes k.sends (file, sending) with
      | .error e => .error e
      | .ok (.inl (file, sending)) => .ok (.inl (d, k.goto (.reply file sending)))
      | .ok (.inr reply) =>
        match k.heap.free k.messageBuf with
        | .error f => .error (.fault f)
        | .ok _ => .ok (.inr (d, none, .sent reply))

/-- The connection threads and `file_mutex`. -/
def locking (K : FixedSizeLlseek) : Locking ℕ Driver (Option Connector) (ServerEvent × Sends)
    (FileSection FilePc) Reply ServerError where
  thread q := q.1.conn
  outside t q := outside t q.1
  enter t q := (enter t q).map fun k ↦ k.goto (.locked k.pc)
  access := access K
  disabled := .disabled

/-! ## A section without interruption -/

section Access

variable {K : FixedSizeLlseek} {d : Driver} {k : FileSection Found} {heap' : Heap UInt8}
  {y : Driver × Option Connector × Reply}

private theorem prefix_of_freadPass {counts : Counts} {s : FreadState}
    {x : FreadState ⊕ List UInt8} (h : freadPass d counts s = .ok x) :
    s.bytes.IsPrefix (x.elim FreadState.bytes id) := by
  rw [freadPass] at h
  split at h
  · cases h
  split at h
  · cases h
    exact List.prefix_rfl
  · cases h
    exact List.prefix_append _ _

private theorem leaves_reply_iff (hfree : k.heap.free k.messageBuf = .ok heap')
    {file : FreadState ⊕ List UInt8} {t : Sending} :
    Loop.Leaves (access K) (d, k.goto (.reply file t)) y ↔ ∃ reply,
      Loop.Leaves (replyPass (freadPass d k.io.counts) FreadState.bytes k.sends) (file, t) reply ∧
        y = (d, none, .sent reply) := by
  refine Loop.leaves_map_iff (s := (file, t)) _ (access K)
    (fun x ↦ (d, k.goto (.reply x.1 x.2))) (fun reply ↦ (d, none, .sent reply)) ?_ ?_ ?_
  · intro x x' hpass
    simp only [access, FileSection.goto, hpass]
  · intro x reply hpass
    simp only [access, FileSection.goto, hpass, hfree]
  · intro x e hpass
    exact ⟨e, by simp only [access, FileSection.goto, hpass]⟩

private theorem leaves_read_iff (h : d.Consistent) (hfree : k.heap.free k.messageBuf = .ok heap')
    (fpos : Int64) : ∃ bytes, freadAll d k.io.counts fpos = .ok bytes ∧ ∀ y,
      (Loop.Leaves (access K) (d, k.goto (.reply (.inl (.start fpos)) .start)) y ↔
        ∃ reply, k.sends.delivered bytes = some reply ∧ y = (d, none, .sent reply)) := by
  obtain ⟨cmds, part, h⟩ := h
  obtain ⟨bytes, hread⟩ := freadAll_total k.io.counts h.toStores fpos
  refine ⟨bytes, hread, fun y ↦ ?_⟩
  have hleaves : Loop.Leaves (freadPass d k.io.counts) (.start fpos) bytes :=
    (Loop.leaves_iff_of_run hread).mpr rfl
  simp only [leaves_reply_iff hfree, leaves_replyPass_iff prefix_of_freadPass hleaves]

private theorem leaves_fwrite_iff {pieces : List Piece} {fpos : Int64} :
    Loop.Leaves (access K) (d, k.goto (.fwrite pieces fpos)) y ↔
      ∃ d' fpos', fwritePieces d fpos pieces = .ok (d', fpos') ∧
        Loop.Leaves (access K)
          (d', k.goto (.reply (.inl (.start (rewind K d' fpos'))) .start)) y := by
  induction pieces generalizing d fpos with
  | nil =>
    rw [Loop.leaves_of_next rfl, fwritePieces]
    constructor
    · intro h
      exact ⟨d, fpos, rfl, h⟩
    · rintro ⟨_, _, heq, h⟩
      cases heq
      exact h
  | cons piece pieces ih =>
    rw [fwritePieces]
    cases hwrite : aesdWrite d ⟨false, piece.bytes, piece.length_lt, true, none⟩ fpos with
    | error e =>
      apply iff_of_false
      · apply Loop.not_leaves_of_error (e := .fault e)
        simp only [access, FileSection.goto, hwrite]
      · rintro ⟨_, _, heq, -⟩
        cases heq
    | ok r =>
      have hpass : access K (d, k.goto (.fwrite (piece :: pieces) fpos))
          = .ok (.inl (r.driver,
            k.goto (.fwrite (if r.ret < 0 then [] else pieces) r.fpos))) := by
        simp only [access, FileSection.goto, hwrite]
      rw [Loop.leaves_of_next hpass]
      by_cases hret : r.ret < 0
      · simp only [if_pos hret]
        rw [Loop.leaves_of_next rfl]
        constructor
        · intro h
          exact ⟨_, _, rfl, h⟩
        · rintro ⟨_, _, heq, h⟩
          cases heq
          exact h
      · simp only [if_neg hret]
        exact ih

private theorem leaves_ioctl_iff {seekto : AesdSeekto} :
    Loop.Leaves (access K) (d, k.goto (.ioctl seekto)) y ↔
      ∃ fpos, serveSeek d seekto = .ok fpos ∧
        Loop.Leaves (access K) (d, k.goto (.reply (.inl (.start fpos)) .start)) y := by
  cases hseek : serveSeek d seekto with
  | error e =>
    apply iff_of_false
    · apply Loop.not_leaves_of_error (e := .fault e)
      simp only [access, FileSection.goto, hseek]
    · rintro ⟨_, heq, -⟩
      cases heq
  | ok fpos =>
    have hpass : access K (d, k.goto (.ioctl seekto))
        = .ok (.inl (d, k.goto (.reply (.inl (.start fpos)) .start))) := by
      simp only [access, FileSection.goto, hseek]
    rw [Loop.leaves_of_next hpass]
    constructor
    · intro h
      exact ⟨fpos, rfl, h⟩
    · rintro ⟨_, heq, h⟩
      cases heq
      exact h

private theorem leaves_locked_some_iff {message : List UInt8} {ioctlCase : ℕ} :
    Loop.Leaves (access K) (d, k.goto (.locked ⟨message, some ioctlCase⟩)) y ↔
      ∃ seekto, seektoAt message ioctlCase = .ok seekto ∧
        Loop.Leaves (access K) (d, k.goto (.ioctl seekto)) y := by
  cases hseekto : seektoAt message ioctlCase with
  | error e =>
    apply iff_of_false
    · apply Loop.not_leaves_of_error (e := .fault e)
      simp only [access, FileSection.goto, hseekto]
    · rintro ⟨_, heq, -⟩
      cases heq
  | ok seekto =>
    have hpass : access K (d, k.goto (.locked ⟨message, some ioctlCase⟩))
        = .ok (.inl (d, k.goto (.ioctl seekto))) := by
      simp only [access, FileSection.goto, hseekto]
    rw [Loop.leaves_of_next hpass]
    simp

private theorem leaves_locked_none_iff {message : List UInt8} :
    Loop.Leaves (access K) (d, k.goto (.locked ⟨message, none⟩)) y ↔
      Loop.Leaves (access K) (d, k.goto (.fwrite k.io.pieces 0)) y :=
  Loop.leaves_of_next rfl

end Access

/-! ## The section as one step -/

section Serve

variable {K : FixedSizeLlseek} {d d' : Driver} {c : Connector} {io : Stdio} {sends : Sends}
  {r : Reply}

theorem fwritePieces_consistent : ∀ {pieces : List Piece} {d d' : Driver} {fpos fpos' : Int64},
    d.Consistent → fwritePieces d fpos pieces = .ok (d', fpos') → d'.Consistent := by
  intro pieces
  induction pieces with
  | nil =>
    intro d d' fpos fpos' h hwrite
    cases hwrite
    exact h
  | cons piece pieces ih =>
    rintro d d' fpos fpos' ⟨cmds, part, h⟩ hwrite
    rw [fwritePieces] at hwrite
    split at hwrite
    · cases hwrite
    rename_i r hr
    have hr' : r.driver.Consistent := (WriteOutcome.of_ok h hr).represents h
    split at hwrite
    · cases hwrite
      exact hr'
    · exact ih hr' hwrite

private theorem read_and_free_iff (h : d.Consistent) {k : FileSection Found} {heap' : Heap UInt8}
    (hfree : k.heap.free k.messageBuf = .ok heap') {fpos : Int64} :
    (∃ reply, (do
        let reply ← lift (freadAll d k.io.counts fpos)
        let _ ← lift (k.heap.free k.messageBuf)
        .ok (d, some reply) : Except ServerError _) = .ok (d', reply) ∧
          (reply.elim Reply.quiet .sent).through k.sends = some r) ↔
      Loop.Leaves (access K) (d, k.goto (.reply (.inl (.start fpos)) .start)) (d', none, r) := by
  obtain ⟨bytes, hread, hleaves⟩ := leaves_read_iff (K := K) h hfree fpos
  simp only [hleaves, hread, hfree, lift_ok, ok_bind]
  constructor
  · rintro ⟨_, heq, hthrough⟩
    cases heq
    obtain ⟨reply, hreply, rfl⟩ := Option.map_eq_some_iff.mp hthrough
    exact ⟨reply, hreply, rfl⟩
  · rintro ⟨reply, hreply, heq⟩
    cases heq
    exact ⟨_, rfl, Option.map_eq_some_iff.mpr ⟨reply, hreply, rfl⟩⟩

/-- Looking for a seek command is looking for its string, and reading the numbers behind it. -/
theorem seekRequest_eq (message : List UInt8) :
    seekRequest message = match CString.strstr ioctlString message with
      | none => .ok none
      | some ioctlCase => (seektoAt message ioctlCase).map some := by
  rw [seekRequest]
  cases CString.strstr ioctlString message with
  | none => rfl
  | some ioctlCase =>
    simp only [seektoAt]
    cases CString.strchr (message.drop ioctlCase) comma <;> rfl

/-- **A section under the mutex is one step**, when no other thread gets in between. -/
theorem connectorServe_eq_ok_iff (h : d.Consistent) :
    (∃ reply, connectorServe K d c io = .ok (d', reply) ∧
        (reply.elim Reply.quiet .sent).through sends = some r) ↔
      (c.hasMessage = false ∧ d' = d ∧ r = .quiet) ∨
        ∃ k, enterSection c io sends = .ok k ∧
          Loop.Leaves (access K) (d, k.goto (.locked k.pc)) (d', none, r) := by
  rw [connectorServe, enterSection, Connector.hasMessage]
  cases c.messageBuf with
  | none => simp [Reply.through, eq_comm]
  | some p =>
  by_cases hzero : c.totalLen = 0
  · simp [hzero, Reply.through, eq_comm]
  simp only [if_neg hzero]
  have hmsg : ((some p).isSome && c.totalLen != 0) = true := by simpa using hzero
  rw [hmsg, or_iff_right fun hnone ↦ Bool.false_ne_true hnone.1.symm]
  cases hstring : CString.ofBlock c.heap p with
  | error e => simp
  | ok message =>
  obtain ⟨heap', hfree, -⟩ := Heap.free_of_live (live_of_ofBlock hstring)
  rw [lift_ok, ok_bind, ok_bind, seekRequest_eq]
  cases CString.strstr ioctlString message with
  | some ioctlCase =>
    simp only [pure_eq_ok, Except.ok.injEq, exists_eq_left', leaves_locked_some_iff,
      leaves_ioctl_iff]
    cases seektoAt message ioctlCase with
    | error e => simp [Except.map]
    | ok seekto =>
      cases hseek : serveSeek d seekto with
      | error e => simp [Except.map, hseek]
      | ok fpos =>
        simp only [Except.map, lift_ok, ok_bind, hseek, Except.ok.injEq, exists_eq_left']
        exact read_and_free_iff (k := ⟨c.heap, p, io, sends, message, some ioctlCase⟩) h hfree
  | none =>
    simp only [lift_ok, ok_bind]
    cases c.heap.load p 0 c.totalLen.toNat with
    | error e => simp
    | ok bytes =>
    by_cases hio : Piece.join io.pieces = bytes
    · simp only [lift_ok, ok_bind, if_pos hio, pure_eq_ok, Except.ok.injEq, exists_eq_left',
        leaves_locked_none_iff, leaves_fwrite_iff, serveData]
      cases hwrite : fwritePieces d 0 io.pieces with
      | error e => simp
      | ok p₁ =>
        obtain ⟨d₁, fpos⟩ := p₁
        simp only [lift_ok, ok_bind, Except.ok.injEq, Prod.mk.injEq, and_assoc, exists_and_left,
          exists_eq_left']
        exact read_and_free_iff (k := ⟨c.heap, p, io, sends, message, none⟩)
          (fwritePieces_consistent h hwrite) hfree
    · simp [if_neg hio]

/-- An access keeps the driver consistent, and the last one leaves no thread behind. -/
private theorem access_keeps {k : FileSection FilePc}
    {z : (Driver × FileSection FilePc) ⊕ (Driver × Option Connector × Reply)}
    (h : d.Consistent) (hpass : access K (d, k) = .ok z) :
    (z.elim Prod.fst Prod.fst).Consistent ∧ ∀ y, z = .inr y → y.2.1 = none := by
  rw [access] at hpass
  split at hpass
  · split at hpass <;> cases hpass
    exact ⟨h, by simp⟩
  · cases hpass
    exact ⟨h, by simp⟩
  · split at hpass <;> cases hpass
    exact ⟨h, by simp⟩
  · cases hpass
    exact ⟨h, by simp⟩
  · split at hpass
    · cases hpass
    rename_i r hr
    cases hpass
    obtain ⟨cmds, part, h⟩ := h
    exact ⟨(WriteOutcome.of_ok h hr).represents h, by simp⟩
  · split at hpass
    · cases hpass
    · cases hpass
      exact ⟨h, by simp⟩
    · split at hpass <;> cases hpass
      exact ⟨h, by simp⟩

private theorem consistent_of_leaves {x : Driver × FileSection FilePc}
    {y : Driver × Option Connector × Reply} (h : Loop.Leaves (access K) x y)
    (hx : x.1.Consistent) : y.1.Consistent ∧ y.2.1 = none := by
  induction h with
  | leave hpass =>
    obtain ⟨hy, hnone⟩ := access_keeps hx hpass
    exact ⟨hy, hnone _ rfl⟩
  | next hpass _ ih => exact ih (access_keeps hx hpass).1

end Serve

/-! ## Atomicity -/

section Atomic

variable {K : FixedSizeLlseek} {d : Driver} {ts : ℕ → Option Connector} {sends : Sends}

private theorem step_eq_outside {e : ServerEvent} (hne : ∀ i io, e ≠ .serve i io) :
    Server.step K ⟨d, ts⟩ e = (outside (ts e.conn) e).map fun p ↦
      (⟨d, Function.update ts e.conn p.1⟩, p.2) := by
  cases e with
  | serve i io => exact absurd rfl (hne i io)
  | accept i =>
    simp only [Server.step, outside, ServerEvent.conn]
    cases ts i <;> rfl
  | recv i chunk granted =>
    simp only [Server.step, outside, ServerEvent.conn]
    cases ts i with
    | none => rfl
    | some c =>
      dsimp only
      split
      · cases receivePass c chunk granted <;> rfl
      · rfl
  | hangup i =>
    simp only [Server.step, outside, ServerEvent.conn]
    cases ts i with
    | none => rfl
    | some c =>
      dsimp only
      split <;> rfl

theorem through_of_outside {t t' : Option Connector} {e : ServerEvent} {r : Reply}
    (h : outside t e = .ok (t', r)) : r.through sends = some r := by
  cases e with
  | accept i =>
    simp only [outside] at h
    split at h <;> cases h
    rfl
  | recv i chunk granted =>
    simp only [outside] at h
    split at h
    · cases h
    split at h
    swap
    · cases h
    split at h
    · cases h
    · rename_i served _
      cases h
      cases served <;> rfl
  | hangup i =>
    simp only [outside] at h
    split at h
    · cases h
    · split at h <;> cases h
      rfl
  | serve i io =>
    simp only [outside] at h
    split at h
    · cases h
    · split at h <;> cases h
      rfl

private theorem enter_eq_error {t : Option Connector} {e : ServerEvent}
    (hne : ∀ i io, e ≠ .serve i io) : enter t (e, sends) = .error .disabled := by
  cases e with
  | serve i io => exact absurd rfl (hne i io)
  | accept i | recv i chunk granted | hangup i => rfl

theorem map_eq_ok_iff {α β : Type} {x : Except ServerError α} {f : α → β} {b : β} :
    x.map f = .ok b ↔ ∃ a, x = .ok a ∧ f a = b := by
  cases x with
  | error e => simp [Except.map]
  | ok a => simp [Except.map]

private theorem serve_eq_ok_iff (h : d.Consistent) {i : ℕ} {io : Stdio} {s : Server} {r : Reply} :
    (∃ r', Server.step K ⟨d, ts⟩ (.serve i io) = .ok (s, r') ∧ r'.through sends = some r) ↔
      ∃ d' ts', s = ⟨d', ts'⟩ ∧ (locking K).Whole d ts (.serve i io, sends) d' ts' r := by
  simp only [Locking.whole_iff, locking, Server.step, ServerEvent.conn, outside, enter,
    map_eq_ok_iff]
  cases hc : ts i with
  | none => simp
  | some c =>
  cases hrec : c.receiving with
  | true => simp [hrec]
  | false =>
  simp only [hrec, Bool.false_or, Bool.false_eq_true, if_false]
  constructor
  · rintro ⟨r', hstep, hthrough⟩
    split at hstep
    · cases hstep
    rename_i d' reply hserve
    cases hstep
    rcases (connectorServe_eq_ok_iff h).mp ⟨reply, hserve, hthrough⟩ with ⟨hmsg, rfl, rfl⟩ |
      ⟨k, henter, hleaves⟩
    · exact ⟨d', _, rfl, .inl ⟨none, by rw [hmsg]; rfl, rfl, rfl⟩⟩
    · exact ⟨d', _, rfl, .inr ⟨_, none, ⟨k, henter, rfl⟩, hleaves, rfl⟩⟩
  · rintro ⟨d', ts', rfl, ⟨t, hout, rfl, rfl⟩ | ⟨_, t, ⟨k, henter, rfl⟩, hleaves, rfl⟩⟩
    · split at hout
      · cases hout
      rename_i hmsg
      cases hout
      obtain ⟨reply, hserve, hthrough⟩ := (@connectorServe_eq_ok_iff K _ _ _ io _ _ h).mpr
        (.inl ⟨by simpa using hmsg, rfl, rfl⟩)
      rw [hserve]
      exact ⟨_, rfl, hthrough⟩
    · obtain rfl : t = none := (consistent_of_leaves hleaves h).2
      obtain ⟨reply, hserve, hthrough⟩ :=
        (connectorServe_eq_ok_iff h).mpr (.inr ⟨k, henter, hleaves⟩)
      rw [hserve]
      exact ⟨_, rfl, hthrough⟩

theorem atomic (K : FixedSizeLlseek) :
    (locking K).Atomic (Server.machine K).sending Server.mk Driver.Consistent where
  step_iff := by
    rintro d ts ⟨e, sends⟩ a r h
    rw [Machine.sending_step_eq_ok_iff, Server.machine_step]
    by_cases hne : ∀ i io, e ≠ .serve i io
    · rw [step_eq_outside hne]
      simp only [map_eq_ok_iff, Locking.whole_iff, locking, enter_eq_error hne]
      constructor
      · rintro ⟨r', ⟨⟨t, r''⟩, hout, heq⟩, hthrough⟩
        cases heq
        obtain rfl : r'' = r := Option.some.inj ((through_of_outside hout).symm.trans hthrough)
        exact ⟨d, _, rfl, .inl ⟨t, hout, rfl, rfl⟩⟩
      · rintro ⟨_, _, rfl, ⟨t, hout, rfl, rfl⟩ | ⟨k, t, ⟨k', henter, -⟩, -⟩⟩
        · exact ⟨r, ⟨(t, r), hout, rfl⟩, through_of_outside hout⟩
        · cases henter
    · obtain ⟨i, io, rfl⟩ : ∃ i io, e = .serve i io := by simpa using hne
      exact serve_eq_ok_iff h
  keeps := by
    intro d ts e d' ts' r h hwhole
    cases hwhole with
    | outside _ => exact h
    | inside _ hleaves => exact (consistent_of_leaves hleaves h).1

private theorem fwritePieces_total : ∀ (pieces : List Piece) {d : Driver}, d.Consistent →
    ∀ fpos, ∃ d' fpos', fwritePieces d fpos pieces = .ok (d', fpos') := by
  intro pieces
  induction pieces with
  | nil => exact fun _ fpos ↦ ⟨_, fpos, rfl⟩
  | cons piece pieces ih =>
    rintro d ⟨cmds, part, h⟩ fpos
    obtain ⟨r, hr, hout⟩ := aesdWrite_total h
      ⟨false, piece.bytes, piece.length_lt, true, none⟩ fpos piece.ne_nil
    rw [fwritePieces, hr]
    dsimp only
    split
    · exact ⟨_, _, rfl⟩
    · exact ih (hout.represents h) r.fpos

theorem live_of_enterSection {c : Connector} {io : Stdio} {k : FileSection Found}
    (h : enterSection c io sends = .ok k) : k.heap.Live k.messageBuf ∧ k.sends = sends := by
  rw [enterSection] at h
  split at h
  · cases h
  split at h
  · cases h
  obtain ⟨message, hmessage, h⟩ := exists_of_bind_eq_ok h
  have hlive := live_of_ofBlock (ServerError.lift_eq_ok hmessage)
  split at h
  · cases h
    exact ⟨hlive, rfl⟩
  · obtain ⟨bytes, -, h⟩ := exists_of_bind_eq_ok h
    split at h <;> cases h
    exact ⟨hlive, rfl⟩

theorem enter_eq_ok {t : Option Connector} {q : ServerEvent × Sends} {k : FileSection Found}
    (h : enter t q = .ok k) : ∃ i io c, q.1 = .serve i io ∧ t = some c ∧ c.receiving = false ∧
      enterSection c io q.2 = .ok k := by
  obtain ⟨e, sends⟩ := q
  cases e with
  | accept i | recv i chunk granted | hangup i => cases h
  | serve i io =>
    cases t with
    | none => cases h
    | some c =>
      rw [enter] at h
      split at h
      · cases h
      · rename_i hrecv
        exact ⟨i, io, c, rfl, rfl, by simpa using hrecv, h⟩

/-- **A section that was entered** is left on its own exactly when its seek command is understood.
-/
theorem exists_leaves_iff {t : Option Connector} {q : ServerEvent × Sends} {k : FileSection Found}
    (h : d.Consistent) (henter : enter t q = .ok k) (hsends : q.2.Return) :
    (∃ y, Loop.Leaves (access K) (d, k.goto (.locked k.pc)) y) ↔ k.pc.Understood := by
  obtain ⟨-, io, c, -, -, -, hsection⟩ := enter_eq_ok henter
  obtain ⟨hlive, hreturn⟩ := live_of_enterSection hsection
  rw [← hreturn] at hsends
  obtain ⟨heap', hfree, -⟩ := Heap.free_of_live hlive
  have hread : ∀ {d₁ : Driver} (fpos : Int64), d₁.Consistent →
      ∃ y, Loop.Leaves (access K) (d₁, k.goto (.reply (.inl (.start fpos)) .start)) y := by
    intro d₁ fpos h₁
    obtain ⟨bytes, -, hleaves⟩ := leaves_read_iff (K := K) h₁ hfree fpos
    obtain ⟨reply, hreply⟩ := hsends.exists_delivered bytes
    exact ⟨_, (hleaves _).mpr ⟨reply, hreply, rfl⟩⟩
  obtain ⟨heap, messageBuf, io', sends', message, ioctlCase⟩ := k
  cases ioctlCase with
  | none =>
    refine iff_of_true ?_ trivial
    obtain ⟨d', fpos', hwrite⟩ := fwritePieces_total io'.pieces h 0
    obtain ⟨y, hy⟩ := hread (rewind K d' fpos') (fwritePieces_consistent h hwrite)
    exact ⟨y, leaves_locked_none_iff.mpr (leaves_fwrite_iff.mpr ⟨d', fpos', hwrite, hy⟩)⟩
  | some i =>
    rw [Found.understood_iff]
    constructor
    · rintro ⟨y, hy⟩
      obtain ⟨seekto, hseekto, -⟩ := leaves_locked_some_iff.mp hy
      exact ⟨seekto, hseekto⟩
    · rintro ⟨seekto, hseekto⟩
      obtain ⟨cmds, part, h₁⟩ := h
      obtain ⟨r, hr⟩ := h₁.aesdIoctl_total ⟨false, aesdcharIocseekto, seekto, none⟩ 0
      obtain ⟨y, hy⟩ := hread r.2 ⟨cmds, part, h₁⟩
      exact ⟨y, leaves_locked_some_iff.mpr ⟨seekto, hseekto,
        leaves_ioctl_iff.mpr ⟨r.2, by rw [serveSeek, hr], hy⟩⟩⟩

theorem understood_of_access {k : FileSection Found} {x : Driver × FileSection FilePc}
    (hpass : access K (d, k.goto (.locked k.pc)) = .ok (.inl x)) : k.pc.Understood := by
  obtain ⟨heap, messageBuf, io, sends, message, ioctlCase⟩ := k
  cases ioctlCase with
  | none => exact trivial
  | some i =>
    rw [Found.understood_iff]
    simp only [access, FileSection.goto] at hpass
    split at hpass
    · cases hpass
    · rename_i seekto hseekto
      exact ⟨seekto, hseekto⟩

theorem understood_of_next {x y : Driver × FileSection FilePc} (hpass : access K x = .ok (.inl y)) :
    y.2.pc.Understood := by
  obtain ⟨d, k⟩ := x
  rw [access] at hpass
  split at hpass
  · split at hpass <;> cases hpass
    exact trivial
  · cases hpass
    exact trivial
  · split at hpass <;> cases hpass
    exact trivial
  · cases hpass
    exact trivial
  · split at hpass <;> cases hpass
    exact trivial
  · split at hpass
    · cases hpass
    · cases hpass
      exact trivial
    · split at hpass <;> cases hpass

end Atomic

end Interleaving

/-! ## The server -/

section Server

variable {K : FixedSizeLlseek} {call : InitCall} {d : Driver}

/-- The server before its first connection, between two accesses. -/
def unlocked (d : Driver) :
    Locked ℕ Driver (Option Connector) (ServerEvent × Sends) (FileSection FilePc) :=
  ⟨d, fun _ ↦ none, none⟩

/-- **The mutex makes answers atomic.** However the threads interleave their accesses to the device
and their calls of `send`, the clients see what they would see if each message were answered and
sent at once, in the order in which the threads let go of the mutex. The device is the same as
well whenever the mutex is free. -/
theorem interleaved_history_iff (hinit : aesdInitModule call = .ok (d, 0))
    {history : List ((ServerEvent × Sends) × Reply)} {s : Server} :
    (∃ tr c, (Interleaving.locking K).machine.Run (unlocked d) tr c ∧ c.holder = none ∧
        s = ⟨c.shared, c.threads⟩ ∧ answers tr = history) ↔
      ∃ tr, (Server.machine K).sending.Run (Server.started d) tr s ∧
        tr.map Move.answer = history :=
  (Interleaving.atomic K).history_iff (Driver.consistent_of_init hinit)

def allSent : Sends := fun _ ↦ some bufferSize

theorem allSent_return : allSent.Return := fun _ ↦ rfl

theorem allSent_whole : allSent.Whole := fun _ ↦ ⟨bufferSize, rfl, Nat.le_refl _⟩

/-- What a thread does with its message in two pieces. -/
private def inTwo (b : UInt8) : Stdio :=
  ⟨[⟨[b], by simp, by simp⟩, ⟨[newline], by simp, by simp⟩], ⟨fun _ ↦ 64, fun _ ↦ by decide⟩⟩

/-- Two messages; the second one arrives between the accesses of the first thread. -/
private def interleaved (sends : Sends) : List (LockEvent (ServerEvent × Sends)) :=
  [.outside (.accept 0, allSent), .outside (.accept 1, allSent),
    .outside (.recv 0 ⟨[97, newline], by decide, by decide⟩ true, allSent),
    .lock (.serve 0 (inTwo 97), sends), .access, .access,
    .outside (.recv 1 ⟨[98, newline], by decide, by decide⟩ true, allSent), .access, .access]

/-- The first thread has written its message, and its client is sent the first byte of it only. -/
theorem interleaved_history_of_two : ∃ tr s,
    (Server.machine .documented).sending.Run (Server.started loadedDriver) tr s ∧
      tr.map Move.ret = [.quiet, .quiet, .quiet, .quiet, .sent [97]] ∧
      s.driver.commands = some [[97, newline]] := by
  obtain ⟨tr, c, hrun, htest⟩ := exists_run_of_exec (Interleaving.locking .documented).machine
    (unlocked loadedDriver) (interleaved (fun _ ↦ some 1) ++ [.access, .access, .access, .access])
    (fun tr c ↦ decide (c.holder.isNone = true ∧
      (answers tr).map Prod.snd = [.quiet, .quiet, .quiet, .quiet, .sent [97]] ∧
      c.shared.commands = some [[97, newline]])) (by decide +kernel)
  obtain ⟨hfree, hreplies, hstored⟩ := of_decide_eq_true htest
  obtain ⟨tr', hrun', hanswers⟩ := (interleaved_history_iff loadedDriver_init).mp
    ⟨tr, c, hrun, Option.isNone_iff_eq_none.mp hfree, rfl, rfl⟩
  refine ⟨tr', _, hrun', ?_, hstored⟩
  rw [← hreplies, ← hanswers, List.map_map]
  rfl

end Server

end Aesd
