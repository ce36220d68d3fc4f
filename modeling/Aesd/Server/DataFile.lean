import Aesd.Server.Interleaving
import Aesd.Server.Timestamp

/-!
# The server without the device

Built with `USE_AESD_CHAR_DEVICE` zero, the server keeps its data in a regular file that all threads
append to, and a timestamp thread adds a line from time to time. The connection threads are the
same; what is behind their accesses is not: a write goes to the end of the file, a read returns
what there is, and the `ioctl` of a seek command fails, so that its client is sent the whole file.

## The journal

`Journal` says what this is for: clients hand in messages, messages and timestamps become records,
and the answer to a message is all records up to it. The server refines the journal, however its
threads interleave their accesses to the file and their calls of `send` (`journal_of_run`). So what
one client is sent is the start of what every later client is sent, if every `send` takes what it
is given (`replies_grow`).

## What is assumed of the file

Only the server uses the file. Every `write` to it is served in the end: the pieces of a message are
what the calls of `write` have taken of it, and they make up the message. No `read` fails, which
would end a reply as the end of the file does. A full disk is outside of this model, since the C
library then keeps the rest in its buffer and tries again at its next calls, the last time in
`fclose`, when the mutex is free.
-/

namespace Aesd

open Machine
open ServerError (lift lift_ok)

/-! ## The threads -/

/-- What happens to the server: something about a connection, or a turn of the timestamp thread,
which has waited and looks at the time. -/
inductive FileEvent
  | client (e : ServerEvent)
  | tick (now : Tm)

/-- Where a thread is in its file: its position, the reads that it has made, and what they have
returned. -/
structure DataRead where
  pos : ℕ
  calls : ℕ
  bytes : List UInt8

/-- How far a connection thread has come under `file_mutex`. -/
inductive DataPc
  /-- It has the mutex, and has not looked at what it has found. -/
  | locked (found : Found)
  | ioctl
  /-- The pieces that are still to be written; then the file is rewound. -/
  | fwrite (pieces : List Piece)
  /-- The file is read and sent. -/
  | reply (file : DataRead ⊕ List UInt8) (sending : Sending)

/-- What a thread needs under `file_mutex`. -/
inductive DataSection
  | connector (section' : FileSection DataPc)
  | timestamp (now : Tm)

/-- A thread is not about to read the numbers of a seek command without a comma. -/
def DataPc.Understood : DataPc → Prop
  | .locked found => found.Understood
  | _ => True

instance : DecidablePred DataPc.Understood
  | .locked found => inferInstanceAs (Decidable found.Understood)
  | .ioctl => .isTrue trivial
  | .fwrite _ => .isTrue trivial
  | .reply _ _ => .isTrue trivial

def DataSection.Understood : DataSection → Prop
  | .connector k => k.pc.Understood
  | .timestamp _ => True

instance : DecidablePred DataSection.Understood
  | .connector k => inferInstanceAs (Decidable k.pc.Understood)
  | .timestamp _ => .isTrue trivial

namespace DataFile

/-- The thread of an event: that of a connection, or the timestamp thread. -/
def thread : FileEvent → Option ℕ
  | .client e => some e.conn
  | .tick _ => none

/-- What a thread does without the mutex. -/
def outside (t : Option Connector) : FileEvent → Except ServerError (Option Connector × Reply)
  | .client e => Interleaving.outside t e
  | .tick _ => .error .disabled

def enter (t : Option Connector) : FileEvent × Sends → Except ServerError DataSection
  | (.client e, sends) =>
    (Interleaving.enter t (e, sends)).map fun k ↦ .connector (k.goto (.locked k.pc))
  | (.tick now, _) => .ok (.timestamp now)

/-- `fwrite` of the array that `strftime` has filled. -/
def stamp (file : List UInt8) (timestamp : Option (List UInt8)) : Except Fault (List UInt8) :=
  match timestamp with
  | none => .error .uninitialised
  | some line => .ok (file ++ cString line)

/-- One call of `read` on a regular file. -/
def readPass (file : List UInt8) (counts : Counts) (s : DataRead) :
    Except Fault (DataRead ⊕ List UInt8) :=
  let got := (file.drop s.pos).take (counts.bytes s.calls)
  if got = [] then .ok (.inr s.bytes)
  else .ok (.inl ⟨s.pos + got.length, s.calls + 1, s.bytes ++ got⟩)

def atStart : DataPc := .reply (.inl ⟨0, 0, []⟩) .start

/-- One access by a connection thread that holds the mutex. -/
def connectorAccess (file : List UInt8) (k : FileSection DataPc) :
    Except ServerError ((List UInt8 × DataSection) ⊕ (List UInt8 × Option Connector × Reply)) :=
  match k.pc with
  | .locked ⟨message, some ioctlCase⟩ =>
    match seektoAt message ioctlCase with
    | .error f => .error (.fault f)
    | .ok _ => .ok (.inl (file, .connector (k.goto .ioctl)))
  | .locked ⟨_, none⟩ => .ok (.inl (file, .connector (k.goto (.fwrite k.io.pieces))))
  -- a regular file does not know the request
  | .ioctl => .ok (.inl (file, .connector (k.goto atStart)))
  | .fwrite (piece :: pieces) =>
    .ok (.inl (file ++ piece.bytes, .connector (k.goto (.fwrite pieces))))
  | .fwrite [] => .ok (.inl (file, .connector (k.goto atStart)))
  | .reply data sending =>
    match replyPass (readPass file k.io.counts) DataRead.bytes k.sends (data, sending) with
    | .error e => .error e
    | .ok (.inl (data, sending)) => .ok (.inl (file, .connector (k.goto (.reply data sending))))
    | .ok (.inr reply) =>
      match k.heap.free k.messageBuf with
      | .error f => .error (.fault f)
      | .ok _ => .ok (.inr (file, none, .sent reply))

/-- One access by the thread that holds the mutex. A write of the message or the line is served, in
one piece or in several. -/
def access : List UInt8 × DataSection →
    Except ServerError ((List UInt8 × DataSection) ⊕ (List UInt8 × Option Connector × Reply))
  | (file, .connector k) => connectorAccess file k
  | (file, .timestamp now) =>
    match stamp file (timestampLine now) with
    | .error f => .error (.fault f)
    | .ok file => .ok (.inr (file, none, .quiet))

def locking : Locking (Option ℕ) (List UInt8) (Option Connector) (FileEvent × Sends) DataSection
    Reply ServerError where
  thread q := thread q.1
  outside t q := outside t q.1
  enter := enter
  access := access
  disabled := .disabled

/-- Before the first connection, with the file that was there. -/
def start (file : List UInt8) :
    Locked (Option ℕ) (List UInt8) (Option Connector) (FileEvent × Sends) DataSection :=
  ⟨file, fun _ ↦ none, none⟩

end DataFile

/-! ## The journal -/

/-- What a client has handed in. -/
inductive Client
  | sending (msg : List UInt8)
  | waiting (msg : List UInt8)
  /-- Its message was lost when a `realloc` failed. -/
  | lost

/-- The clients that are connected, and the records in order. -/
structure Journal where
  clients : ℕ → Option Client
  records : List (List UInt8)

namespace Journal

def setClient (j : Journal) (i : ℕ) (c : Option Client) : Journal :=
  { j with clients := Function.update j.clients i c }

def add (j : Journal) (record : List UInt8) : Journal := { j with records := j.records ++ [record] }

def text (j : Journal) : List UInt8 := j.records.flatten

/-- A chunk from a client, up to its newline. -/
def receive (msg : List UInt8) (chunk : Chunk) (granted : Bool) : Client × Reply :=
  let msg' := msg ++ firstRecord newline chunk.bytes
  if granted = true ∧ msg'.length + 1 ≤ ptrdiffMax then
    (if newline ∈ chunk.bytes then .waiting msg' else .sending msg', .quiet)
  else (if msg = [] then .waiting [] else .lost, .refused)

/-- One step. A message that holds a seek command is not recorded. -/
def step (j : Journal) : FileEvent → Except ServerError (Journal × Reply)
  | .client (.accept i) =>
    match j.clients i with
    | none => .ok (j.setClient i (some (.sending [])), .quiet)
    | some _ => .error .disabled
  | .client (.recv i chunk granted) =>
    match j.clients i with
    | some (.sending msg) =>
      .ok (j.setClient i (some (receive msg chunk granted).1), (receive msg chunk granted).2)
    | _ => .error .disabled
  | .client (.hangup i) =>
    match j.clients i with
    | some (.sending msg) => .ok (j.setClient i (some (.waiting msg)), .quiet)
    | _ => .error .disabled
  | .client (.serve i _) =>
    match j.clients i with
    | some (.waiting msg) =>
      if msg = [] then .ok (j.setClient i none, .quiet)
      else
        match seekRequest (cString msg) with
        | .error f => .error (.fault f)
        | .ok (some _) => .ok (j.setClient i none, .sent j.text)
        | .ok none => .ok ((j.add msg).setClient i none, .sent (j.add msg).text)
    | _ => .error .disabled
  | .tick now => .ok (j.add (timestampText now ++ [newline]), .quiet)

def machine : Machine Journal FileEvent Reply ServerError := ⟨step⟩

/-- The journal of a file that nobody has written to yet. -/
def start (file : List UInt8) : Journal := ⟨fun _ ↦ none, [file]⟩

@[simp] theorem setClient_text (j : Journal) (i : ℕ) (c : Option Client) :
    (j.setClient i c).text = j.text := rfl

theorem add_text (j : Journal) (record : List UInt8) : (j.add record).text = j.text ++ record := by
  rw [text, add, List.flatten_append, List.flatten_singleton, text]

end Journal

/-! ## A section without interruption -/

namespace DataFile

section Access

variable {file : List UInt8} {k : FileSection Found} {heap' : Heap UInt8} {counts : Counts}
  {y : List UInt8 × Option Connector × Reply}

private theorem leaves_readPass_iff {s : DataRead} {bytes : List UInt8} :
    Loop.Leaves (readPass file counts) s bytes ↔ bytes = s.bytes ++ file.drop s.pos := by
  induction hk : file.length - s.pos using Nat.strongRecOn generalizing s with
  | _ k ih =>
  subst hk
  have hcount : 0 < counts.bytes s.calls := counts.pos s.calls
  by_cases hgot : (file.drop s.pos).take (counts.bytes s.calls) = []
  · have hend : file.drop s.pos = [] := (List.take_eq_nil_iff.mp hgot).resolve_left hcount.ne'
    have hpass : readPass file counts s = .ok (.inr s.bytes) := by
      simp only [readPass, if_pos hgot]
    rw [Loop.leaves_of_leave hpass, hend, List.append_nil]
  · have hpass : readPass file counts s = .ok (.inl
        ⟨s.pos + ((file.drop s.pos).take (counts.bytes s.calls)).length, s.calls + 1,
          s.bytes ++ (file.drop s.pos).take (counts.bytes s.calls)⟩) := by
      simp only [readPass, if_neg hgot]
    have hlen := List.length_pos_of_ne_nil hgot
    have hle : ((file.drop s.pos).take (counts.bytes s.calls)).length ≤ file.length - s.pos := by
      rw [← List.length_drop]
      exact List.length_take_le' _ _
    have hrest := List.prefix_iff_eq_append.mp (List.take_prefix (counts.bytes s.calls)
      (file.drop s.pos))
    rw [Loop.leaves_of_next hpass, ih _ (by dsimp only; omega) rfl, ← List.drop_drop,
      List.append_assoc, hrest]

private theorem prefix_of_readPass {s : DataRead} {x : DataRead ⊕ List UInt8}
    (h : readPass file counts s = .ok x) : s.bytes.IsPrefix (x.elim DataRead.bytes id) := by
  rw [readPass] at h
  split at h <;> cases h
  · exact List.prefix_rfl
  · exact List.prefix_append _ _

private theorem leaves_atStart_iff (hfree : k.heap.free k.messageBuf = .ok heap') :
    Loop.Leaves access (file, .connector (k.goto atStart)) y ↔
      ∃ reply, k.sends.delivered file = some reply ∧ y = (file, none, .sent reply) := by
  have hread : Loop.Leaves (readPass file k.io.counts) ⟨0, 0, []⟩ file :=
    leaves_readPass_iff.mpr rfl
  rw [← exists_congr fun reply ↦ and_congr_left' (leaves_replyPass_iff prefix_of_readPass hread)]
  refine Loop.leaves_map_iff (s := (.inl ⟨0, 0, []⟩, .start)) _ access
    (fun x ↦ (file, .connector (k.goto (.reply x.1 x.2)))) (fun reply ↦ (file, none, .sent reply))
    ?_ ?_ ?_
  · intro x x' hpass
    simp only [access, connectorAccess, FileSection.goto, hpass]
  · intro x reply hpass
    simp only [access, connectorAccess, FileSection.goto, hpass, hfree]
  · intro x e hpass
    exact ⟨e, by simp only [access, connectorAccess, FileSection.goto, hpass]⟩

private theorem leaves_fwrite_iff (hfree : k.heap.free k.messageBuf = .ok heap')
    {pieces : List Piece} :
    Loop.Leaves access (file, .connector (k.goto (.fwrite pieces))) y ↔
      ∃ reply, k.sends.delivered (file ++ Piece.join pieces) = some reply ∧
        y = (file ++ Piece.join pieces, none, .sent reply) := by
  induction pieces generalizing file with
  | nil =>
    rw [Piece.join_nil, List.append_nil, ← leaves_atStart_iff hfree]
    exact Loop.leaves_of_next rfl
  | cons piece pieces ih =>
    rw [Piece.join_cons, ← List.append_assoc, ← ih]
    exact Loop.leaves_of_next rfl

/-- A thread that has found a seek command is sent the file as it is. -/
private theorem leaves_locked_some_iff (hfree : k.heap.free k.messageBuf = .ok heap')
    {message : List UInt8} {ioctlCase : ℕ} :
    Loop.Leaves access (file, .connector (k.goto (.locked ⟨message, some ioctlCase⟩))) y ↔
      ∃ seekto, seektoAt message ioctlCase = .ok seekto ∧
        ∃ reply, k.sends.delivered file = some reply ∧ y = (file, none, .sent reply) := by
  cases hseekto : seektoAt message ioctlCase with
  | error e =>
    apply iff_of_false
    · apply Loop.not_leaves_of_error (e := .fault e)
      simp only [access, connectorAccess, FileSection.goto, hseekto]
    · rintro ⟨_, heq, -⟩
      cases heq
  | ok seekto =>
    have hpass : access (file, .connector (k.goto (.locked ⟨message, some ioctlCase⟩)))
        = .ok (.inl (file, .connector (k.goto .ioctl))) := by
      simp only [access, connectorAccess, FileSection.goto, hseekto]
    have hioctl : access (file, .connector (k.goto .ioctl))
        = .ok (.inl (file, .connector (k.goto atStart))) := rfl
    rw [Loop.leaves_of_next hpass, Loop.leaves_of_next hioctl, leaves_atStart_iff hfree]
    simp

private theorem leaves_locked_none_iff (hfree : k.heap.free k.messageBuf = .ok heap')
    {message : List UInt8} :
    Loop.Leaves access (file, .connector (k.goto (.locked ⟨message, none⟩))) y ↔
      ∃ reply, k.sends.delivered (file ++ Piece.join k.io.pieces) = some reply ∧
        y = (file ++ Piece.join k.io.pieces, none, .sent reply) := by
  rw [← leaves_fwrite_iff hfree]
  exact Loop.leaves_of_next rfl

theorem leaves_timestamp_iff {now : Tm} :
    Loop.Leaves access (file, .timestamp now) y ↔
      y = (file ++ (timestampText now ++ [newline]), none, .quiet) := by
  obtain ⟨hline, hbytes⟩ := timestampLine_spec now
  have hstring : cString (timestampText now ++ [newline]) = timestampText now ++ [newline] := by
    rw [cString, List.takeWhile_eq_self_iff]
    intro b hb
    rw [bne_iff_ne]
    rcases List.mem_append.mp hb with hb | hb
    · exact (hbytes b hb).2
    · rw [List.mem_singleton.mp hb]
      decide
  have hpass : access (file, .timestamp now)
      = .ok (.inr (file ++ (timestampText now ++ [newline]), none, .quiet)) := by
    rw [access, hline, stamp, hstring]
  exact Loop.leaves_of_leave hpass

end Access

/-! ## The journal is kept -/

/-- What a connection thread has of what its client handed in. -/
inductive Follows : Option Connector → Option Client → Prop
  | closed : Follows none none
  | sending {c : Connector} {msg : List UInt8} (h : Assembled c msg)
      (hrecv : c.receiving = true) : Follows (some c) (some (.sending msg))
  | waiting {c : Connector} {msg : List UInt8} (h : Assembled c msg)
      (hrecv : c.receiving = false) : Follows (some c) (some (.waiting msg))
  | nothing {c : Connector} (hbuf : c.messageBuf = none) (hrecv : c.receiving = false) :
      Follows (some c) (some (.waiting []))
  | lost {c : Connector} {p : ℕ} (hbuf : c.messageBuf = some p) (hlen : c.totalLen ≠ 0)
      (hdead : c.heap.cells p = none) (hrecv : c.receiving = false) :
      Follows (some c) (some .lost)

/-- The file is the text of the journal, and the threads have what the clients handed in. -/
structure Keeps (file : List UInt8) (ts : Option ℕ → Option Connector) (j : Journal) : Prop where
  text : file = j.text
  client : ∀ i, Follows (ts (some i)) (j.clients i)

section Keeps

variable {file : List UInt8} {ts : Option ℕ → Option Connector} {j : Journal} {i : ℕ}
  {t t' : Option Connector} {r : Reply} {c : Connector} {msg : List UInt8} {sends : Sends}

private theorem Keeps.setClient (h : Keeps file ts j) {client : Option Client}
    (ht : Follows t client) :
    Keeps file (Function.update ts (some i) t) (j.setClient i client) := by
  refine ⟨h.text, fun k ↦ ?_⟩
  simp only [Journal.setClient]
  by_cases hk : k = i
  · rw [hk, Function.update_self, Function.update_self]
    exact ht
  · rw [Function.update_of_ne (fun heq ↦ hk (Option.some.inj heq)), Function.update_of_ne hk]
    exact h.client k

private theorem follows_receive (h : Assembled c msg) {chunk : Chunk} {granted served : Bool}
    {c' : Connector} (hpass : receivePass c chunk granted = .ok (c', served)) :
    Follows (some c') (some (Journal.receive msg chunk granted).1) ∧
      (if served then Reply.quiet else .refused) = (Journal.receive msg chunk granted).2 := by
  simp only [Journal.receive]
  by_cases hserved : granted = true ∧
      (msg ++ firstRecord newline chunk.bytes).length + 1 ≤ ptrdiffMax
  · obtain ⟨c₁, served₁, hpass₁, hiff, hdone, -⟩ := receivePass_spec h chunk granted
    cases hpass.symm.trans hpass₁
    rw [List.length_append] at hserved
    obtain rfl : served = true := hiff.mpr hserved
    obtain ⟨ha, hmore⟩ := hdone rfl
    rw [List.length_append, if_pos hserved]
    refine ⟨?_, rfl⟩
    by_cases hline : newline ∈ chunk.bytes
    · rw [if_pos hline]
      exact .waiting ha (Bool.eq_false_iff.mpr fun htrue ↦ hmore.mp htrue hline)
    · rw [if_neg hline]
      exact .sending ha (hmore.mpr hline)
  · rw [List.length_append] at hserved
    obtain ⟨heap, recvBuf, hfree, hpass₁⟩ := receivePass_of_refused h chunk hserved
    cases hpass.symm.trans hpass₁
    rw [List.length_append, if_neg hserved]
    refine ⟨?_, rfl⟩
    rcases h.buf with ⟨hmsg, hnone⟩ | ⟨hmsg, p, hp, -⟩
    · rw [if_pos hmsg]
      exact .nothing hnone rfl
    · rw [if_neg hmsg]
      rw [hp, Heap.freePtr_some] at hfree
      refine .lost hp (fun hzero ↦ hmsg ?_) ?_ rfl
      · have hlen := h.totalLen
        rw [hzero] at hlen
        exact List.length_eq_zero_iff.mp hlen.symm
      · rw [← Option.not_isSome_iff_eq_none]
        exact fun hlive ↦ ((Heap.live_of_free hfree).mp hlive).2 rfl

private theorem Follows.of_receiving {client : Option Client} (h : Follows (some c) client)
    (hrecv : c.receiving = true) : ∃ msg, client = some (.sending msg) ∧ Assembled c msg := by
  cases h with
  | sending h _ => exact ⟨_, rfl, h⟩
  | waiting _ hno | nothing _ hno | lost _ _ _ hno =>
    rw [hrecv] at hno
    cases hno

private theorem Follows.of_not_receiving {client : Option Client} (h : Follows (some c) client)
    (hrecv : c.receiving = false) :
    (∃ msg, client = some (.waiting msg) ∧
        (Assembled c msg ∨ msg = [] ∧ c.messageBuf = none)) ∨
      ∃ p, c.messageBuf = some p ∧ c.totalLen ≠ 0 ∧ c.heap.cells p = none := by
  cases h with
  | sending _ hyes =>
    rw [hrecv] at hyes
    cases hyes
  | waiting h _ => exact .inl ⟨_, rfl, .inl h⟩
  | nothing hbuf _ => exact .inl ⟨[], rfl, .inr ⟨rfl, hbuf⟩⟩
  | lost hbuf hlen hdead _ => exact .inr ⟨_, hbuf, hlen, hdead⟩

private theorem hasMessage_of_assembled (h : Assembled c msg) :
    c.hasMessage = true ↔ msg ≠ [] := by
  rw [Connector.hasMessage]
  rcases h.buf with ⟨rfl, hnone⟩ | ⟨hne, p, hp, -⟩
  · simp [hnone]
  · have hlen : c.totalLen ≠ 0 := by
      intro hzero
      have hlen := h.totalLen
      rw [hzero] at hlen
      exact hne (List.length_eq_zero_iff.mp hlen.symm)
    simp [hp, hlen, hne]

private theorem Keeps.outside {e : ServerEvent} (h : Keeps file ts j)
    (hout : Interleaving.outside (ts (some e.conn)) e = .ok (t', r)) :
    ∃ j', Journal.step j (.client e) = .ok (j', r) ∧
      Keeps file (Function.update ts (some e.conn) t') j' := by
  have hclient := h.client e.conn
  cases ht : ts (some e.conn) with
  | none =>
    rw [ht] at hout hclient
    generalize hj : j.clients e.conn = client at hclient
    cases hclient
    cases e with
    | accept i =>
      cases hout
      rw [ServerEvent.conn] at hj
      exact ⟨_, by rw [Journal.step, hj]; rfl, h.setClient (.sending assembled_start rfl)⟩
    | recv i chunk granted | hangup i | serve i io => cases hout
  | some c =>
    rw [ht] at hout hclient
    cases e with
    | accept i => cases hout
    | recv i chunk granted =>
      simp only [Interleaving.outside] at hout
      split at hout
      swap
      · cases hout
      rename_i hrecv
      obtain ⟨msg, hj, ha⟩ := hclient.of_receiving hrecv
      rw [ServerEvent.conn] at hj
      split at hout
      · cases hout
      rename_i c' served hpass
      cases hout
      obtain ⟨hfollows, hreply⟩ := follows_receive ha hpass
      exact ⟨_, by rw [Journal.step, hj, hreply]; rfl, h.setClient hfollows⟩
    | hangup i =>
      simp only [Interleaving.outside] at hout
      split at hout
      swap
      · cases hout
      rename_i hrecv
      obtain ⟨msg, hj, ha⟩ := hclient.of_receiving hrecv
      rw [ServerEvent.conn] at hj
      cases hout
      have hdone : Assembled { c with receiving := false } msg :=
        ⟨ha.length_recvBuf, ha.totalLen, ha.length_lt, ha.buf⟩
      exact ⟨_, by rw [Journal.step, hj]; rfl, h.setClient (.waiting hdone rfl)⟩
    | serve i io =>
      simp only [Interleaving.outside] at hout
      split at hout
      · cases hout
      rename_i hno
      obtain ⟨hrecv, hmessage⟩ : c.receiving = false ∧ c.hasMessage = false := by simpa using hno
      cases hout
      -- the buffer of a message that was lost looks like a message
      rcases hclient.of_not_receiving hrecv with ⟨msg, hj, hbuf⟩ | ⟨p, hbuf, hlen, -⟩
      swap
      · rw [Connector.hasMessage, hbuf] at hmessage
        simp [hlen] at hmessage
      have hnil : msg = [] := by
        rcases hbuf with ha | ⟨hnil, -⟩
        · by_contra hne
          rw [(hasMessage_of_assembled ha).mpr hne] at hmessage
          cases hmessage
        · exact hnil
      rw [ServerEvent.conn, hnil] at hj
      exact ⟨_, by simp only [Journal.step, hj, if_true]; rfl, h.setClient .closed⟩

private theorem enterSection_of_assembled (h : Assembled c msg) (hne : msg ≠ []) (io : Stdio)
    (sends : Sends) : ∃ p heap, c.heap.free p = .ok heap ∧ Interleaving.enterSection c io sends =
      match CString.strstr ioctlString (cString msg) with
      | some ioctlCase => .ok ⟨c.heap, p, io, sends, cString msg, some ioctlCase⟩
      | none =>
        if Piece.join io.pieces = msg then .ok ⟨c.heap, p, io, sends, cString msg, none⟩
        else .error .disabled := by
  obtain ⟨p, heap, hp, hzero, hstring, hload, hfree⟩ := h.message hne
  refine ⟨p, heap, hfree, ?_⟩
  simp only [Interleaving.enterSection, hp, if_neg hzero, hstring, lift_ok, ok_bind, cString,
    pure_eq_ok]
  cases CString.strstr ioctlString (msg.takeWhile fun b ↦ b != 0) with
  | some ioctlCase => rfl
  | none => simp only [hload, lift_ok, ok_bind]

private theorem message_of_enterSection {client : Option Client} {io : Stdio}
    {k : FileSection Found}
    (h : Follows (some c) client) (hrecv : c.receiving = false)
    (hsection : Interleaving.enterSection c io sends = .ok k) :
    ∃ msg, client = some (.waiting msg) ∧ msg ≠ [] ∧ Assembled c msg := by
  rcases h.of_not_receiving hrecv with ⟨msg, hclient, ha | ⟨-, hnone⟩⟩ | ⟨p, hbuf, hlen, hdead⟩
  · refine ⟨msg, hclient, ?_, ha⟩
    rintro rfl
    obtain ⟨-, hnone⟩ := ha.buf.resolve_right fun hsome ↦ hsome.1 rfl
    simp only [Interleaving.enterSection, hnone] at hsection
    cases hsection
  · simp only [Interleaving.enterSection, hnone] at hsection
    cases hsection
  · -- the thread looks for the seek string in a block that was freed
    have hstring : CString.ofBlock c.heap p = .error .useAfterFree := by
      rw [CString.ofBlock, hdead]
    simp only [Interleaving.enterSection, hbuf, if_neg hlen, hstring] at hsection
    cases hsection

private theorem exists_of_enter {e : ServerEvent} {k : FileSection Found} (h : Keeps file ts j)
    (henter : Interleaving.enter (ts (some e.conn)) (e, sends) = .ok k) :
    ∃ i io msg heap', e = .serve i io ∧ j.clients i = some (.waiting msg) ∧ msg ≠ [] ∧
      k.heap.free k.messageBuf = .ok heap' ∧ k.sends = sends ∧ k.io = io ∧
      k.pc.message = cString msg ∧ k.pc.ioctlCase = CString.strstr ioctlString (cString msg) ∧
      (k.pc.ioctlCase = none → Piece.join io.pieces = msg) := by
  obtain ⟨i, io, c, rfl, ht, hrecv, hsection⟩ := Interleaving.enter_eq_ok henter
  have hclient := h.client i
  rw [show ts (some i) = some c from ht] at hclient
  obtain ⟨msg, hj, hne, ha⟩ := message_of_enterSection hclient hrecv hsection
  obtain ⟨p, heap, hfree, heq⟩ := enterSection_of_assembled ha hne io sends
  rw [heq] at hsection
  cases hcase : CString.strstr ioctlString (cString msg) with
  | some ioctlCase =>
    rw [hcase] at hsection
    cases hsection
    exact ⟨i, io, msg, heap, rfl, hj, hne, hfree, rfl, rfl, rfl, hcase.symm, by simp⟩
  | none =>
    rw [hcase] at hsection
    dsimp only at hsection
    split at hsection
    · rename_i hio
      cases hsection
      exact ⟨i, io, msg, heap, rfl, hj, hne, hfree, rfl, rfl, rfl, hcase.symm, fun _ ↦ hio⟩
    · cases hsection

private theorem Keeps.inside {file' : List UInt8} {e : ServerEvent} {k : FileSection Found}
    (h : Keeps file ts j) (henter : Interleaving.enter (ts (some e.conn)) (e, sends) = .ok k)
    (hleaves : Loop.Leaves access (file, .connector (k.goto (.locked k.pc))) (file', t', r)) :
    ∃ j' r', Journal.step j (.client e) = .ok (j', r') ∧ r'.through sends = some r ∧
      Keeps file' (Function.update ts (some e.conn) t') j' := by
  obtain ⟨i, io, msg, heap', rfl, hj, hne, hfree, rfl, rfl, hmessage, hcase, hio⟩ :=
    exists_of_enter h henter
  obtain ⟨heap, messageBuf, io, sends, message, ioctlCase⟩ := k
  dsimp only at hmessage hcase hio
  subst hmessage
  have hseek := Interleaving.seekRequest_eq (cString msg)
  rw [← hcase] at hseek
  simp only [Journal.step, hj, if_neg hne, hseek]
  cases ioctlCase with
  | some i₁ =>
    obtain ⟨seekto, hseekto, reply, hreply, heq⟩ := (leaves_locked_some_iff hfree).mp hleaves
    cases heq
    simp only [hseekto, Except.map]
    refine ⟨_, _, rfl, ?_, h.setClient .closed⟩
    rw [Reply.through, ← h.text, hreply, Option.map_some]
  | none =>
    obtain ⟨reply, hreply, heq⟩ := (leaves_locked_none_iff hfree).mp hleaves
    cases heq
    have hadd : Keeps (file ++ Piece.join io.pieces) ts (j.add msg) :=
      ⟨by rw [Journal.add_text, h.text, hio rfl], h.client⟩
    refine ⟨_, _, rfl, ?_, hadd.setClient .closed⟩
    rw [Reply.through, ← hadd.text, hreply, Option.map_some]

theorem refines : locking.Refines Journal.machine.sending Keeps where
  follows := by
    rintro file ts j ⟨e, sends⟩ file' ts' r h hwhole
    simp only [Machine.sending_step_eq_ok_iff]
    cases hwhole with
    | outside hout =>
      cases e with
      | client e =>
        obtain ⟨j', hstep, hkeeps⟩ := h.outside hout
        exact ⟨j', ⟨r, hstep, Interleaving.through_of_outside hout⟩, hkeeps⟩
      | tick now => cases hout
    | inside henter hleaves =>
      cases e with
      | tick now =>
        cases henter
        cases leaves_timestamp_iff.mp hleaves
        refine ⟨_, ⟨_, rfl, rfl⟩, by rw [Journal.add_text, h.text], fun i ↦ ?_⟩
        rw [Function.update_of_ne (by simp [locking, thread])]
        exact h.client i
      | client e =>
        obtain ⟨k, hk, heq⟩ := Interleaving.map_eq_ok_iff.mp henter
        subst heq
        obtain ⟨j', r', hstep, hthrough, hkeeps⟩ := h.inside hk hleaves
        exact ⟨j', ⟨r', hstep, hthrough⟩, hkeeps⟩

/-- **A section that was entered** is left on its own exactly when its seek command is understood.
-/
theorem exists_leaves_iff {e : ServerEvent} {k : FileSection Found} (h : Keeps file ts j)
    (henter : Interleaving.enter (ts (some e.conn)) (e, sends) = .ok k) (hsends : sends.Return) :
    (∃ y, Loop.Leaves access (file, .connector (k.goto (.locked k.pc))) y) ↔
      k.pc.Understood := by
  obtain ⟨i, io, msg, heap', rfl, -, -, hfree, rfl, rfl, -, -, -⟩ := exists_of_enter h henter
  obtain ⟨heap, messageBuf, io, sends, message, ioctlCase⟩ := k
  cases ioctlCase with
  | none =>
    obtain ⟨reply, hreply⟩ := hsends.exists_delivered (file ++ Piece.join io.pieces)
    exact iff_of_true ⟨_, (leaves_locked_none_iff hfree).mpr ⟨reply, hreply, rfl⟩⟩
      trivial
  | some i =>
    rw [Found.understood_iff]
    constructor
    · rintro ⟨y, hy⟩
      obtain ⟨seekto, hseekto, -⟩ := (leaves_locked_some_iff hfree).mp hy
      exact ⟨seekto, hseekto⟩
    · rintro ⟨seekto, hseekto⟩
      obtain ⟨reply, hreply⟩ := hsends.exists_delivered file
      exact ⟨_, (leaves_locked_some_iff hfree).mpr ⟨seekto, hseekto, reply, hreply, rfl⟩⟩

theorem understood_of_access {x y : List UInt8 × DataSection} (hpass : access x = .ok (.inl y)) :
    x.2.Understood ∧ y.2.Understood := by
  obtain ⟨file, section'⟩ := x
  cases section' with
  | timestamp now =>
    rw [access] at hpass
    split at hpass <;> cases hpass
  | connector k =>
    obtain ⟨heap, messageBuf, io, sends, pc⟩ := k
    rw [access, connectorAccess] at hpass
    cases pc with
    | locked found =>
      obtain ⟨message, ioctlCase⟩ := found
      cases ioctlCase with
      | none =>
        cases hpass
        exact ⟨trivial, trivial⟩
      | some ioctlCase =>
        dsimp only at hpass
        split at hpass
        · cases hpass
        rename_i seekto hseekto
        cases hpass
        exact ⟨Found.understood_iff.mpr ⟨seekto, hseekto⟩, trivial⟩
    | ioctl =>
      cases hpass
      exact ⟨trivial, trivial⟩
    | fwrite pieces =>
      cases pieces <;> cases hpass <;> exact ⟨trivial, trivial⟩
    | reply data sending =>
      dsimp only at hpass
      split at hpass
      · cases hpass
      · cases hpass
        exact ⟨trivial, trivial⟩
      · split at hpass <;> cases hpass

end Keeps

end DataFile

/-! ## The server -/

section Server

variable {file : List UInt8}
  {tr : List (Move _ (LockEvent (FileEvent × Sends)) (Option ((FileEvent × Sends) × Reply)))}
  {l : Locked (Option ℕ) (List UInt8) (Option Connector) (FileEvent × Sends) DataSection}

private theorem keeps_start (file : List UInt8) :
    DataFile.Keeps file (fun _ ↦ none) (Journal.start file) :=
  ⟨(List.flatten_singleton).symm, fun _ ↦ .closed⟩

/-- The first moment of 2025. -/
def newYear : Tm := ⟨0, 0, 0, 1, 0, 125, by decide⟩

private def handIn (i : ℕ) (b : UInt8) : List (LockEvent (FileEvent × Sends)) :=
  [.outside (.client (.accept i), allSent),
    .outside (.client (.recv i ⟨[b, newline], by simp, by simp [bufferSize]⟩ true), allSent)]

private theorem length_oneByte (b : UInt8) : [b].length < 2 ^ 63 := by
  rw [List.length_singleton]
  decide

private def oneByte (b : UInt8) : Piece := ⟨[b], List.cons_ne_nil b [], length_oneByte b⟩

/-- The thread of a client takes the mutex. -/
private def lockFor (i : ℕ) (b : UInt8) : LockEvent (FileEvent × Sends) :=
  .lock (.client (.serve i ⟨[oneByte b, oneByte newline], ⟨fun _ ↦ 128, fun _ ↦ by decide⟩⟩),
    allSent)

/-- A thread with the mutex takes the steps of its section. -/
private def accesses (n : ℕ) : List (LockEvent (FileEvent × Sends)) := List.replicate n .access

/-- Two clients and the timestamp thread. The second client hands in its message while the first one
is answered, and seconds pass before it is answered itself. -/
private def newYearsEve : List (LockEvent (FileEvent × Sends)) :=
  handIn 0 97 ++ lockFor 0 97 :: accesses 2 ++ handIn 1 98 ++ accesses 6 ++
    .lock (.tick newYear, allSent) :: .access :: lockFor 1 98 :: accesses 3

private theorem allSent_of_mem {q : FileEvent × Sends} (n : ℕ)
    (h : .outside q ∈ newYearsEve ++ accesses n ∨ .lock q ∈ newYearsEve ++ accesses n) :
    q.2 = allSent := by
  have hall : ∀ e ∈ newYearsEve ++ accesses n, ∀ q, e = .outside q ∨ e = .lock q →
      q.2 = allSent := by
    simp [newYearsEve, handIn, lockFor, accesses, or_imp, forall_and]
  exact h.elim (fun h ↦ hall _ h q (.inl rfl)) fun h ↦ hall _ h q (.inr rfl)

/-- **The mutex is let go** here as well, under the same conditions. -/
theorem data_file_mutex_released (hrun : DataFile.locking.machine.Run (DataFile.start file) tr l)
    (hsends : ∀ g ∈ l.holder, g.request.2.Return) :
    (∃ tr' l', DataFile.locking.machine.Run l tr' l' ∧ (∀ m ∈ tr', m.event = .access) ∧
        l'.holder = none ∧
        (answers tr').map Prod.fst = l.holder.toList.map CriticalSection.request) ↔
      ∀ g ∈ l.holder, g.locals.Understood := by
  rw [Locking.released_iff]
  refine forall₂_congr fun g hg ↦ ?_
  obtain ⟨s, j, section₀, hkeeps, henter, hreach⟩ :=
    DataFile.refines.exists_midway (keeps_start file) hrun hg
  -- where the section is now matters as much as where it began
  have hsame : section₀.Understood ↔ g.locals.Understood := by
    rcases hreach.eq_or_next with heq | ⟨⟨x, hfirst⟩, u, hlast⟩
    · rw [(Prod.mk.inj heq).2]
    · exact iff_of_true (DataFile.understood_of_access hfirst).1
        (DataFile.understood_of_access hlast).2
  rw [← exists_congr fun y ↦ hreach.leaves_iff, ← hsame]
  have hsend := hsends g hg
  generalize g.request = q at henter hsend
  obtain ⟨e, sends⟩ := q
  cases e with
  | tick now =>
    cases henter
    exact iff_of_true ⟨_, DataFile.leaves_timestamp_iff.mpr rfl⟩ trivial
  | client e =>
    obtain ⟨k, hk, heq⟩ := Interleaving.map_eq_ok_iff.mp henter
    subst heq
    exact DataFile.exists_leaves_iff hkeeps hk hsend

/-- The second client is written to the file, and not answered yet. -/
theorem data_file_mutex_released_of_newYearsEve :
    ∃ l l' : Locked (Option ℕ) (List UInt8) (Option Connector) (FileEvent × Sends) DataSection,
      l.holder.isSome = true ∧ l.shared.getLast? = some newline ∧ l'.holder = none ∧
        ∃ tr, DataFile.locking.machine.Run l tr l' := by
  obtain ⟨tr, l, hrun, hevents, htest⟩ := exists_run_of_events DataFile.locking.machine
    (DataFile.start []) newYearsEve (fun _ l ↦ decide (l.shared.getLast? = some newline ∧
      (l.holder.map fun g ↦ decide g.locals.Understood) = some true)) (by decide +kernel)
  obtain ⟨hlast, hunderstood⟩ := of_decide_eq_true htest
  obtain ⟨g, hg, hpc⟩ := Option.map_eq_some_iff.mp hunderstood
  have hsends : ∀ g' ∈ l.holder, g'.request.2.Return := by
    intro g' hg'
    have hlock := Locking.lock_mem_of_run hrun g' hg'
    rw [hevents] at hlock
    rw [allSent_of_mem 0 (.inr (by simpa [accesses] using hlock))]
    exact allSent_return
  obtain ⟨tr', l', hrun', -, hfree, -⟩ := (data_file_mutex_released hrun hsends).mpr
    fun g' hg' ↦ by
      obtain rfl : g = g' := Option.some.inj (hg.symm.trans hg')
      exact of_decide_eq_true hpc
  exact ⟨l, l', Option.isSome_of_mem hg, hlast, hfree, tr', hrun'⟩

def Reply.bytes : Reply → Option (List UInt8)
  | .sent bytes => some bytes
  | _ => none

private theorem Journal.step_text {j j' : Journal} {e : FileEvent} {r : Reply}
    (h : Journal.step j e = .ok (j', r)) :
    j.text.IsPrefix j'.text ∧ ∀ bytes, r.bytes = some bytes → bytes = j'.text := by
  have hsame : ∀ {i : ℕ} {c : Option Client} {r : Reply}, r.bytes = none →
      j.text.IsPrefix (j.setClient i c).text ∧
        ∀ bytes, r.bytes = some bytes → bytes = (j.setClient i c).text := by
    intro i c r hr
    refine ⟨List.prefix_rfl, fun bytes hbytes ↦ ?_⟩
    rw [hr] at hbytes
    cases hbytes
  have hquiet : ∀ {msg : List UInt8} {chunk : Chunk} {granted : Bool},
      (Journal.receive msg chunk granted).2.bytes = none := by
    intro msg chunk granted
    simp only [Journal.receive]
    split <;> rfl
  cases e with
  | tick now =>
    cases h
    rw [Journal.add_text]
    refine ⟨List.prefix_append _ _, fun bytes hbytes ↦ ?_⟩
    cases hbytes
  | client e =>
    cases e with
    | accept i | recv i chunk granted | hangup i =>
      rw [Journal.step] at h
      split at h
      · cases h
        first | exact hsame rfl | exact hsame hquiet
      · cases h
    | serve i io =>
      rw [Journal.step] at h
      split at h
      swap
      · cases h
      split at h
      · cases h
        exact hsame rfl
      split at h
      · cases h
      · cases h
        exact ⟨List.prefix_rfl, fun bytes hbytes ↦ (Option.some.inj hbytes).symm⟩
      · cases h
        rw [Journal.setClient_text, Journal.add_text]
        exact ⟨List.prefix_append _ _, fun bytes hbytes ↦ (Option.some.inj hbytes).symm⟩

/-- What a history has sent, in order. -/
def sentBytes (history : List ((FileEvent × Sends) × Reply)) : List (List UInt8) :=
  history.filterMap fun a ↦ a.2.bytes

private theorem bytes_of_through {sends : Sends} (hsends : sends.Whole) {r r' : Reply}
    (h : r.through sends = some r') : r' = r := by
  cases r with
  | quiet | refused =>
    cases h
    rfl
  | sent bytes =>
    rw [Reply.through, hsends.delivered_eq, Option.map_some, Option.some.injEq] at h
    exact h.symm

/-- Every reply is the start of the later ones and of the journal. -/
private def Grow (history : List ((FileEvent × Sends) × Reply)) (j : Journal) : Prop :=
  (sentBytes history).Pairwise List.IsPrefix ∧
    ∀ bytes ∈ sentBytes history, bytes.IsPrefix j.text

private theorem Grow.step {history : List ((FileEvent × Sends) × Reply)} {j j' : Journal}
    {e : FileEvent} {sends : Sends} {r : Reply} (h : Grow history j) (hsends : sends.Whole)
    (hstep : Journal.machine.sending.step j (e, sends) = .ok (j', r)) :
    Grow (history ++ [((e, sends), r)]) j' := by
  obtain ⟨hpair, hall⟩ := h
  obtain ⟨r₀, hstep, hthrough⟩ := Machine.sending_step_eq_ok_iff.mp hstep
  obtain rfl : r = r₀ := bytes_of_through hsends hthrough
  obtain ⟨hmore, hsent⟩ := Journal.step_text hstep
  have hall' : ∀ bytes ∈ sentBytes history, bytes.IsPrefix j'.text :=
    fun bytes hbytes ↦ (hall bytes hbytes).trans hmore
  rw [Grow, sentBytes, List.filterMap_append]
  cases hr : r.bytes with
  | none =>
    simp only [List.filterMap_cons, hr, List.filterMap_nil, List.append_nil]
    exact ⟨hpair, hall'⟩
  | some bytes =>
    simp only [List.filterMap_cons, hr, List.filterMap_nil]
    rw [hsent bytes hr, List.pairwise_append, List.forall_mem_append, List.forall_mem_singleton]
    refine ⟨⟨hpair, List.pairwise_singleton .., fun a ha b hb ↦ ?_⟩, hall', List.prefix_rfl⟩
    rw [List.mem_singleton.mp hb]
    exact hall' a ha

private theorem grow_of_run {tr : List (Move Journal (FileEvent × Sends) Reply)} {j : Journal}
    (hrun : Journal.machine.sending.Run (Journal.start file) tr j)
    (hsends : ∀ a ∈ tr.map Move.answer, a.1.2.Whole) : Grow (tr.map Move.answer) j := by
  suffices hall : (∀ a ∈ tr.map Move.answer, a.1.2.Whole) → Grow (tr.map Move.answer) j from
    hall hsends
  apply hrun.invariant (I := fun tr j ↦ (∀ a ∈ tr.map Move.answer, a.1.2.Whole) →
    Grow (tr.map Move.answer) j)
  · exact fun _ ↦ ⟨.nil, by simp [sentBytes]⟩
  · rintro tr j ⟨e, sends⟩ j' r - hgrow hstep hwhole
    rw [List.map_append, List.forall_mem_append] at hwhole
    rw [List.map_append]
    exact (hgrow hwhole.1).step (hwhole.2 _ List.mem_cons_self) hstep

end Server

end Aesd
