import Aesd.Server.System

/-!
# The echo of the socket server

What the server is for is said by `History`, which knows nothing of buffers and blocks: the bytes
that arrived on each connection, and the data messages in the order in which they were served.
Every run refines it (`Serves`), so the device stores the last ten messages and no seek command
changes them.

## The replies

The replies are another matter. `echo_iff` says that they are the ones that were meant exactly in
the runs whose steps are all `Clean`: no message that is written in several pieces drives the
running size below zero, and no read stops inside a second entry.

The running size matters because `rewind` is a call of `aesd_llseek`, which is refused when the size
it compares with is negative; the reads then start behind the length of the message. A message in
one piece never does this, since the size loses and gains the same length.

## Step and run

`Serves.step` is the step lemma: from a state with a history, an admitted step does not fault and
leads to one with the next history. Whether the reply was the right one is decided for each step
alone, on the state before it, so the result on runs needs no other induction than `Run.along_iff`.
-/

namespace Aesd

open AesdCircularBuffer Segments Machine

/-! ## What the server is for -/

/-- What has happened, as far as replies depend on it. -/
structure History where
  /-- The bytes that `recv` returned on each connection since it was accepted. -/
  received : ℕ → List UInt8
  /-- The data messages in the order in which they were served. -/
  stored : List (List UInt8)

namespace History

def start : History := ⟨fun _ ↦ [], []⟩

/-- The message of a connection: what arrived up to the first newline. -/
def message (a : History) (i : ℕ) : List UInt8 := firstRecord newline (a.received i)

/-- The messages that the device still stores. -/
def kept (a : History) : List (List UInt8) := a.stored.rtake 10

/-- What would be stored after `msg` is. -/
def keptWith (a : History) (msg : List UInt8) : List (List UInt8) := (a.stored ++ [msg]).rtake 10

theorem keptWith_eq (a : History) (msg : List UInt8) :
    a.keptWith msg = (a.kept ++ [msg]).rtake 10 := (rtake_rtake_append ..).symm

def next (a : History) (m : ServerMove) : History :=
  match m.event with
  | .accept i => { a with received := Function.update a.received i [] }
  | .recv i chunk _ =>
    { a with received := Function.update a.received i (a.received i ++ chunk.bytes) }
  | .hangup _ => a
  | .serve i _ =>
    if DataMessage (a.message i) then { a with stored := a.stored ++ [a.message i] } else a

theorem next_of_data {a : History} {i : ℕ} (h : DataMessage (a.message i)) (s : Server)
    (io : Stdio) (r : Reply) :
    a.next ⟨s, .serve i io, r⟩ = { a with stored := a.stored ++ [a.message i] } := if_pos h

theorem next_of_not_data {a : History} {i : ℕ} (h : ¬DataMessage (a.message i)) (s : Server)
    (io : Stdio) (r : Reply) : a.next ⟨s, .serve i io, r⟩ = a := if_neg h

/-- The traffic that the server is meant for: a message that is served is a data message, a
well-formed seek command or empty, and no allocation fails on the way. -/
def Admits (a : History) : ServerEvent → Prop
  | .recv i chunk granted =>
    granted = true ∧ (a.message i).length + (firstRecord newline chunk.bytes).length < ptrdiffMax
  | .serve i _ =>
    a.message i = [] ∨ (DataMessage (a.message i) ∧ (a.message i).length ≤ kmallocMaxSize) ∨
      ∃ x y, SeekCommand (a.message i) x y
  | _ => True

/-- The client gets the reply that was meant. To a data message it is everything stored, with the
message itself; to a seek command that addresses a byte, everything stored from that byte on. -/
def Answers (a : History) (m : ServerMove) : Prop :=
  match m.event with
  | .serve i _ =>
    (DataMessage (a.message i) → m.ret = .sent (a.keptWith (a.message i)).flatten) ∧
    ∀ x y cmd, SeekCommand (a.message i) x y → a.kept[x]? = some cmd → y < cmd.length →
      m.ret = .sent (cmd.drop y ++ (a.kept.drop (x + 1)).flatten)
  | _ => True

/-- A data message that is served on a full ring does not drive the running size below zero: the
size loses the length of the message and gains that of its last piece. And no read of the reply
stops inside a second entry, or at its end, with bytes left to read. -/
def Clean (a : History) (m : ServerMove) : Prop :=
  match m.event with
  | .serve i io =>
    (DataMessage (a.message i) →
      (m.pre.driver.ring.full = true →
        ((a.message i).length : ℤ) ≤ m.pre.driver.dev.size.toInt + lastLength io.pieces) ∧
      ReadsWhole ((a.keptWith (a.message i)).map List.length) io.counts.bytes 0) ∧
    ∀ x y cmd, SeekCommand (a.message i) x y → a.kept[x]? = some cmd → y < cmd.length →
      ReadsWhole (a.kept.map List.length) io.counts.bytes
        (position (a.kept.map List.length) x y)
  | _ => True

end History

/-! ## The server refines its history -/

/-- Server `s` has the history `a`: the device stores the messages that are kept, and every thread
has assembled what arrived on its connection. -/
structure Serves (s : Server) (a : History) : Prop where
  driver : Represents s.driver a.kept []
  assembled : ∀ i c, s.conns i = some c → Assembled c (a.message i)
  /-- A thread stops receiving at a newline. -/
  open_line : ∀ i c, s.conns i = some c → c.receiving = true → newline ∉ a.received i

/-- What the section under the mutex does for a message on a device that stores `kept`. -/
inductive ServeOutcome (d : Driver) (kept : List (List UInt8)) (msg : List UInt8) (io : Stdio) :
    Driver → Reply → Prop
  | nothing (hmsg : msg = []) : ServeOutcome d kept msg io d .quiet
  | data {d' : Driver} {reply : List UInt8} (hdata : DataMessage msg)
      (hlen : msg.length ≤ kmallocMaxSize) (hio : Piece.join io.pieces = msg)
      (hrep : Represents d' ((kept ++ [msg]).rtake 10) [])
      (hsize : d'.dev.size = d.sizeAfterCommit (UInt64.ofNat msg.length)
        (UInt64.ofNat (lastLength io.pieces)))
      (hiff : reply = ((kept ++ [msg]).rtake 10).flatten ↔ 0 ≤ d'.dev.size.toInt ∧
        ReadsWhole (((kept ++ [msg]).rtake 10).map List.length) io.counts.bytes 0) :
      ServeOutcome d kept msg io d' (.sent reply)
  | seek {reply : List UInt8} (hseek : ∃ x y, SeekCommand msg x y)
      (hiff : ∀ x y cmd, SeekCommand msg x y → kept[x]? = some cmd → y < cmd.length →
        (reply = cmd.drop y ++ (kept.drop (x + 1)).flatten ↔
          ReadsWhole (kept.map List.length) io.counts.bytes
            (position (kept.map List.length) x y))) :
      ServeOutcome d kept msg io d (.sent reply)

section Step

variable {K : FixedSizeLlseek} {s s' : Server} {a : History} {e : ServerEvent} {r : Reply}
  {i : ℕ} {io : Stdio}

private theorem Serves.serve (h : Serves s a) (hadm : a.Admits (.serve i io)) {c : Connector}
    (hc : s.conns i = some c) (hrecv : ¬c.receiving = true)
    (hio : DataMessage (a.message i) → Piece.join io.pieces = a.message i) :
    ∃ d' r, Server.step K s (.serve i io) = .ok ({ s with driver := d' }.setConn i none, r) ∧
      ServeOutcome s.driver a.kept (a.message i) io d' r := by
  have ha := h.assembled i c hc
  rw [Server.step, hc]
  simp only [if_neg hrecv]
  rcases hadm with hnil | ⟨hdata, hlen⟩ | ⟨x, y, hseek⟩
  · rw [serve_nothing (hnil ▸ ha)]
    exact ⟨_, _, rfl, .nothing hnil⟩
  · obtain ⟨d', reply, hserve, hrep, hsize, hiff⟩ := serve_data (K := K) h.driver ha hdata
      (not_mem_dropLast_firstRecord _) hlen (hio hdata)
    rw [hserve]
    exact ⟨_, _, rfl, .data hdata hlen (hio hdata) hrep hsize hiff⟩
  · obtain ⟨reply, hserve, -⟩ := serve_seek (K := K) h.driver ha hseek io
    rw [hserve]
    -- a message may be read as a command in one way only, but the outcome need not know that
    refine ⟨_, _, rfl, .seek ⟨x, y, hseek⟩ fun x' y' cmd hseek' ↦ ?_⟩
    obtain ⟨reply', hserve', hiff⟩ := serve_seek (K := K) h.driver ha hseek' io
    obtain rfl : reply = reply' := by
      rw [hserve] at hserve'
      simpa using hserve'
    exact hiff cmd

/-- Otherwise the thread is not there, or still receives, or the pieces are not those of its
message. -/
private theorem Serves.serve_cases (h : Serves s a) (hadm : a.Admits (.serve i io)) :
    Server.step K s (.serve i io) = .error .disabled ∨
      ∃ d' r, Server.step K s (.serve i io) = .ok ({ s with driver := d' }.setConn i none, r) ∧
        ServeOutcome s.driver a.kept (a.message i) io d' r := by
  cases hc : s.conns i with
  | none => exact .inl (by rw [Server.step, hc])
  | some c =>
    by_cases hrecv : c.receiving = true
    · apply Or.inl
      rw [Server.step, hc]
      exact if_pos hrecv
    by_cases hio : DataMessage (a.message i) → Piece.join io.pieces = a.message i
    · exact .inr (h.serve hadm hc hrecv hio)
    · rw [Classical.not_imp] at hio
      apply Or.inl
      rw [Server.step, hc]
      simp only [if_neg hrecv, serve_mismatch (h.assembled i c hc) hio.1 hio.2]

private theorem Serves.setConn (h : Serves s a) {received : ℕ → List UInt8} {c : Option Connector}
    (hother : ∀ j, j ≠ i → received j = a.received j)
    (hc : ∀ c', c = some c' → Assembled c' (firstRecord newline (received i)) ∧
      (c'.receiving = true → newline ∉ received i)) :
    Serves (s.setConn i c) { a with received } := by
  have hconns : ∀ j c', (s.setConn i c).conns j = some c' →
      Assembled c' (firstRecord newline (received j)) ∧
        (c'.receiving = true → newline ∉ received j) := by
    intro j c' hj
    by_cases hji : j = i
    · subst hji
      rw [Server.setConn_self] at hj
      exact hc c' hj
    · rw [Server.setConn_of_ne s hji] at hj
      rw [hother j hji]
      exact ⟨h.assembled j c' hj, h.open_line j c' hj⟩
  exact ⟨h.driver, fun j c' hj ↦ (hconns j c' hj).1, fun j c' hj ↦ (hconns j c' hj).2⟩

private theorem Serves.accept (h : Serves s a) :
    Serves (s.setConn i (some .start)) { a with received := Function.update a.received i [] } := by
  refine h.setConn (fun j hj ↦ Function.update_of_ne hj _ _) ?_
  rintro c' ⟨⟩
  rw [Function.update_self]
  exact ⟨assembled_start, fun _ ↦ List.not_mem_nil⟩

private theorem Serves.recv (h : Serves s a) {c : Connector} (hc : s.conns i = some c)
    (hrecv : c.receiving = true) {chunk : Chunk} {granted : Bool}
    (hadm : a.Admits (.recv i chunk granted)) :
    ∃ c', receivePass c chunk granted = .ok (c', true) ∧ Serves (s.setConn i (some c'))
      { a with received := Function.update a.received i (a.received i ++ chunk.bytes) } := by
  obtain ⟨c', served, hpass, hserved, hdone, -⟩ :=
    receivePass_spec (h.assembled i c hc) chunk granted
  obtain rfl : served = true := hserved.mpr ⟨hadm.1, hadm.2⟩
  obtain ⟨ha, hmore⟩ := hdone rfl
  -- no newline has arrived yet, so the message so far is everything that has
  have hopen := h.open_line i c hc hrecv
  refine ⟨c', hpass, h.setConn (fun j hj ↦ Function.update_of_ne hj _ _) ?_⟩
  rintro c'' ⟨⟩
  rw [Function.update_self, firstRecord_append_of_not_mem hopen]
  rw [History.message, firstRecord_of_not_mem hopen] at ha
  refine ⟨ha, fun hr ↦ ?_⟩
  rw [List.mem_append, not_or]
  exact ⟨hopen, hmore.mp hr⟩

private theorem Serves.after_serve (h : Serves s a) {d' : Driver}
    (hout : ServeOutcome s.driver a.kept (a.message i) io d' r) :
    Serves ({ s with driver := d' }.setConn i none) (a.next ⟨s, .serve i io, r⟩) := by
  have hclose : ∀ stored, Represents d' (stored.rtake 10) [] →
      Serves ({ s with driver := d' }.setConn i none) { a with stored } := by
    intro stored hrep
    have hserves : Serves { s with driver := d' } { a with stored } :=
      ⟨hrep, h.assembled, h.open_line⟩
    exact hserves.setConn (fun _ _ ↦ rfl) nofun
  cases hout with
  | nothing hmsg =>
    rw [History.next_of_not_data fun hdata ↦ hdata.ne_nil hmsg]
    exact hclose a.stored h.driver
  | data hdata _ _ hrep =>
    rw [History.next_of_data hdata]
    apply hclose
    rwa [← rtake_rtake_append]
  | seek hseek =>
    obtain ⟨x, y, hseek⟩ := hseek
    rw [History.next_of_not_data hseek.not_data]
    exact hclose a.stored h.driver

/-- **One step of the server**, for admitted traffic, does not fault and keeps the history. -/
theorem Serves.step (h : Serves s a) (hadm : a.Admits e) :
    Server.step K s e = .error .disabled ∨
      ∃ s' r, Server.step K s e = .ok (s', r) ∧ Serves s' (a.next ⟨s, e, r⟩) := by
  cases e with
  | accept i =>
    rw [Server.step]
    cases s.conns i with
    | some c => exact .inl rfl
    | none => exact .inr ⟨_, _, rfl, h.accept⟩
  | recv i chunk granted =>
    rw [Server.step]
    cases hc : s.conns i with
    | none => exact .inl rfl
    | some c =>
      by_cases hrecv : c.receiving = true
      · obtain ⟨c', hpass, hserves⟩ := h.recv hc hrecv hadm
        simp only [if_pos hrecv, hpass]
        exact .inr ⟨_, _, rfl, hserves⟩
      · exact .inl (if_neg hrecv)
  | hangup i =>
    rw [Server.step]
    cases hc : s.conns i with
    | none => exact .inl rfl
    | some c =>
      by_cases hrecv : c.receiving = true
      · refine .inr ⟨_, _, if_pos hrecv, h.setConn (fun _ _ ↦ rfl) ?_⟩
        rintro c' ⟨⟩
        obtain ⟨hbuf, hlen, hlt, hmsg⟩ := h.assembled i c hc
        exact ⟨⟨hbuf, hlen, hlt, hmsg⟩, fun hfalse ↦ absurd hfalse Bool.false_ne_true⟩
      · exact .inl (if_neg hrecv)
  | serve i io =>
    rcases h.serve_cases (K := K) hadm with hdis | ⟨d', r, hstep, hout⟩
    · exact .inl hdis
    · exact .inr ⟨_, r, hstep, h.after_serve hout⟩

end Step

/-! ## The replies -/

/-- The running size is a size, though not always the right one. -/
structure Sized (s : Server) (a : History) : Prop where
  nonneg : 0 ≤ s.driver.dev.size.toInt
  le : s.driver.dev.size.toInt ≤ (a.kept.length * kmallocMaxSize : ℕ)

section Replies

variable {K : FixedSizeLlseek} {s s' : Server} {a : History} {e : ServerEvent} {r : Reply}
  {i : ℕ} {io : Stdio}

private theorem toInt_sizeAfterCommit {d : Driver} {len last : ℕ} (hnonneg : 0 ≤ d.dev.size.toInt)
    (hle : d.dev.size.toInt ≤ (10 * kmallocMaxSize : ℕ)) (hlen : len ≤ kmallocMaxSize)
    (hlast : last ≤ len) :
    (d.sizeAfterCommit (UInt64.ofNat len) (UInt64.ofNat last)).toInt
      = d.dev.size.toInt + last - (if d.ring.full then len else 0 : ℕ) := by
  rw [kmallocMaxSize] at hle hlen
  have hlen' : (UInt64.ofNat len).toNat = len := toNat_ofNat_of_lt (by omega)
  have hlast' : (UInt64.ofNat last).toNat = last := toNat_ofNat_of_lt (by omega)
  rw [Driver.sizeAfterCommit]
  cases d.ring.full with
  | true =>
    have hsub := toInt_sub_size_of_le (x := d.dev.size) (n := UInt64.ofNat len) (by omega)
    simp only [if_true]
    rw [toInt_add_size_of_lt (by omega), hsub, hlen', hlast']
    omega
  | false =>
    simp only [Bool.false_eq_true, if_false]
    rw [toInt_add_size_of_lt (by omega), hlast']
    omega

/-- A message leaves a size that is not negative exactly when it is clean in that respect, and the
size stays bounded. -/
private theorem Sized.after_data (hs : Sized s a) (h : Serves s a) {msg : List UInt8}
    (hlen : msg.length ≤ kmallocMaxSize) (hio : Piece.join io.pieces = msg) {size : Int64}
    (hsize : size = s.driver.sizeAfterCommit (UInt64.ofNat msg.length)
      (UInt64.ofNat (lastLength io.pieces))) :
    (0 ≤ size.toInt ↔ (s.driver.ring.full = true →
      (msg.length : ℤ) ≤ s.driver.dev.size.toInt + lastLength io.pieces)) ∧
    size.toInt ≤ (((a.kept ++ [msg]).rtake 10).length * kmallocMaxSize : ℕ) := by
  have hcount := h.driver.length_eq
  have hcap := liveCount_le h.driver.wf
  have hlast := hio ▸ lastLength_le io.pieces
  have hle := hs.le
  have hnonneg := hs.nonneg
  have hkept := Nat.mul_le_mul_right kmallocMaxSize (hcount ▸ hcap)
  rw [hsize, toInt_sizeAfterCommit hnonneg (by omega) hlen hlast, List.rtake, List.length_drop,
    List.length_append, List.length_singleton]
  cases hfull : s.driver.ring.full with
  | true =>
    rw [liveCount_of_full hfull] at hcount
    rw [hcount] at hle ⊢
    simp only [if_true, forall_const]
    omega
  | false =>
    have hroom := liveCount_lt_of_not_full h.driver.wf hfull
    rw [show a.kept.length + 1 - (a.kept.length + 1 - 10) = a.kept.length + 1 by omega,
      Nat.succ_mul]
    simp only [Bool.false_eq_true, if_false, false_implies, iff_true]
    omega

private theorem Serves.serve_of_ok (h : Serves s a) (hadm : a.Admits (.serve i io))
    (hstep : Server.step K s (.serve i io) = .ok (s', r)) :
    ∃ d', s' = { s with driver := d' }.setConn i none ∧
      ServeOutcome s.driver a.kept (a.message i) io d' r := by
  rcases h.serve_cases (K := K) hadm with hdis | ⟨d', r', hserve, hout⟩
  · rw [hstep] at hdis
    cases hdis
  · obtain ⟨rfl, rfl⟩ := Prod.mk.inj (Except.ok.inj (hstep.symm.trans hserve))
    exact ⟨d', rfl, hout⟩

private theorem Sized.step (hs : Sized s a) (h : Serves s a) (hadm : a.Admits e)
    (hstep : Server.step K s e = .ok (s', r)) (hclean : a.Clean ⟨s, e, r⟩) :
    Sized s' (a.next ⟨s, e, r⟩) := by
  cases e with
  | accept _ | recv _ _ _ | hangup _ =>
    have hd := Server.step_driver (by rintro _ _ ⟨⟩) hstep
    exact ⟨hd ▸ hs.nonneg, hd ▸ hs.le⟩
  | serve i io =>
    obtain ⟨d', rfl, hout⟩ := h.serve_of_ok hadm hstep
    cases hout with
    | nothing hmsg =>
      rw [History.next_of_not_data fun hdata ↦ hdata.ne_nil hmsg]
      exact ⟨hs.nonneg, hs.le⟩
    | data hdata hlen hio _ hsize =>
      rw [History.next_of_data hdata]
      obtain ⟨hnonneg, hle⟩ := hs.after_data h hlen hio hsize
      rw [← History.keptWith_eq] at hle
      exact ⟨hnonneg.mpr (hclean.1 hdata).1, hle⟩
    | seek hseek =>
      obtain ⟨x, y, hseek⟩ := hseek
      rw [History.next_of_not_data hseek.not_data]
      exact ⟨hs.nonneg, hs.le⟩

/-- **The reply of one step** is the one that was meant exactly when the step is clean. -/
private theorem Serves.answers_iff (h : Serves s a) (hs : Sized s a) (hadm : a.Admits e)
    (hstep : Server.step K s e = .ok (s', r)) : a.Answers ⟨s, e, r⟩ ↔ a.Clean ⟨s, e, r⟩ := by
  cases e with
  | accept _ | recv _ _ _ | hangup _ => exact Iff.rfl
  | serve i io =>
    obtain ⟨d', rfl, hout⟩ := h.serve_of_ok hadm hstep
    cases hout with
    | nothing hmsg =>
      -- the empty message is of neither kind, so nothing is asked of its step
      have hdata : ¬DataMessage (a.message i) := fun hdata ↦ hdata.ne_nil hmsg
      have hseek : ∀ x y, ¬SeekCommand (a.message i) x y := fun x y hseek ↦ hseek.ne_nil hmsg
      exact iff_of_true ⟨fun h ↦ absurd h hdata, fun x y _ h ↦ absurd h (hseek x y)⟩
        ⟨fun h ↦ absurd h hdata, fun x y _ h ↦ absurd h (hseek x y)⟩
    | data hdata hlen hio _ hsize hiff =>
      have hseek : ∀ x y, ¬SeekCommand (a.message i) x y := fun x y hseek ↦ hseek.not_data hdata
      refine and_congr (imp_congr_right fun _ ↦ ?_)
        (iff_of_true (fun x y _ h ↦ absurd h (hseek x y)) fun x y _ h ↦ absurd h (hseek x y))
      rw [Reply.sent.injEq, History.keptWith_eq, hiff, (hs.after_data h hlen hio hsize).1]
    | seek hseek hiff =>
      obtain ⟨x, y, hseek⟩ := hseek
      refine and_congr (iff_of_true (fun h ↦ absurd h hseek.not_data) fun h ↦
        absurd h hseek.not_data) ?_
      refine forall_congr' fun x ↦ forall_congr' fun y ↦ forall_congr' fun cmd ↦
        imp_congr_right fun hseek ↦ imp_congr_right fun hcmd ↦ imp_congr_right fun hy ↦ ?_
      rw [Reply.sent.injEq]
      exact hiff x y cmd hseek hcmd hy

end Replies

/-! ## Runs -/

/-- What holds between the server and its history, whatever the replies are. -/
structure Upholds (K : FixedSizeLlseek) (s : Server) (a : History) : Prop where
  /-- The device stores the messages that are kept. -/
  stored : s.driver.commands = some a.kept
  /-- Admitted traffic does not lead out of the semantics of C. -/
  no_fault : ∀ e f, a.Admits e → Server.step K s e ≠ .error (.fault f)
  /-- A thread that has its message answers it and ends. -/
  served : ∀ i io c, s.conns i = some c → c.receiving = false → a.Admits (.serve i io) →
    (DataMessage (a.message i) → Piece.join io.pieces = a.message i) →
    ∃ s' r, Server.step K s (.serve i io) = .ok (s', r) ∧ s'.conns i = none
  /-- A seek command changes nothing on the device. -/
  seek : ∀ i io x y s' r, SeekCommand (a.message i) x y →
    Server.step K s (.serve i io) = .ok (s', r) → s'.driver = s.driver

private theorem Serves.upholds {K : FixedSizeLlseek} {s : Server} {a : History}
    (h : Serves s a) : Upholds K s a := by
  refine ⟨h.driver.commands_eq, fun e f hadm hfault ↦ ?_, fun i io c hc hrecv hadm hio ↦ ?_,
    fun i io x y s' r hseek hstep ↦ ?_⟩
  · rcases h.step (K := K) hadm with hdis | ⟨s', r, hstep, -⟩
    · rw [hdis] at hfault
      cases hfault
    · rw [hstep] at hfault
      cases hfault
  · obtain ⟨d', r, hstep, -⟩ := h.serve (K := K) hadm hc (by simp [hrecv]) hio
    exact ⟨_, r, hstep, Server.setConn_self ..⟩
  · obtain ⟨d', rfl, hout⟩ := h.serve_of_ok (.inr (.inr ⟨x, y, hseek⟩)) hstep
    cases hout with
    | nothing | seek => rfl
    | data hdata => exact absurd hdata hseek.not_data

private theorem serves_started {c : InitCall} {d : Driver}
    (hinit : aesdInitModule c = .ok (d, 0)) :
    Serves (Server.started d) .start ∧ Sized (Server.started d) .start := by
  obtain ⟨hrep, hsize, -⟩ := represents_of_loaded hinit
  have hzero : (Server.started d).driver.dev.size.toInt = 0 := by
    rw [Server.started, hsize]
    rfl
  exact ⟨⟨hrep, nofun, nofun⟩, hzero.ge, by rw [hzero]; exact Int.natCast_nonneg _⟩

/-- **When the server echoes.** In a run of admitted traffic every reply is the one that was meant
exactly when every step of the run is clean. In every such run the device stores the last ten
data messages, no step faults, and seek commands leave the device as it is. -/
theorem echo_iff {K : FixedSizeLlseek} {c : InitCall} {d : Driver}
    (hinit : aesdInitModule c = .ok (d, 0)) {tr : List ServerMove} {s : Server}
    (hrun : (Server.machine K).Run (Server.started d) tr s)
    (hadm : Along History.next (fun a m ↦ a.Admits m.event) .start tr) :
    (Along History.next History.Answers .start tr ↔ Along History.next History.Clean .start tr) ∧
      Upholds K s (tr.foldl History.next .start) := by
  obtain ⟨hserves, hsized⟩ := serves_started hinit
  have hstep : ∀ {s a e s' r}, Serves s a → (Server.machine K).step s e = .ok (s', r) →
      a.Admits e → Serves s' (a.next ⟨s, e, r⟩) := by
    intro s a e s' r h hs hadm
    rcases h.step (K := K) hadm with hdis | ⟨s'', r', hs', h'⟩
    · rw [Server.machine_step, hdis] at hs
      cases hs
    · obtain ⟨rfl, rfl⟩ := Prod.mk.inj (Except.ok.inj (hs.symm.trans hs'))
      exact h'
  refine ⟨?_, (hrun.refines History.next hserves hstep hadm).upholds⟩
  refine hrun.along_iff (R := fun s a ↦ Serves s a ∧ Sized s a) History.next ⟨hserves, hsized⟩ ?_
    ?_ hadm
  · exact fun ⟨h, hs⟩ hmove hadm hclean ↦ ⟨hstep h hmove hadm, hs.step h hadm hmove hclean⟩
  · exact fun ⟨h, hs⟩ hmove hadm ↦ h.answers_iff hs hadm hmove

/-- Bytes that arrive at once on a connection. -/
private def arrive (i : ℕ) (bytes : List UInt8) (hne : bytes ≠ [])
    (hle : bytes.length ≤ bufferSize) : ServerEvent := .recv i ⟨bytes, hne, hle⟩ true

private def answer (i : ℕ) (bytes : List UInt8) (hne : bytes ≠ []) (hlt : bytes.length < 2 ^ 63)
    (count : UInt64) (hpos : 0 < count.toNat) : ServerEvent :=
  .serve i ⟨[⟨bytes, hne, hlt⟩], ⟨fun _ ↦ count, fun _ ↦ hpos⟩⟩

/-- `AESDCHAR_IOCSEEKTO:1,1`. -/
private def seekOneOne : List UInt8 := ioctlString ++ [49, comma, 49, newline]

private theorem seekCommand_oneOne : SeekCommand seekOneOne 1 1 := by
  have hone : Decimal [49] 1 :=
    ⟨List.cons_ne_nil _ _, List.forall_mem_singleton.mpr rfl, rfl, by omega⟩
  exact ⟨[49], [49], [newline], rfl, hone, hone, .inr rfl⟩

/-- A test for admitted traffic with no other seek command. -/
private def admitted (a : History) (m : ServerMove) : Bool :=
  match m.event with
  | .recv i chunk granted => granted &&
    decide ((a.message i).length + (firstRecord newline chunk.bytes).length < ptrdiffMax)
  | .serve i _ =>
    decide (DataMessage (a.message i) ∧ (a.message i).length ≤ kmallocMaxSize) ||
      decide (a.message i = seekOneOne)
  | _ => true

private theorem admits_of_admitted (a : History) (m : ServerMove) (h : admitted a m = true) :
    a.Admits m.event := by
  rw [admitted] at h
  split at h
  · rename_i hev
    rw [hev]
    exact ⟨(Bool.and_eq_true_iff.mp h).1, of_decide_eq_true (Bool.and_eq_true_iff.mp h).2⟩
  · rename_i hev
    rw [hev]
    rcases Bool.or_eq_true_iff.mp h with hdata | hseek
    · exact .inr (.inl (of_decide_eq_true hdata))
    · exact .inr (.inr ⟨1, 1, of_decide_eq_true hseek ▸ seekCommand_oneOne⟩)
  · rename_i hrecv hserve
    cases hev : m.event with
    | recv i chunk granted => exact absurd hev (hrecv i chunk granted)
    | serve i io => exact absurd hev (hserve i io)
    | accept i | hangup i => trivial

/-- A test for a step that is clean because the ring is not full and the first read asks for
everything. -/
private def readAtOnce (a : History) (m : ServerMove) : Bool :=
  match m.event with
  | .serve i io => !m.pre.driver.ring.full &&
    decide (((a.keptWith (a.message i)).map List.length).sum ≤ io.counts.bytes 0 ∧
      (a.kept.map List.length).sum ≤ io.counts.bytes 0)
  | _ => true

private theorem clean_of_readAtOnce (a : History) (m : ServerMove) (h : readAtOnce a m = true) :
    a.Clean m := by
  obtain ⟨s, e, r⟩ := m
  cases e with
  | accept _ | recv _ _ _ | hangup _ => trivial
  | serve i io =>
    obtain ⟨hfull, hcount⟩ := Bool.and_eq_true_iff.mp h
    obtain ⟨hwith, hkept⟩ := of_decide_eq_true hcount
    refine ⟨fun _ ↦ ⟨fun hfull' ↦ ?_, readsWhole_of_first (by rwa [Nat.zero_add])⟩,
      fun x y cmd _ _ _ ↦ readsWhole_of_first (hkept.trans (Nat.le_add_left _ _))⟩
    have hspace : s.driver.ring.full = false := by simpa using hfull
    exact absurd (hspace.symm.trans hfull') Bool.false_ne_true

/-- Two messages that arrive interleaved, and a seek command for the second byte of the second. -/
theorem echo_of_three : ∃ (tr : List ServerMove) (s : Server),
    (Server.machine .documented).Run (Server.started loadedDriver) tr s ∧
      Along History.next History.Answers .start tr ∧
      s.driver.commands = some [[100, newline], [97, 98, 99, newline]] ∧
      tr.getLast?.map Move.ret = some (.sent [98, 99, newline]) := by
  obtain ⟨tr, s, hrun, htest⟩ := exists_run_of_exec (Server.machine .documented)
    (Server.started loadedDriver)
    [.accept 0, .accept 1, arrive 0 [97, 98] (by decide) (by decide),
      arrive 1 [100, newline] (by decide) (by decide),
      arrive 0 [99, newline] (by decide) (by decide),
      answer 1 [100, newline] (by decide) (by decide) 64 (by decide),
      answer 0 [97, 98, 99, newline] (by decide) (by decide) 64 (by decide), .accept 2,
      arrive 2 seekOneOne (by decide) (by decide),
      answer 2 [newline] (by decide) (by decide) 64 (by decide)]
    (fun tr s ↦ decide (Along History.next (fun a m ↦ admitted a m = true) .start tr ∧
      Along History.next (fun a m ↦ readAtOnce a m = true) .start tr ∧
      s.driver.commands = some [[100, newline], [97, 98, 99, newline]] ∧
      tr.getLast?.map Move.ret = some (.sent [98, 99, newline]))) (by decide +kernel)
  obtain ⟨hadm, hclean, hstored, hlast⟩ := of_decide_eq_true htest
  exact ⟨tr, s, hrun, (echo_iff loadedDriver_init hrun (hadm.imp _ admits_of_admitted)).1.mpr
    (hclean.imp _ clean_of_readAtOnce), hstored, hlast⟩

/-- A test for the replies to data messages. -/
private def echoed (a : History) (m : ServerMove) : Bool :=
  match m.event with
  | .serve i _ =>
    decide (DataMessage (a.message i) → m.ret = .sent (a.keptWith (a.message i)).flatten)
  | _ => true

private theorem echoed_of_answers (a : History) (m : ServerMove) (h : a.Answers m) :
    echoed a m = true := by
  obtain ⟨s, e, r⟩ := m
  cases e with
  | accept _ | recv _ _ _ | hangup _ => rfl
  | serve i io => exact decide_eq_true h.1

/-- With `abc` stored, the reply to `d` lacks its last byte when it is read five bytes at a time. -/
theorem echo_cut_short : ∃ (tr : List ServerMove) (s : Server),
    (Server.machine .documented).Run (Server.started loadedDriver) tr s ∧
      Along History.next (fun a m ↦ a.Admits m.event) .start tr ∧
      s.driver.commands = some [[97, 98, 99, newline], [100, newline]] ∧
      tr.getLast?.map Move.ret = some (.sent [97, 98, 99, newline, 100]) ∧
      ¬Along History.next History.Answers .start tr := by
  obtain ⟨tr, s, hrun, htest⟩ := exists_run_of_exec (Server.machine .documented)
    (Server.started loadedDriver)
    [.accept 0, arrive 0 [97, 98, 99, newline] (by decide) (by decide),
      answer 0 [97, 98, 99, newline] (by decide) (by decide) 64 (by decide), .accept 1,
      arrive 1 [100, newline] (by decide) (by decide),
      answer 1 [100, newline] (by decide) (by decide) 5 (by decide)]
    (fun tr s ↦ decide (Along History.next (fun a m ↦ admitted a m = true) .start tr ∧
      s.driver.commands = some [[97, 98, 99, newline], [100, newline]] ∧
      tr.getLast?.map Move.ret = some (.sent [97, 98, 99, newline, 100]) ∧
      ¬Along History.next (fun a m ↦ echoed a m = true) .start tr)) (by decide +kernel)
  obtain ⟨hadm, hstored, hlast, hwrong⟩ := of_decide_eq_true htest
  exact ⟨tr, s, hrun, hadm.imp _ admits_of_admitted, hstored, hlast,
    fun h ↦ hwrong (h.imp _ echoed_of_answers)⟩

end Aesd
