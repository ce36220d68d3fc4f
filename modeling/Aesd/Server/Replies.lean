import Aesd.Foundation.Loop
import Aesd.Foundation.Machine
import Aesd.Server.System

/-!
# Sending a reply

The last part of the section under `file_mutex`: `connector` reads its file to the end, and gives
every buffer that `fread` fills to `send`. The result of `send` is not looked at. A call that takes
only a part of its buffer leaves a gap in the reply, a call that fails leaves out the whole buffer,
and a call that does not return keeps the mutex with it.

## The loop

What is read is produced by calls of the driver, in pieces that have nothing to do with the buffers
of `BUFFER_SIZE` bytes in which it is sent. `replyPass` therefore carries two counters: the state
of the reading, and the calls of `send` made so far. It sends while a whole buffer is there, and
reads on when there is none. At the end of the file it sends what is left.

## What arrives

`Sends.taken` says what the first `n` calls make of a reply that is known as a whole. While the file
is read only a part of the reply is known, but a buffer that is full does not change any more; so
the loop leaves with what `Sends.taken` gives for all buffers of the reply
(`leaves_replyPass_iff`), however the reading was cut. When every call takes its whole buffer that
is the reply itself (`Sends.Whole.delivered_eq`).

A machine that answers in one step becomes one that sends in one step (`Machine.sending`). A `send`
that ends the process with `SIGPIPE` is no step here: the history ends before it.
-/

namespace Aesd

/-! ## The loop -/

/-- What the calls of `send` do with a reply: how many bytes call `k` takes at most, if it returns.
A call that fails takes none. -/
abbrev Sends := ℕ → Option ℕ

/-- A reply on its way: the calls of `send` made so far, and the bytes that they took. -/
structure Sending where
  calls : ℕ
  taken : List UInt8

namespace Sending

def start : Sending := ⟨0, []⟩

/-- The bytes behind those that were given to `send`. -/
def rest (t : Sending) (bytes : List UInt8) : List UInt8 := bytes.drop (t.calls * bufferSize)

/-- One call of `send`, with as much as there is in `file_buf`. -/
def send (sends : Sends) (t : Sending) (bytes : List UInt8) : Except ServerError Sending :=
  match sends t.calls with
  | none => .error .disabled
  | some n => .ok ⟨t.calls + 1, t.taken ++ ((t.rest bytes).take bufferSize).take n⟩

end Sending

section Pass

variable {σ : Type} (pass : σ → Except Fault (σ ⊕ List UInt8)) (read : σ → List UInt8)

/-- One pass of the loop that sends the file. `pass` is a call that reads on, and `read` is what was
read before; on the right, the end of the file was reached. -/
def replyPass (sends : Sends) : (σ ⊕ List UInt8) × Sending →
    Except ServerError (((σ ⊕ List UInt8) × Sending) ⊕ List UInt8)
  | (.inl s, t) =>
    if bufferSize ≤ (t.rest (read s)).length then
      match t.send sends (read s) with
      | .error e => .error e
      | .ok t' => .ok (.inl (.inl s, t'))
    else
      match pass s with
      | .error f => .error (.fault f)
      | .ok file => .ok (.inl (file, t))
  | (.inr bytes, t) =>
    if t.rest bytes = [] then .ok (.inr t.taken)
    else
      match t.send sends bytes with
      | .error e => .error e
      | .ok t' => .ok (.inl (.inr bytes, t'))

end Pass

/-! ## What arrives -/

/-- What the first `n` calls of `send` take of a reply, if they all return. -/
def Sends.taken (sends : Sends) (bytes : List UInt8) : ℕ → Option (List UInt8)
  | 0 => some []
  | n + 1 =>
    (taken sends bytes n).bind fun before ↦ (sends n).map fun k ↦
      before ++ ((bytes.drop (n * bufferSize)).take bufferSize).take k

/-- The number of buffers that a reply fills, the last one not always to its end. -/
def buffers (bytes : List UInt8) : ℕ := (bytes.length + (bufferSize - 1)) / bufferSize

/-- What reaches the client of a reply. -/
def Sends.delivered (sends : Sends) (bytes : List UInt8) : Option (List UInt8) :=
  sends.taken bytes (buffers bytes)

def Sends.Return (sends : Sends) : Prop := ∀ k, (sends k).isSome = true

def Sends.Whole (sends : Sends) : Prop := ∀ k, ∃ n, sends k = some n ∧ bufferSize ≤ n

/-- A reply when it has gone through `send`. -/
def Reply.through (sends : Sends) : Reply → Option Reply
  | .sent bytes => (sends.delivered bytes).map .sent
  | r => some r

/-- A machine that answers, with the calls of `send` that bring its answer to the client. -/
def Machine.sending {α ε : Type} (M : Machine α ε Reply ServerError) :
    Machine α (ε × Sends) Reply ServerError where
  step a q :=
    match M.step a q.1 with
    | .error e => .error e
    | .ok (a', r) =>
      match r.through q.2 with
      | none => .error .disabled
      | some r' => .ok (a', r')

theorem Machine.sending_step_eq_ok_iff {α ε : Type} {M : Machine α ε Reply ServerError} {a a' : α}
    {q : ε × Sends} {r' : Reply} : M.sending.step a q = .ok (a', r') ↔
      ∃ r, M.step a q.1 = .ok (a', r) ∧ r.through q.2 = some r' := by
  simp only [Machine.sending]
  cases M.step a q.1 with
  | error e => simp
  | ok p =>
    obtain ⟨a₁, r⟩ := p
    cases hr : r.through q.2 with
    | none => simp [hr]
    | some r₁ => simp [hr, and_assoc]

namespace Sends

variable {sends : Sends} {bytes : List UInt8} {n : ℕ}

theorem taken_succ_of_some {k : ℕ} {before : List UInt8}
    (hbefore : sends.taken bytes n = some before) (hk : sends n = some k) :
    sends.taken bytes (n + 1)
      = some (before ++ ((bytes.drop (n * bufferSize)).take bufferSize).take k) := by
  rw [taken, hbefore, Option.bind_some, hk, Option.map_some]

theorem taken_eq_none {m : ℕ} (h : sends n = none) (hlt : n < m) : sends.taken bytes m = none := by
  induction m with
  | zero => omega
  | succ m ih =>
    rw [taken]
    rcases Nat.lt_succ_iff_lt_or_eq.mp hlt with hlt | rfl
    · rw [ih hlt, Option.bind_none]
    · simp [h]

theorem Return.exists_taken (h : sends.Return) (n : ℕ) :
    ∃ before, sends.taken bytes n = some before := by
  induction n with
  | zero => exact ⟨[], rfl⟩
  | succ n ih =>
    obtain ⟨before, hbefore⟩ := ih
    obtain ⟨k, hk⟩ := Option.isSome_iff_exists.mp (h n)
    exact ⟨_, taken_succ_of_some hbefore hk⟩

theorem Return.exists_delivered (h : sends.Return) (bytes : List UInt8) :
    ∃ reply, sends.delivered bytes = some reply := h.exists_taken _

theorem Whole.taken_eq (h : sends.Whole) (n : ℕ) :
    sends.taken bytes n = some (bytes.take (n * bufferSize)) := by
  induction n with
  | zero => rw [taken, Nat.zero_mul, List.take_zero]
  | succ n ih =>
    obtain ⟨k, hk, hle⟩ := h n
    rw [taken_succ_of_some ih hk, List.take_take, Nat.min_eq_right hle, Nat.succ_mul,
      List.take_add]

end Sends

theorem lt_buffers_iff {bytes : List UInt8} {n : ℕ} :
    n < buffers bytes ↔ n * bufferSize < bytes.length := by
  rw [buffers, bufferSize]
  omega

theorem Sends.Whole.delivered_eq {sends : Sends} (h : sends.Whole) (bytes : List UInt8) :
    sends.delivered bytes = some bytes := by
  rw [Sends.delivered, h.taken_eq, List.take_of_length_le]
  rw [← Nat.not_lt, ← lt_buffers_iff]
  exact Nat.lt_irrefl _

/-! ## The loop brings the reply to the client -/

section Loop

variable {σ : Type} {pass : σ → Except Fault (σ ⊕ List UInt8)} {read : σ → List UInt8}
  {sends : Sends} {bytes y : List UInt8} {t : Sending} {s : σ}

/-- The calls made so far took what they take of the whole reply. -/
private def Sending.Sound (sends : Sends) (bytes : List UInt8) (t : Sending) : Prop :=
  t.calls ≤ buffers bytes ∧ sends.taken bytes t.calls = some t.taken

private theorem rest_eq_nil_iff : t.rest bytes = [] ↔ buffers bytes ≤ t.calls := by
  rw [Sending.rest, List.drop_eq_nil_iff, ← Nat.not_lt, ← Nat.not_lt, lt_buffers_iff]

private theorem leaves_inr_iff (h : t.Sound sends bytes) :
    Loop.Leaves (replyPass pass read sends) (.inr bytes, t) y ↔
      sends.delivered bytes = some y := by
  induction hk : buffers bytes - t.calls generalizing t with
  | zero =>
    obtain ⟨hle, htaken⟩ := h
    have hrest : t.rest bytes = [] := rest_eq_nil_iff.mpr (by omega)
    rw [Loop.leaves_of_leave (by rw [replyPass, if_pos hrest]), Sends.delivered,
      Nat.le_antisymm (rest_eq_nil_iff.mp hrest) hle, htaken, Option.some.injEq, eq_comm]
  | succ k ih =>
    obtain ⟨hle, htaken⟩ := h
    have hlt : t.calls < buffers bytes := by omega
    have hrest : t.rest bytes ≠ [] := fun hnil ↦ absurd (rest_eq_nil_iff.mp hnil) (by omega)
    cases hsend : sends t.calls with
    | none =>
      rw [Sends.delivered, Sends.taken_eq_none hsend hlt]
      refine iff_of_false (Loop.not_leaves_of_error (e := .disabled) ?_) (by simp)
      simp only [replyPass, if_neg hrest, Sending.send, hsend]
    | some n =>
      have hpass : replyPass pass read sends (.inr bytes, t) = .ok (.inl (.inr bytes,
          ⟨t.calls + 1, t.taken ++ ((t.rest bytes).take bufferSize).take n⟩)) := by
        simp only [replyPass, if_neg hrest, Sending.send, hsend]
      rw [Loop.leaves_of_next hpass]
      exact ih ⟨hlt, Sends.taken_succ_of_some htaken hsend⟩ (by dsimp only; omega)

/-- A buffer that is full stays as it is while the file is read. -/
private theorem send_eq (hstart : (read s).IsPrefix bytes)
    (hfull : bufferSize ≤ (t.rest (read s)).length) :
    t.send sends (read s) = t.send sends bytes := by
  obtain ⟨more, rfl⟩ := hstart
  have hlen : t.calls * bufferSize ≤ (read s).length := by
    rw [Sending.rest, List.length_drop, bufferSize] at hfull
    rw [bufferSize]
    omega
  have hrest : (t.rest (read s ++ more)).take bufferSize = (t.rest (read s)).take bufferSize := by
    rw [Sending.rest, List.drop_append_of_le_length hlen, ← Sending.rest,
      List.take_append_of_le_length hfull]
  rw [Sending.send, Sending.send, hrest]

private theorem calls_of_send {t' : Sending} (h : t.send sends bytes = .ok t') :
    t'.calls = t.calls + 1 := by
  rw [Sending.send] at h
  split at h <;> cases h
  rfl

private theorem leaves_send_iff (hstart : (read s).IsPrefix bytes)
    (hfull : bufferSize ≤ (t.rest (read s)).length)
    (hnext : ∀ t', t'.calls = t.calls + 1 →
      (Loop.Leaves (replyPass pass read sends) (.inl s, t') y ↔
        Loop.Leaves (replyPass pass read sends) (.inr bytes, t') y)) :
    Loop.Leaves (replyPass pass read sends) (.inl s, t) y ↔
      Loop.Leaves (replyPass pass read sends) (.inr bytes, t) y := by
  have hrest : t.rest bytes ≠ [] := by
    have hlen := hstart.length_le
    rw [← List.length_pos_iff, Sending.rest, List.length_drop]
    rw [Sending.rest, List.length_drop, bufferSize] at hfull
    rw [bufferSize]
    omega
  have hsame : t.send sends (read s) = t.send sends bytes := send_eq hstart hfull
  cases hsend : t.send sends bytes with
  | error e =>
    apply iff_of_false
    · apply Loop.not_leaves_of_error (e := e)
      simp only [replyPass, if_pos hfull, hsame, hsend]
    · apply Loop.not_leaves_of_error (e := e)
      simp only [replyPass, if_neg hrest, hsend]
  | ok t' =>
    have hpass : replyPass pass read sends (.inl s, t) = .ok (.inl (.inl s, t')) := by
      simp only [replyPass, if_pos hfull, hsame, hsend]
    have hpass' : replyPass pass read sends (.inr bytes, t) = .ok (.inl (.inr bytes, t')) := by
      simp only [replyPass, if_neg hrest, hsend]
    rw [Loop.leaves_of_next hpass, Loop.leaves_of_next hpass']
    exact hnext t' (calls_of_send hsend)

private theorem leaves_fread_iff {x : σ ⊕ List UInt8} (hstart : (read s).IsPrefix bytes)
    (hpass : pass s = .ok x)
    (hx : ∀ t, Loop.Leaves (replyPass pass read sends) (x, t) y ↔
      Loop.Leaves (replyPass pass read sends) (.inr bytes, t) y) (t : Sending) :
    Loop.Leaves (replyPass pass read sends) (.inl s, t) y ↔
      Loop.Leaves (replyPass pass read sends) (.inr bytes, t) y := by
  induction hk : (t.rest (read s)).length using Nat.strongRecOn generalizing t with
  | _ k ih =>
  subst hk
  by_cases hfull : bufferSize ≤ (t.rest (read s)).length
  · refine leaves_send_iff hstart hfull fun t' hcalls ↦ ih _ ?_ t' rfl
    rw [Sending.rest, List.length_drop, bufferSize] at hfull
    rw [Sending.rest, Sending.rest, List.length_drop, List.length_drop, hcalls, bufferSize]
    omega
  · have hread : replyPass pass read sends (.inl s, t) = .ok (.inl (x, t)) := by
      simp only [replyPass, if_neg hfull, hpass]
    rw [Loop.leaves_of_next hread]
    exact hx t

/-- While the file is read, the loop sends what it would send at its end. -/
private theorem leaves_inl_iff
    (hgrow : ∀ {s x}, pass s = .ok x → (read s).IsPrefix (x.elim read id))
    (hread : Loop.Leaves pass s bytes) : (read s).IsPrefix bytes ∧
      ∀ t, Loop.Leaves (replyPass pass read sends) (.inl s, t) y ↔
        Loop.Leaves (replyPass pass read sends) (.inr bytes, t) y := by
  induction hread with
  | leave hpass => exact ⟨hgrow hpass, leaves_fread_iff (hgrow hpass) hpass fun _ ↦ Iff.rfl⟩
  | next hpass _ ih =>
    have hstart := (hgrow hpass).trans ih.1
    exact ⟨hstart, leaves_fread_iff hstart hpass ih.2⟩

/-- **The loop that sends a file** leaves with what the calls of `send` take of it, however it is
read. -/
theorem leaves_replyPass_iff
    (hgrow : ∀ {s x}, pass s = .ok x → (read s).IsPrefix (x.elim read id))
    (hread : Loop.Leaves pass s bytes) :
    Loop.Leaves (replyPass pass read sends) (.inl s, .start) y ↔
      sends.delivered bytes = some y :=
  ((leaves_inl_iff hgrow hread).2 _).trans (leaves_inr_iff ⟨Nat.zero_le _, rfl⟩)

end Loop

end Aesd
