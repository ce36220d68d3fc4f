import Aesd.Server.Receive

/-!
# Framing

The receive loop of `connector` from its start to its end, for every way in which `recv` cuts the
stream of a client into chunks, and every way in which the calls of `realloc` go.

When all of them succeed the message is the first record of the stream, wherever the chunks end
(`framing_eq`). When one fails the loop ends with the bytes of the passes before it, in a block that
was freed (`receiveLoop_of_refused`).

A newline is looked for in one chunk at a time, which is enough since a record has its separator at
its end only. What is behind the newline in the same chunk is dropped; the client has sent it
before it got an answer, and never gets one to it.
-/

namespace Aesd

/-! ## The loop -/

/-- A `recv` that returned a chunk, and whether the allocator is willing to serve the `realloc` that
follows. -/
structure Received where
  chunk : Chunk
  granted : Bool

/-- The bytes that were received. -/
def Received.join (rs : List Received) : List UInt8 := rs.flatMap fun r ↦ r.chunk.bytes

/-- The receive loop, for what `recv` returns before the stream ends or fails. The flag tells
whether every `realloc` succeeded. -/
def receiveLoop : Connector → List Received → Except Fault (Connector × Bool)
  | c, [] => .ok ({ c with receiving := false }, true)
  | c, r :: rs =>
    match receivePass c r.chunk r.granted with
    | .error e => .error e
    | .ok (c', served) => if c'.receiving then receiveLoop c' rs else .ok (c', served)

/-- The number of passes before the one whose `realloc` fails, if there is one, when the loop starts
with a message of `len` bytes. The loop does not look at what follows a newline. -/
def Received.refusedAt : ℕ → List Received → Option ℕ
  | _, [] => none
  | len, r :: rs =>
    if r.granted = true ∧ len + (firstRecord newline r.chunk.bytes).length + 1 ≤ ptrdiffMax then
      if newline ∈ r.chunk.bytes then none
      else (refusedAt (len + (firstRecord newline r.chunk.bytes).length) rs).map (· + 1)
    else some 0

@[simp] theorem Received.join_nil : Received.join [] = [] := rfl

@[simp] theorem Received.join_cons (r : Received) (rs : List Received) :
    Received.join (r :: rs) = r.chunk.bytes ++ Received.join rs := List.flatMap_cons ..

open Received

section Loop

variable {c c' : Connector} {msg : List UInt8} {r : Received} {rs : List Received}

private theorem receiveLoop_next (h : Assembled c msg) (hserved : r.granted = true ∧
      msg.length + (firstRecord newline r.chunk.bytes).length + 1 ≤ ptrdiffMax)
    (hno : newline ∉ r.chunk.bytes) (rs : List Received) :
    ∃ c', Assembled c' (msg ++ r.chunk.bytes) ∧
      receiveLoop c (r :: rs) = receiveLoop c' rs := by
  obtain ⟨c', served, hpass, hiff, hgrow, -⟩ := receivePass_spec h r.chunk r.granted
  obtain ⟨hassembled, hgo⟩ := hgrow (hiff.mpr hserved)
  rw [firstRecord_of_not_mem hno] at hassembled
  refine ⟨c', hassembled, ?_⟩
  simp only [receiveLoop, hpass, hgo.mpr hno, if_true]

private theorem receiveLoop_last (h : Assembled c msg) (hserved : r.granted = true ∧
      msg.length + (firstRecord newline r.chunk.bytes).length + 1 ≤ ptrdiffMax)
    (hmem : newline ∈ r.chunk.bytes) :
    ∃ c', receiveLoop c (r :: rs) = .ok (c', true) ∧ c'.receiving = false ∧
      Assembled c' (msg ++ firstRecord newline r.chunk.bytes) := by
  obtain ⟨c', served, hpass, hiff, hgrow, -⟩ := receivePass_spec h r.chunk r.granted
  obtain rfl := hiff.mpr hserved
  obtain ⟨hassembled, hgo⟩ := hgrow rfl
  have hend : c'.receiving = false := by
    rw [← Bool.not_eq_true, hgo]
    exact not_not.mpr hmem
  refine ⟨c', ?_, hend, hassembled⟩
  simp only [receiveLoop, hpass, hend, Bool.false_eq_true, if_false]

/-- **The loop when every `realloc` succeeds**: the first record of the stream is appended. -/
theorem receiveLoop_of_served (h : Assembled c msg) (hserved : refusedAt msg.length rs = none) :
    ∃ c', receiveLoop c rs = .ok (c', true) ∧ c'.receiving = false ∧
      Assembled c' (msg ++ firstRecord newline (join rs)) := by
  induction rs generalizing c msg with
  | nil =>
    rw [join_nil, firstRecord, List.append_nil]
    exact ⟨_, rfl, rfl, ⟨h.length_recvBuf, h.totalLen, h.length_lt, h.buf⟩⟩
  | cons r rs ih =>
    rw [refusedAt] at hserved
    split at hserved
    swap
    · cases hserved
    rename_i hgrant
    rw [join_cons]
    by_cases hmem : newline ∈ r.chunk.bytes
    · rw [firstRecord_append_of_mem hmem]
      exact receiveLoop_last h hgrant hmem
    · rw [if_neg hmem, Option.map_eq_none_iff, firstRecord_of_not_mem hmem,
        ← List.length_append] at hserved
      obtain ⟨c', hassembled, hloop⟩ := receiveLoop_next h hgrant hmem rs
      rw [hloop, firstRecord_append_of_not_mem hmem, ← List.append_assoc]
      exact ih hassembled hserved

/-- **The loop when a `realloc` fails**: it ends with the message of the passes before, and frees
the block that the message is in. -/
theorem receiveLoop_of_refused (h : Assembled c msg) {k : ℕ}
    (hrefused : refusedAt msg.length rs = some k) :
    ∃ c' msg' heap recvBuf, Assembled c' msg' ∧ (msg' = [] ↔ msg = [] ∧ k = 0) ∧
      c'.heap.freePtr c'.messageBuf = .ok heap ∧
      receiveLoop c rs = .ok ({ c' with heap, recvBuf, receiving := false }, false) := by
  induction rs generalizing c msg k with
  | nil => cases hrefused
  | cons r rs ih =>
    rw [refusedAt] at hrefused
    split at hrefused
    · rename_i hgrant
      split at hrefused
      · cases hrefused
      rename_i hno
      rw [firstRecord_of_not_mem hno, ← List.length_append, Option.map_eq_some_iff] at hrefused
      obtain ⟨k', hk', rfl⟩ := hrefused
      obtain ⟨c', hassembled, hloop⟩ := receiveLoop_next h hgrant hno rs
      obtain ⟨c₁, msg₁, heap, recvBuf, h₁, hnil, hfree, hend⟩ := ih hassembled hk'
      refine ⟨c₁, msg₁, heap, recvBuf, h₁, ?_, hfree, hloop.trans hend⟩
      rw [hnil, List.append_eq_nil_iff]
      exact iff_of_false (fun hand ↦ r.chunk.ne_nil hand.1.2) fun hand ↦ Nat.succ_ne_zero _ hand.2
    · rename_i hgrant
      cases hrefused
      obtain ⟨heap, recvBuf, hfree, hpass⟩ := receivePass_of_refused h r.chunk hgrant
      refine ⟨c, msg, heap, recvBuf, h, (and_iff_left rfl).symm, hfree, ?_⟩
      simp only [receiveLoop, hpass, Bool.false_eq_true, if_false]

/-- The loop never holds a second block, and none when a `realloc` failed. -/
theorem Connector.OnlyBuffer.receiveLoop (hc : c.OnlyBuffer) {served : Bool}
    (hloop : receiveLoop c rs = .ok (c', served)) :
    (served = true → c'.OnlyBuffer) ∧ (served = false → ∀ b, ¬c'.heap.Live b) := by
  induction rs generalizing c with
  | nil =>
    cases hloop
    exact ⟨fun _ ↦ hc, nofun⟩
  | cons r rs ih =>
    rw [Aesd.receiveLoop] at hloop
    split at hloop
    · cases hloop
    · rename_i c₁ served₁ hpass
      obtain ⟨hkeep, hlast⟩ := hc.receivePass hpass
      split at hloop
      · rename_i hgo
        apply ih _ hloop
        apply hkeep
        by_contra hrefused
        rw [(hlast (Bool.not_eq_true _ ▸ hrefused)).1] at hgo
        exact Bool.false_ne_true hgo
      · cases hloop
        exact ⟨hkeep, fun hrefused ↦ (hlast hrefused).2⟩

end Loop

/-! ## Fragmentation -/

/-- The loop has ended with the message `msg`, which is not empty: a block holds its bytes and a
NUL. -/
structure Framed (c : Connector) (msg : List UInt8) : Prop where
  ended : c.receiving = false
  ne_nil : msg ≠ []
  totalLen : c.totalLen.toNat = msg.length
  held : ∃ p, c.messageBuf = some p ∧ c.heap.Holds p (msg ++ [0])

theorem framed_of_served {rs : List Received} (hne : join rs ≠ [])
    (hserved : refusedAt 0 rs = none) :
    ∃ c, receiveLoop .start rs = .ok (c, true) ∧ Framed c (firstRecord newline (join rs)) ∧
      Assembled c (firstRecord newline (join rs)) := by
  obtain ⟨c, hloop, hend, h⟩ := receiveLoop_of_served assembled_start hserved
  rw [List.nil_append] at h
  have hmsg : firstRecord newline (join rs) ≠ [] := firstRecord_ne_nil hne
  obtain ⟨-, hheld⟩ := h.buf.resolve_left fun hnil ↦ hmsg hnil.1
  exact ⟨c, hloop, ⟨hend, hmsg, h.totalLen, hheld⟩, h⟩

/-- **Framing does not depend on fragmentation.** However a stream is cut into chunks, when every
`realloc` succeeds the loop ends without leaving a block, and its message is the stream up to and
including the first newline, or the whole stream. -/
theorem framing_eq {stream : List UInt8} (hne : stream ≠ []) {rs rs' : List Received}
    (hrs : join rs = stream) (hrs' : join rs' = stream) (hserved : refusedAt 0 rs = none)
    (hserved' : refusedAt 0 rs' = none) :
    ∃ c c', receiveLoop .start rs = .ok (c, true) ∧ receiveLoop .start rs' = .ok (c', true) ∧
      Framed c (firstRecord newline stream) ∧ Framed c' (firstRecord newline stream) := by
  subst hrs
  obtain ⟨c, hloop, hframed, -⟩ := framed_of_served hne hserved
  obtain ⟨c', hloop', hframed', -⟩ := framed_of_served (hrs' ▸ hne) hserved'
  rw [hrs'] at hframed'
  exact ⟨c, c', hloop, hloop', hframed, hframed'⟩

/-- The stream `ab`, newline, NUL, `c`, cut after the newline and cut before it. -/
theorem framing_eq_of_two_cuts : ∃ c c',
    receiveLoop .start [⟨⟨[97, 98, 10], by decide, by decide⟩, true⟩,
      ⟨⟨[0, 99], by decide, by decide⟩, true⟩] = .ok (c, true) ∧
    receiveLoop .start [⟨⟨[97], by decide, by decide⟩, true⟩, ⟨⟨[98], by decide, by decide⟩, true⟩,
      ⟨⟨[10, 0, 99], by decide, by decide⟩, true⟩] = .ok (c', true) ∧
    Framed c [97, 98, 10] ∧ Framed c' [97, 98, 10] :=
  @framing_eq [97, 98, 10, 0, 99] (by decide) _ _ rfl rfl (by decide) (by decide)

end Aesd
