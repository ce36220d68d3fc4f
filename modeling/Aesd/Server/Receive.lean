import Aesd.Driver.Basic
import Aesd.Foundation.CString
import Aesd.Foundation.Records

/-!
# Receiving a message

The receive loop of `connector`. A connection thread collects what `recv` gives it in a buffer that
grows with each chunk, and stops at the first newline, the end of the stream, or a failed
`realloc`. The fixed buffer that `recv` writes to keeps the bytes of earlier calls behind the new
ones.

`receivePass_spec` says what one chunk does to a buffer that holds `msg`: it appends the first
record of the chunk and a NUL, or frees the buffer and ends the loop.

## The invariant

`Assembled c msg` says that the thread has assembled `msg`: its buffer holds these bytes and a NUL,
`total_len` is their number, and before the first chunk there is no buffer at all. Each pass asks
for one byte more than the message has, so the NUL is inside the block; the heap refuses a store
that is not.
-/

namespace Aesd

def bufferSize : ℕ := 1024

/-- What a `recv` that returned a positive count has written to its buffer. -/
structure Chunk where
  bytes : List UInt8
  ne_nil : bytes ≠ []
  length_le : bytes.length ≤ bufferSize

/-- `PTRDIFF_MAX`, beyond which the C library refuses every allocation. -/
def ptrdiffMax : ℕ := 2 ^ 63 - 1

/-- `realloc`, for an allocator that is willing (`granted`) or not. -/
def reallocPtr (heap : Heap UInt8) (granted : Bool) (p : Option ℕ) (n : UInt64) :
    Except Fault (Heap UInt8 × Option ℕ) :=
  if granted = true ∧ n.toNat ≤ ptrdiffMax then
    match p with
    | none => .ok ((heap.malloc n.toNat).1, some (heap.malloc n.toNat).2)
    | some p =>
      match heap.realloc p n.toNat with
      | .error e => .error e
      | .ok (heap', p') => .ok (heap', some p')
  else .ok (heap, none)

/-! ## The loop -/

/-- The variables of the receive loop of one connection thread, with the memory that only this
thread uses. -/
structure Connector where
  heap : Heap UInt8
  recvBuf : List UInt8
  messageBuf : Option ℕ
  totalLen : UInt64
  /-- The loop has not ended. -/
  receiving : Bool

def Connector.start : Connector := ⟨Heap.empty, List.replicate bufferSize 0, none, 0, true⟩

/-- One pass of the loop, for a `recv` that returned a chunk. The flag tells whether `realloc`
succeeded; when it failed, `message_buf` still points to the block that was freed. -/
def receivePass (c : Connector) (chunk : Chunk) (granted : Bool) :
    Except Fault (Connector × Bool) := do
  let recvBuf := chunk.bytes ++ c.recvBuf.drop chunk.bytes.length
  let newlinePtr := CString.memchr recvBuf newline chunk.bytes.length
  let chunkLen := UInt64.ofNat (newlinePtr.elim chunk.bytes.length fun i ↦ i + 1)
  match ← reallocPtr c.heap granted c.messageBuf (c.totalLen + chunkLen + 1) with
  | (heap, none) =>
    let heap ← heap.freePtr c.messageBuf
    return ({ c with heap, recvBuf, receiving := false }, false)
  | (heap, some tempBuf) =>
    let heap ← heap.store tempBuf c.totalLen.toNat (recvBuf.take chunkLen.toNat)
    let totalLen := c.totalLen + chunkLen
    let heap ← heap.store tempBuf totalLen.toNat [0]
    return (⟨heap, recvBuf, some tempBuf, totalLen, newlinePtr.isNone⟩, true)

/-! ## What a pass does -/

/-- The buffer of a connection holds the message `msg` and a NUL. -/
structure Assembled (c : Connector) (msg : List UInt8) : Prop where
  length_recvBuf : c.recvBuf.length = bufferSize
  totalLen : c.totalLen.toNat = msg.length
  length_lt : msg.length < ptrdiffMax
  buf : (msg = [] ∧ c.messageBuf = none) ∨
    (msg ≠ [] ∧ ∃ p, c.messageBuf = some p ∧ c.heap.Holds p (msg ++ [0]))

theorem assembled_start : Assembled .start [] :=
  ⟨List.length_replicate, rfl, by decide, .inl ⟨rfl, rfl⟩⟩

section Pass

variable {c : Connector} {msg : List UInt8}

private theorem assemble_stores {heap : Heap UInt8} {p : ℕ} {cells : List (Option UInt8)}
    {line : List UInt8} (hc : heap.cells p = some cells)
    (htake : cells.take msg.length = msg.map some)
    (hlen : cells.length = msg.length + line.length + 1) :
    ∃ heap' heap'', heap.store p msg.length line = .ok heap' ∧
      heap'.store p (msg.length + line.length) [0] = .ok heap'' ∧
      heap''.Holds p (msg ++ line ++ [0]) := by
  have hroom : msg.length + line.length ≤ cells.length := by omega
  obtain ⟨heap', hstore, -, hself, -⟩ := Heap.store_of_cells hc hroom
  rw [htake] at hself
  have hfit : msg.length + line.length + [(0 : UInt8)].length
      ≤ (msg.map some ++ line.map some ++ cells.drop (msg.length + line.length)).length := by
    simp
    omega
  obtain ⟨heap'', hstore', -, hself', -⟩ := Heap.store_of_cells hself hfit
  refine ⟨heap', heap'', hstore, hstore', ?_⟩
  have hend : (msg.map some ++ line.map some ++ cells.drop (msg.length + line.length)).length
      ≤ msg.length + line.length + [(0 : UInt8)].length := by
    simp
    omega
  rw [Heap.Holds, hself', List.drop_of_length_le hend, List.append_nil,
    List.take_append_of_le_length (by simp), List.take_of_length_le (by simp), List.map_append,
    List.map_append]

/-- The block after a `realloc` that succeeded: it starts with the message, and has room for
the new bytes and a NUL. -/
private theorem reallocPtr_of_granted (h : Assembled c msg) {granted : Bool} {n : UInt64}
    {k : ℕ} (hn : n.toNat = msg.length + k + 1) (hk : 0 < k)
    (hgrant : granted = true ∧ n.toNat ≤ ptrdiffMax) :
    ∃ heap p cells, reallocPtr c.heap granted c.messageBuf n = .ok (heap, some p) ∧
      heap.cells p = some cells ∧ cells.take msg.length = msg.map some ∧
      cells.length = msg.length + k + 1 := by
  rcases h.buf with ⟨rfl, hnone⟩ | ⟨-, p, hp, hholds⟩
  · -- a `realloc` of `NULL` is a `malloc`
    refine ⟨(c.heap.malloc n.toNat).1, c.heap.next, List.replicate n.toNat none, ?_,
      Heap.place_cells_self .., rfl, by rw [List.length_replicate, hn]⟩
    simp only [reallocPtr, hnone, if_pos hgrant]
    rfl
  · obtain ⟨heap, hrealloc, -, -, hnew, -⟩ := Heap.realloc_of_holds hholds (n := n.toNat)
      (by rw [List.length_append, List.length_singleton]; omega)
    refine ⟨heap, _, _, by simp only [reallocPtr, hp, if_pos hgrant, hrealloc], hnew, ?_, ?_⟩
    · rw [List.map_append, List.append_assoc, List.take_append_of_le_length (by simp),
        List.take_of_length_le (by simp)]
    · simp
      omega

/-- The newline that a pass looks for is that of the chunk; the stale bytes behind the chunk are
out of its reach. -/
private theorem memchr_chunk (chunk : Chunk) (stale : List UInt8) :
    CString.memchr (chunk.bytes ++ stale) newline chunk.bytes.length
      = chunk.bytes.findIdx? fun b ↦ b == newline := by
  rw [CString.memchr, List.take_append_of_le_length le_rfl, List.take_length]

private theorem elim_findIdx? (xs : List UInt8) :
    ((xs.findIdx? fun b ↦ b == newline).elim xs.length fun i ↦ i + 1)
      = (firstRecord newline xs).length := by
  rw [firstRecord_eq_take, List.length_take]
  cases hidx : xs.findIdx? fun b ↦ b == newline with
  | none => exact (min_self _).symm
  | some i =>
    obtain ⟨hi, -⟩ := List.findIdx?_eq_some_iff_getElem.mp hidx
    exact (min_eq_left (Nat.succ_le_of_lt hi)).symm

private theorem take_firstRecord (xs ys : List UInt8) :
    (xs ++ ys).take (firstRecord newline xs).length = firstRecord newline xs := by
  rw [List.take_append_of_le_length (firstRecord_length_le xs), ← elim_findIdx?,
    ← firstRecord_eq_take]

private theorem Assembled.freePtr (h : Assembled c msg) :
    ∃ heap, c.heap.freePtr c.messageBuf = .ok heap := by
  rcases h.buf with ⟨-, hnone⟩ | ⟨-, p, hp, hholds⟩
  · exact ⟨c.heap, by rw [hnone, Heap.freePtr_none]⟩
  · obtain ⟨heap, hfree, -⟩ := Heap.free_of_live hholds.live
    exact ⟨heap, by rw [hp, Heap.freePtr_some, hfree]⟩

private theorem Assembled.toNat_lengths (h : Assembled c msg) {k : ℕ} (hk : k ≤ bufferSize) :
    (UInt64.ofNat k).toNat = k ∧ (c.totalLen + UInt64.ofNat k).toNat = msg.length + k ∧
      (c.totalLen + UInt64.ofNat k + 1).toNat = msg.length + k + 1 := by
  have hmsg := h.length_lt
  rw [bufferSize] at hk
  rw [ptrdiffMax] at hmsg
  have hone : (1 : UInt64).toNat = 1 := rfl
  have hlen : (UInt64.ofNat k).toNat = k := toNat_ofNat_of_lt (by omega)
  have hsum : (c.totalLen + UInt64.ofNat k).toNat = msg.length + k := by
    rw [toNat_add_of_lt (by rw [h.totalLen, hlen]; omega), h.totalLen, hlen]
  refine ⟨hlen, hsum, ?_⟩
  rw [toNat_add_of_lt (by rw [hsum, hone]; omega), hsum, hone]

/-- A pass whose `realloc` fails. The pointer still leads to the freed block, but nothing looks at
it in this loop again. -/
theorem receivePass_of_refused (h : Assembled c msg) (chunk : Chunk) {granted : Bool}
    (hrefused : ¬(granted = true ∧
      msg.length + (firstRecord newline chunk.bytes).length + 1 ≤ ptrdiffMax)) :
    ∃ heap recvBuf, c.heap.freePtr c.messageBuf = .ok heap ∧
      receivePass c chunk granted = .ok ({ c with heap, recvBuf, receiving := false }, false) := by
  have hle : (firstRecord newline chunk.bytes).length ≤ chunk.bytes.length :=
    firstRecord_length_le chunk.bytes
  obtain ⟨-, -, hn⟩ := h.toNat_lengths (hle.trans chunk.length_le)
  obtain ⟨heap, hfree⟩ := h.freePtr
  rw [← hn] at hrefused
  have hnull : reallocPtr c.heap granted c.messageBuf (c.totalLen
      + UInt64.ofNat (firstRecord newline chunk.bytes).length + 1) = .ok (c.heap, none) := by
    simp only [reallocPtr, if_neg hrefused]
  refine ⟨heap, chunk.bytes ++ c.recvBuf.drop chunk.bytes.length, hfree, ?_⟩
  simp only [receivePass, memchr_chunk, elim_findIdx?, hnull, ok_bind, hfree, pure_eq_ok]

/-- **One pass of the receive loop.** When `realloc` succeeds, the pass appends the first record of
the chunk, and the loop goes on exactly when there was no newline in it; otherwise the loop ends. -/
theorem receivePass_spec (h : Assembled c msg) (chunk : Chunk) (granted : Bool) :
    ∃ c' served, receivePass c chunk granted = .ok (c', served) ∧
      (served = true ↔ granted = true ∧
        msg.length + (firstRecord newline chunk.bytes).length + 1 ≤ ptrdiffMax) ∧
      (served = true → Assembled c' (msg ++ firstRecord newline chunk.bytes) ∧
        (c'.receiving = true ↔ newline ∉ chunk.bytes)) ∧
      (served = false → c'.receiving = false) := by
  by_cases hgrant : granted = true ∧
      msg.length + (firstRecord newline chunk.bytes).length + 1 ≤ ptrdiffMax
  swap
  · obtain ⟨heap, recvBuf, -, hpass⟩ := receivePass_of_refused h chunk hgrant
    exact ⟨_, false, hpass, iff_of_false Bool.false_ne_true hgrant, nofun, fun _ ↦ rfl⟩
  have hne : firstRecord newline chunk.bytes ≠ [] := firstRecord_ne_nil chunk.ne_nil
  have hpos := List.length_pos_of_ne_nil hne
  have hle : (firstRecord newline chunk.bytes).length ≤ chunk.bytes.length :=
    firstRecord_length_le chunk.bytes
  obtain ⟨hlen, hsum, hn⟩ := h.toNat_lengths (hle.trans chunk.length_le)
  obtain ⟨heap, p, cells, hrealloc, hcells, htake, hroom⟩ :=
    reallocPtr_of_granted h hn hpos (hn ▸ hgrant)
  obtain ⟨heap', heap'', hstore, hstore', hholds⟩ := assemble_stores hcells htake hroom
  simp only [receivePass, memchr_chunk, elim_findIdx?, hrealloc, ok_bind, hlen, take_firstRecord,
    h.totalLen, hstore, hsum, hstore', pure_eq_ok]
  refine ⟨_, true, rfl, iff_of_true rfl hgrant, fun _ ↦ ⟨⟨?_, ?_, ?_, ?_⟩, ?_⟩, nofun⟩
  · have hchunk := chunk.length_le
    rw [List.length_append, List.length_drop, h.length_recvBuf]
    omega
  · rw [hsum, List.length_append]
  · rw [List.length_append]
    omega
  · exact .inr ⟨by simp [hne], p, rfl, hholds⟩
  · rw [Option.isNone_iff_eq_none, List.findIdx?_eq_none_iff]
    simp only [beq_eq_false_iff_ne, ne_eq]
    exact ⟨fun hall hmem ↦ hall newline hmem rfl, fun hno b hb heq ↦ hno (heq ▸ hb)⟩

end Pass

/-! ## The memory of a connection -/

/-- The message buffer is the only block that is live. -/
def Connector.OnlyBuffer (c : Connector) : Prop := ∀ b, c.heap.Live b → c.messageBuf = some b

theorem onlyBuffer_start : Connector.start.OnlyBuffer := by
  intro b hb
  cases hb

section Memory

variable {c c' : Connector} {heap heap' : Heap UInt8} {b : ℕ}

theorem Connector.OnlyBuffer.not_live_of_freePtr (hc : c.OnlyBuffer)
    (hfree : c.heap.freePtr c.messageBuf = .ok heap) (b : ℕ) : ¬heap.Live b := by
  intro hb
  cases hbuf : c.messageBuf with
  | none =>
    rw [hbuf, Heap.freePtr_none] at hfree
    cases hfree
    have hnone := hc b hb
    rw [hbuf] at hnone
    cases hnone
  | some p =>
    rw [hbuf, Heap.freePtr_some] at hfree
    obtain ⟨hlive, hne⟩ := (Heap.live_of_free hfree).mp hb
    have hsome := hc b hlive
    rw [hbuf, Option.some.injEq] at hsome
    exact hne hsome.symm

private theorem Connector.OnlyBuffer.reallocPtr (hc : c.OnlyBuffer) {granted : Bool} {n : UInt64}
    {p : Option ℕ} (hrealloc : reallocPtr c.heap granted c.messageBuf n = .ok (heap, p)) :
    (p = none ∧ heap = c.heap) ∨ ∃ q, p = some q ∧ ∀ b, heap.Live b → b = q := by
  unfold Aesd.reallocPtr at hrealloc
  split at hrealloc
  swap
  · cases hrealloc
    exact .inl ⟨rfl, rfl⟩
  right
  split at hrealloc
  · rename_i hnone
    cases hrealloc
    refine ⟨_, rfl, fun b hb ↦ (Heap.live_place_iff.mp hb).resolve_right fun hlive ↦ ?_⟩
    have hsome := hc b hlive
    rw [hnone] at hsome
    cases hsome
  · rename_i q hq
    split at hrealloc
    · cases hrealloc
    · rename_i heap₁ q' hmove
      cases hrealloc
      refine ⟨q', rfl, fun b hb ↦ ((Heap.live_of_realloc hmove).mp hb).resolve_right ?_⟩
      rintro ⟨hlive, hne⟩
      have hsome := hc b hlive
      rw [hq, Option.some.injEq] at hsome
      exact hne hsome.symm

/-- A pass never holds a second block, and one whose `realloc` failed is the last and holds none. -/
theorem Connector.OnlyBuffer.receivePass (hc : c.OnlyBuffer) {chunk : Chunk} {granted served : Bool}
    (hpass : receivePass c chunk granted = .ok (c', served)) :
    (served = true → c'.OnlyBuffer) ∧
      (served = false → c'.receiving = false ∧ ∀ b, ¬c'.heap.Live b) := by
  rw [Aesd.receivePass] at hpass
  obtain ⟨⟨heap, p⟩, hrealloc, hpass⟩ := exists_of_bind_eq_ok hpass
  rcases hc.reallocPtr hrealloc with ⟨rfl, rfl⟩ | ⟨q, rfl, honly⟩
  · obtain ⟨heap, hfree, hpass⟩ := exists_of_bind_eq_ok hpass
    cases hpass
    exact ⟨nofun, fun _ ↦ ⟨rfl, hc.not_live_of_freePtr hfree⟩⟩
  · obtain ⟨heap', hstore, hpass⟩ := exists_of_bind_eq_ok hpass
    obtain ⟨heap'', hstore', hpass⟩ := exists_of_bind_eq_ok hpass
    cases hpass
    refine ⟨fun _ b hb ↦ ?_, nofun⟩
    rw [Heap.live_of_store hstore', Heap.live_of_store hstore] at hb
    exact congrArg some (honly b hb).symm

end Memory

end Aesd
