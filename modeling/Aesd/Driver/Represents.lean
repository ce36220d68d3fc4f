import Aesd.Driver.Basic
import Aesd.Ring.Lookup

/-!
# What the driver's memory represents

Seen from outside the driver stores a list of commands, oldest first, and the bytes of one command
that is not finished. `Represents d cmds part` says that the memory `d` stores the commands `cmds`
and the unfinished bytes `part`, which do not end in a newline: the live entries of the ring own
blocks that hold the commands, the entry structure owns a block that holds the unfinished bytes,
and all these blocks are live and different from each other and from the block of the structure
itself.

`commands` and `pendingBytes` read the stored commands and bytes back from the memory, and fail on
a dangling or unwritten block; on a represented state they give what it represents. So a memory
represents one thing at most (`Stores.unique`), and results can be stated with the two functions
alone.

## Two layers

`Stores` leaves out that the unfinished bytes do not end in a newline. It is what holds in the
middle of a write, between the copy of the payload and the newline test; `Represents` holds between
two calls. No entry that was stored is empty, and none is longer than the largest block that
`kmalloc` gives, so that the sizes of ten of them fit a `loff_t` (`Stores.total_lt`).
-/

namespace Aesd

open AesdCircularBuffer

namespace Driver

/-! ## Reading the contents back -/

def entryBytes (heap : Heap UInt8) (e : AesdBufferEntry) : Option (List UInt8) :=
  e.buffptr.bind fun p ↦ (heap.load p 0 e.size.toNat).toOption

def commands (d : Driver) : Option (List (List UInt8)) := d.ring.live.mapM (entryBytes d.heap)

def pendingBytes (d : Driver) : Option (List UInt8) :=
  match d.pending.buffptr with
  | none => if d.pending.size = 0 then some [] else none
  | some _ => entryBytes d.heap d.pending

/-- The blocks of the live ring entries. -/
def ringBlocks (d : Driver) : List ℕ := d.ring.live.filterMap AesdBufferEntry.buffptr

/-- Every block the driver refers to. -/
def blocks (d : Driver) : List ℕ :=
  d.dev.entry.toList ++ (d.pending.buffptr.toList ++ d.ringBlocks)

end Driver

/-! ## Entries that hold bytes -/

/-- Entry `e` owns a block that holds exactly the bytes `xs`, of which there is at least one. -/
structure Held (heap : Heap UInt8) (e : AesdBufferEntry) (xs : List UInt8) : Prop where
  holds : ∃ p, e.buffptr = some p ∧ heap.Holds p xs
  size_eq : e.size.toNat = xs.length
  ne_nil : xs ≠ []
  length_le : xs.length ≤ kmallocMaxSize

namespace Held

variable {heap heap' : Heap UInt8} {e : AesdBufferEntry} {xs : List UInt8}

theorem length_pos (h : Held heap e xs) : 0 < xs.length := List.length_pos_of_ne_nil h.ne_nil

theorem frame (h : Held heap e xs)
    (hcells : ∀ p, e.buffptr = some p → heap'.cells p = heap.cells p) : Held heap' e xs := by
  obtain ⟨p, hp, hholds⟩ := h.holds
  exact ⟨⟨p, hp, (hcells p hp).trans hholds⟩, h.size_eq, h.ne_nil, h.length_le⟩

theorem entryBytes_eq (h : Held heap e xs) : Driver.entryBytes heap e = some xs := by
  obtain ⟨p, hp, hholds⟩ := h.holds
  rw [Driver.entryBytes, hp, Option.bind_some, h.size_eq,
    Heap.load_of_holds hholds (by omega), List.drop_zero, List.take_length]
  rfl

theorem live {p : ℕ} (h : Held heap e xs) (hp : e.buffptr = some p) : heap.Live p := by
  obtain ⟨q, hq, hholds⟩ := h.holds
  rw [hp, Option.some.injEq] at hq
  exact hq ▸ hholds.live

end Held

section Lists

variable {heap : Heap UInt8} {es : List AesdBufferEntry} {cmds : List (List UInt8)}

theorem sizes_of_held (h : List.Forall₂ (Held heap) es cmds) :
    es.map (fun e ↦ e.size.toNat) = cmds.map List.length := by
  induction h with
  | nil => rfl
  | cons he _ ih => rw [List.map_cons, List.map_cons, he.size_eq, ih]

theorem mapM_entryBytes_of_held (h : List.Forall₂ (Held heap) es cmds) :
    es.mapM (Driver.entryBytes heap) = some cmds := by
  induction h with
  | nil => rfl
  | cons he _ ih => rw [List.mapM_cons, he.entryBytes_eq, ih]; rfl

theorem frame_of_held {heap' : Heap UInt8} (h : List.Forall₂ (Held heap) es cmds)
    (hcells : ∀ p ∈ es.filterMap AesdBufferEntry.buffptr, heap'.cells p = heap.cells p) :
    List.Forall₂ (Held heap') es cmds := by
  induction h with
  | nil => exact .nil
  | @cons e xs es cmds he hes ih =>
    have htail : ∀ p ∈ es.filterMap AesdBufferEntry.buffptr, heap'.cells p = heap.cells p :=
      fun p hp ↦ hcells p (by
        obtain ⟨e', he', hp'⟩ := List.mem_filterMap.mp hp
        exact List.mem_filterMap.mpr ⟨e', List.mem_cons_of_mem e he', hp'⟩)
    refine .cons (he.frame fun p hp ↦ hcells p ?_) (ih htail)
    exact List.mem_filterMap.mpr ⟨e, List.mem_cons_self, hp⟩

theorem sum_lengths_le (h : List.Forall₂ (Held heap) es cmds) :
    (cmds.map List.length).sum ≤ cmds.length * kmallocMaxSize := by
  induction h with
  | nil => simp
  | cons he _ ih =>
    rw [List.map_cons, List.sum_cons, List.length_cons, Nat.succ_mul]
    have := he.length_le
    omega

end Lists

/-! ## Representation -/

/-- What the entry structure holds: nothing, with `NULL` and size `0`, or an unfinished command. -/
def PendingHeld (heap : Heap UInt8) (e : AesdBufferEntry) (part : List UInt8) : Prop :=
  (part = [] ∧ e = ⟨none, 0⟩) ∨ Held heap e part

/-- Memory `d` stores the commands `cmds`, oldest first, and the bytes `part` in the entry
structure. -/
structure Stores (d : Driver) (cmds : List (List UInt8)) (part : List UInt8) : Prop where
  wf : d.ring.WF
  held : List.Forall₂ (Held d.heap) d.ring.live cmds
  pending : PendingHeld d.heap d.pending part
  /-- The entry structure is allocated. -/
  entry : ∃ p, d.dev.entry = some p ∧ d.heap.Live p
  /-- No block is referred to twice. -/
  nodup : d.blocks.Nodup

/-- Memory `d` represents the commands `cmds` and the unfinished command `part`: it stores them,
and `part` does not end a command. -/
structure Represents (d : Driver) (cmds : List (List UInt8)) (part : List UInt8) : Prop
    extends Stores d cmds part where
  part_open : part.getLast? ≠ some newline

namespace PendingHeld

variable {heap : Heap UInt8} {e : AesdBufferEntry} {part : List UInt8}

theorem size_eq (h : PendingHeld heap e part) : e.size.toNat = part.length := by
  rcases h with ⟨rfl, rfl⟩ | h
  · rfl
  · exact h.size_eq

theorem length_le (h : PendingHeld heap e part) : part.length ≤ kmallocMaxSize := by
  rcases h with ⟨rfl, -⟩ | h
  · exact Nat.zero_le _
  · exact h.length_le

theorem buffptr_eq_none_iff (h : PendingHeld heap e part) : e.buffptr = none ↔ part = [] := by
  rcases h with ⟨rfl, rfl⟩ | h
  · simp
  · obtain ⟨p, hp, -⟩ := h.holds
    simp [hp, h.ne_nil]

theorem live {p : ℕ} (h : PendingHeld heap e part) (hp : e.buffptr = some p) : heap.Live p := by
  rcases h with ⟨-, rfl⟩ | h
  · cases hp
  · exact h.live hp

end PendingHeld

namespace Stores

variable {d : Driver} {cmds : List (List UInt8)} {part : List UInt8}

theorem sizes_eq (h : Stores d cmds part) : d.ring.sizes = cmds.map List.length :=
  sizes_of_held h.held

theorem length_eq (h : Stores d cmds part) : cmds.length = d.ring.liveCount := by
  rw [← h.held.length_eq, length_live]

theorem total_eq (h : Stores d cmds part) : d.ring.total = (cmds.map List.length).sum := by
  rw [AesdCircularBuffer.total, h.sizes_eq]

/-- The stored bytes fit a `loff_t` with room to spare. -/
theorem total_lt (h : Stores d cmds part) : d.ring.total < 2 ^ 62 := by
  have hsum := sum_lengths_le h.held
  have hlen := h.length_eq ▸ liveCount_le h.wf
  have hmul := Nat.mul_le_mul_right kmallocMaxSize hlen
  rw [h.total_eq]
  rw [kmallocMaxSize] at hsum hmul
  omega

theorem commands_eq (h : Stores d cmds part) : d.commands = some cmds :=
  mapM_entryBytes_of_held h.held

theorem pendingBytes_eq (h : Stores d cmds part) : d.pendingBytes = some part := by
  rw [Driver.pendingBytes]
  rcases h.pending with ⟨rfl, he⟩ | hp
  · rw [he]
    rfl
  · obtain ⟨p, hbuf, -⟩ := hp.holds
    rw [hbuf]
    exact hp.entryBytes_eq

theorem mem_ringBlocks_live (h : Stores d cmds part) {p : ℕ} (hp : p ∈ d.ringBlocks) :
    d.heap.Live p := by
  obtain ⟨e, he, hbuf⟩ := List.mem_filterMap.mp hp
  obtain ⟨i, hi, rfl⟩ := List.getElem_of_mem he
  exact (h.held.get hi (h.held.length_eq ▸ hi)).live hbuf

theorem live_of_mem_blocks (h : Stores d cmds part) {p : ℕ} (hp : p ∈ d.blocks) :
    d.heap.Live p := by
  obtain ⟨q, hq, hlive⟩ := h.entry
  rw [Driver.blocks, List.mem_append, List.mem_append, hq] at hp
  rcases hp with hp | hp | hp
  · rw [Option.toList_some, List.mem_singleton] at hp
    exact hp ▸ hlive
  · exact h.pending.live (Option.mem_toList.mp hp)
  · exact h.mem_ringBlocks_live hp

theorem nodup_ringBlocks (h : Stores d cmds part) : d.ringBlocks.Nodup :=
  (List.nodup_append.mp (List.nodup_append.mp h.nodup).2.1).2.1

theorem pending_ne (h : Stores d cmds part) {i : ℕ} (hi : i ∈ d.ringBlocks) :
    d.pending.buffptr ≠ some i := by
  intro hbuf
  have hdisj := (List.nodup_append.mp (List.nodup_append.mp h.nodup).2.1).2.2
  exact hdisj i (by rw [hbuf]; simp) i hi rfl

theorem entry_ne (h : Stores d cmds part) {i : ℕ}
    (hi : d.pending.buffptr = some i ∨ i ∈ d.ringBlocks) : d.dev.entry ≠ some i := by
  intro hentry
  have hdisj := (List.nodup_append.mp h.nodup).2.2
  refine hdisj i (by rw [hentry]; simp) i ?_ rfl
  rwa [List.mem_append, Option.mem_toList]

/-- A memory determines what it stores. -/
theorem unique {cmds' : List (List UInt8)} {part' : List UInt8} (h : Stores d cmds part)
    (h' : Stores d cmds' part') : cmds = cmds' ∧ part = part' :=
  ⟨Option.some.inj (h.commands_eq.symm.trans h'.commands_eq),
    Option.some.inj (h.pendingBytes_eq.symm.trans h'.pendingBytes_eq)⟩

theorem entryStruct_eq (h : Stores d cmds part) : d.entryStruct = .ok d.pending := by
  obtain ⟨p, hp, hlive⟩ := h.entry
  rw [Driver.entryStruct, hp]
  simp [hlive]

theorem held_of_rank (h : Stores d cmds part) {i : ℕ} (hi : i < cmds.length) :
    Held d.heap (d.ring.entry (d.ring.slotOfRank i)) cmds[i] := by
  have hi' : i < d.ring.live.length := h.held.length_eq ▸ hi
  rw [← getElem_live hi']
  exact h.held.get hi' hi

end Stores

end Aesd
