import Aesd.Ring.Basic
import Mathlib.Data.List.DropRight
import Mathlib.Data.List.Nodup

/-!
# What the circular buffer represents

The buffer stands for the list of its live entries, oldest first. Before it is full the read
offset is still at slot `0` and the write offset counts the entries; once it is full the two
offsets agree for ever. `WF` says exactly this, and it is the invariant the traversal macro relies
on: on other triples of offsets and flag its guard may never become false.

Under `WF` the traversal visits the live entries in order, each once (`foreach_eq_foldExit`), and
adding an entry appends it and drops the oldest one when there are already ten
(`addEntry_spec`). `ring_representation` puts the two together over every sequence of additions.

## Ranks and slots

An entry has a rank, counted from the oldest one, and a slot of the array. `slotOfRank` is the
rotation between the two, and `live` lists the entries by rank. Everything above this module speaks
of ranks only; the wrapping of offsets is dealt with here once and for all.
-/

namespace Aesd

open AesdCircularBuffer

theorem rtake_rtake_append {α : Type*} (l m : List α) (n : ℕ) :
    (l.rtake n ++ m).rtake n = (l ++ m).rtake n := by
  rw [List.rtake_eq_reverse_take_reverse, List.rtake_eq_reverse_take_reverse,
    List.rtake_eq_reverse_take_reverse, List.reverse_append, List.reverse_append,
    List.reverse_reverse, List.take_append, List.take_append, List.take_take]
  congr 3
  omega

namespace AesdCircularBuffer

/-- The offsets and the flag of a buffer that only ever had entries added. -/
structure WF (b : AesdCircularBuffer) : Prop where
  in_lt : b.inOffs < 10
  out_lt : b.outOffs < 10
  /-- A full buffer writes where it reads. -/
  in_eq_out : b.full = true → b.inOffs = b.outOffs
  /-- A buffer that is not full has never advanced its read offset. -/
  out_eq_zero : b.full = false → b.outOffs = 0

def liveCount (b : AesdCircularBuffer) : ℕ := if b.full then 10 else b.inOffs - b.outOffs

/-- The slot of the live entry of rank `i`, counted from the oldest. -/
def slotOfRank (b : AesdCircularBuffer) (i : ℕ) : Slot := slotAt (i + b.outOffs)

/-- The live entries, oldest first. -/
def live (b : AesdCircularBuffer) : List AesdBufferEntry :=
  (List.range b.liveCount).map fun i ↦ b.entry (b.slotOfRank i)

@[simp] theorem length_live (b : AesdCircularBuffer) : b.live.length = b.liveCount := by
  rw [live, List.length_map, List.length_range]

theorem getElem_live {b : AesdCircularBuffer} {i : ℕ} (hi : i < b.live.length) :
    b.live[i] = b.entry (b.slotOfRank i) := by
  simp [live]

theorem liveCount_of_full {b : AesdCircularBuffer} (h : b.full = true) : b.liveCount = 10 := by
  rw [liveCount, if_pos h]

theorem liveCount_of_not_full {b : AesdCircularBuffer} (hb : b.WF) (h : b.full = false) :
    b.liveCount = b.inOffs := by
  rw [liveCount, if_neg (by simp [h]), hb.out_eq_zero h, Nat.sub_zero]

theorem liveCount_le {b : AesdCircularBuffer} (hb : b.WF) : b.liveCount ≤ 10 := by
  cases h : b.full with
  | true => rw [liveCount_of_full h]
  | false => rw [liveCount_of_not_full hb h]; exact hb.in_lt.le

theorem liveCount_lt_of_not_full {b : AesdCircularBuffer} (hb : b.WF) (h : b.full = false) :
    b.liveCount < 10 := by
  rw [liveCount_of_not_full hb h]
  exact hb.in_lt

@[simp] theorem slotAt_val (k : ℕ) : (slotAt k).val = k % 10 := rfl

theorem slotAt_inj {j k : ℕ} (hjk : j ≤ k) (hk : k < j + 10) (h : slotAt j = slotAt k) :
    j = k := by
  have hv : j % 10 = k % 10 := congrArg Fin.val h
  omega

theorem nodup_slots (b : AesdCircularBuffer) (hb : b.WF) :
    ((List.range b.liveCount).map b.slotOfRank).Nodup := by
  have hle := liveCount_le hb
  refine List.Nodup.map_on (fun i hi j hj h ↦ ?_) List.nodup_range
  rw [List.mem_range] at hi hj
  rcases Nat.le_total i j with hij | hij
  · have := slotAt_inj (by omega) (by omega) h
    omega
  · have := slotAt_inj (by omega) (by omega) h.symm
    omega

end AesdCircularBuffer

/-! ## The traversal -/

section Foreach

variable {σ β : Type} {b : AesdCircularBuffer}

private theorem foreachPass_of_lt (hb : b.WF) (body : σ → ℕ → Slot → σ ⊕ β) (s : σ) {i : ℕ}
    (hi : i < b.liveCount) {pass : Bool} (hpass : b.full = true → i = 0 → pass = true) :
    foreachPass b body (i, pass, s) = match body s i (b.slotOfRank i) with
      | .inl s' => .ok (.inl ((i + 1) % 10, false, s'))
      | .inr r => .ok (.inr (.inr r)) := by
  have hguard : i + b.outOffs ≠ b.inOffs ∨ pass = true := by
    cases hf : b.full with
    | true =>
      rw [liveCount_of_full hf] at hi
      rw [← hb.in_eq_out hf]
      -- the offsets agree on the first visit only, and there the flag is still set
      by_cases h0 : i = 0
      · exact .inr (hpass hf h0)
      · exact .inl (by omega)
    | false =>
      rw [liveCount_of_not_full hb hf] at hi
      rw [hb.out_eq_zero hf]
      exact .inl (by omega)
  rw [foreachPass, if_pos hguard]
  rfl

private theorem foreachPass_of_end (hb : b.WF) (body : σ → ℕ → Slot → σ ⊕ β) (s : σ)
    {pass : Bool} (hpass : pass = false) :
    foreachPass b body (b.liveCount % 10, pass, s) = .ok (.inr (.inl s)) := by
  have hguard : ¬(b.liveCount % 10 + b.outOffs ≠ b.inOffs ∨ pass = true) := by
    rw [hpass]
    cases hf : b.full with
    | true => rw [liveCount_of_full hf, hb.in_eq_out hf]; simp
    | false =>
      rw [liveCount_of_not_full hb hf, hb.out_eq_zero hf, Nat.mod_eq_of_lt hb.in_lt]
      simp
  rw [foreachPass, if_neg hguard]

/-- The traversal from rank `i` on. The induction is on the number of entries left; the loop index
is the rank, except that it is back at `0` when a full buffer has been visited. -/
private theorem run_foreach (hb : b.WF) (body : σ → ℕ → Slot → σ ⊕ β) :
    ∀ (n : ℕ) {i fuel : ℕ} {pass : Bool} (s : σ), i + n = b.liveCount → n < fuel →
      (0 < n → b.full = true → i = 0 → pass = true) → (n = 0 → pass = false) →
      Loop.run .outOfFuel (foreachPass b body) fuel (i % 10, pass, s)
        = .ok (foldExit (fun s i ↦ body s i (b.slotOfRank i)) s (List.range' i n)) := by
  intro n
  induction n with
  | zero =>
    intro i fuel pass s hi hfuel _ hpass
    obtain ⟨fuel, rfl⟩ : ∃ f, fuel = f + 1 := ⟨fuel - 1, by omega⟩
    rw [show i = b.liveCount by omega, Loop.run_leave (foreachPass_of_end hb body s (hpass rfl))]
    rfl
  | succ n ih =>
    intro i fuel pass s hi hfuel hpass _
    have hle := liveCount_le hb
    obtain ⟨fuel, rfl⟩ : ∃ f, fuel = f + 1 := ⟨fuel - 1, by omega⟩
    have hstep := foreachPass_of_lt hb body s (by omega : i < b.liveCount) (hpass (by omega))
    rw [Nat.mod_eq_of_lt (by omega), List.range'_succ, foldExit_cons]
    cases hbody : body s i (b.slotOfRank i) with
    | inl s' =>
      rw [hbody] at hstep
      rw [Loop.run_next hstep, Sum.elim_inl]
      exact ih s' (by omega) (by omega) (fun _ _ h ↦ by omega) fun _ ↦ rfl
    | inr r =>
      rw [hbody] at hstep
      rw [Loop.run_leave hstep, Sum.elim_inr]

/-- **The traversal visits the live entries in order, each once, and ends.** -/
theorem foreach_eq_foldExit (hb : b.WF) (body : σ → ℕ → Slot → σ ⊕ β) {fuel : ℕ}
    (hfuel : b.liveCount < fuel) (s : σ) :
    aesdCircularBufferForeach b body fuel s
      = .ok (foldExit (fun s i ↦ body s i (b.slotOfRank i)) s (List.range b.liveCount)) := by
  rw [aesdCircularBufferForeach, List.range_eq_range']
  refine run_foreach hb body b.liveCount (i := 0) s (by omega) hfuel (fun _ h _ ↦ h) fun h ↦ ?_
  cases hf : b.full with
  | true => rw [liveCount_of_full hf] at h; omega
  | false => rfl

theorem liveCount_lt_foreachFuel (hb : b.WF) : b.liveCount < foreachFuel :=
  Nat.lt_succ_of_le (liveCount_le hb)

end Foreach

/-! ## Adding an entry -/

section AddEntry

variable {b : AesdCircularBuffer}

private theorem nextOffs_eq (k : ℕ) : nextOffs k = if 10 ≤ k + 1 then 0 else k + 1 := rfl

private theorem nextOffs_lt {k : ℕ} (h : k < 10) : nextOffs k < 10 := by
  rw [nextOffs_eq]
  split <;> omega

private theorem nextOffs_mod {k : ℕ} (h : k < 10) (i : ℕ) :
    (i + nextOffs k) % 10 = (i + 1 + k) % 10 := by
  rw [nextOffs_eq]
  split <;> omega

theorem wf_init : aesdCircularBufferInit.WF := by
  constructor <;> simp [aesdCircularBufferInit]

theorem live_init : aesdCircularBufferInit.live = [] := rfl

private theorem addEntry_full (hb : b.WF) (hf : b.full = true) (e : AesdBufferEntry) :
    ∃ b', aesdCircularBufferAddEntry b e = .ok b' ∧ b'.WF ∧ b'.full = true ∧
      b'.entry = Function.update b.entry (b.slotOfRank 0) e ∧ b'.live = b.live.tail ++ [e] := by
  have hin := hb.in_eq_out hf
  have hslot : (⟨b.inOffs, hb.in_lt⟩ : Slot) = b.slotOfRank 0 := by
    have hout := hb.out_lt
    apply Fin.ext
    rw [slotOfRank, slotAt_val]
    show b.inOffs = _
    omega
  refine ⟨⟨Function.update b.entry (b.slotOfRank 0) e, nextOffs b.inOffs, nextOffs b.outOffs,
    b.full⟩, ?_, ?_, hf, rfl, ?_⟩
  · rw [aesdCircularBufferAddEntry, dif_pos hb.in_lt, if_pos hf, hslot]
  · exact ⟨nextOffs_lt hb.in_lt, nextOffs_lt hb.out_lt, fun _ ↦ by rw [hin],
      fun h ↦ by simp [hf] at h⟩
  · have hcount := liveCount_of_full hf
    refine List.ext_getElem (by simp [liveCount, hf]) fun i hi hi' ↦ ?_
    have hi10 : i < 10 := by simpa [liveCount, hf] using hi
    have hrank : ∀ j, slotAt (j + nextOffs b.outOffs) = slotAt (j + 1 + b.outOffs) := fun j ↦
      Fin.ext (nextOffs_mod hb.out_lt j)
    rw [getElem_live]
    show Function.update b.entry (b.slotOfRank 0) e (slotAt (i + nextOffs b.outOffs)) = _
    rw [hrank]
    -- the entries kept move down by one rank, and the new entry has the last one
    by_cases h9 : i < 9
    · have hne : slotAt (i + 1 + b.outOffs) ≠ b.slotOfRank 0 := by
        intro h
        have := slotAt_inj (by omega) (by omega) h.symm
        omega
      rw [Function.update_of_ne hne, List.getElem_append_left (by simp [hcount]; omega),
        List.getElem_tail, getElem_live, slotOfRank]
    · have heq : slotAt (i + 1 + b.outOffs) = b.slotOfRank 0 := Fin.ext (by
        rw [slotOfRank, slotAt_val, slotAt_val]
        omega)
      rw [heq, Function.update_self, List.getElem_append_right (by simp [hcount]; omega),
        List.getElem_singleton]

private theorem addEntry_not_full (hb : b.WF) (hf : b.full = false) (e : AesdBufferEntry) :
    ∃ b', aesdCircularBufferAddEntry b e = .ok b' ∧ b'.WF ∧
      (b'.full = true ↔ b.liveCount = 9) ∧ b'.live = b.live ++ [e] := by
  have hout := hb.out_eq_zero hf
  have hin := hb.in_lt
  have hcount := liveCount_of_not_full hb hf
  have hold : ∀ i, i < b.inOffs → Function.update b.entry ⟨b.inOffs, hin⟩ e (slotAt i)
      = b.entry (b.slotOfRank i) := by
    intro i hi
    have hne : slotAt i ≠ ⟨b.inOffs, hin⟩ := by
      intro h
      have hv : i % 10 = b.inOffs := congrArg Fin.val h
      omega
    rw [Function.update_of_ne hne, slotOfRank, hout, Nat.add_zero]
  have hnew : Function.update b.entry ⟨b.inOffs, hin⟩ e (slotAt b.inOffs) = e := by
    rw [show slotAt b.inOffs = ⟨b.inOffs, hin⟩ from Fin.ext (Nat.mod_eq_of_lt hin),
      Function.update_self]
  have hlive : ∀ b' : AesdCircularBuffer, b'.outOffs = 0 → b'.liveCount = b.inOffs + 1 →
      b'.entry = Function.update b.entry ⟨b.inOffs, hin⟩ e → b'.live = b.live ++ [e] := by
    intro b' hout' hcount' hentry
    rw [live, live, hcount', hcount, List.range_succ, List.map_append, List.map_singleton, hentry,
      slotOfRank, hout', Nat.add_zero, hnew]
    congr 1
    apply List.map_congr_left
    intro i hi
    rw [slotOfRank, hout', Nat.add_zero, hold i (List.mem_range.mp hi)]
  by_cases h9 : b.inOffs = 9
  · -- the write offset wraps around and meets the read offset
    have hnext : nextOffs b.inOffs = 0 := by rw [h9]; rfl
    refine ⟨⟨Function.update b.entry ⟨b.inOffs, hin⟩ e, 0, b.outOffs, true⟩, ?_, ?_, ?_, ?_⟩
    · rw [aesdCircularBufferAddEntry, dif_pos hin, if_neg (by simp [hf]),
        if_pos (by rw [hnext, hout]), hnext]
    · exact ⟨by simp, hb.out_lt, fun _ ↦ hout.symm, fun h ↦ by simp at h⟩
    · rw [hcount]
      simp [h9]
    · exact hlive _ hout (by rw [liveCount, if_pos rfl, h9]) rfl
  · have hnext : nextOffs b.inOffs = b.inOffs + 1 := by rw [nextOffs_eq, if_neg (by omega)]
    refine ⟨⟨Function.update b.entry ⟨b.inOffs, hin⟩ e, b.inOffs + 1, b.outOffs, b.full⟩, ?_, ?_,
      ?_, ?_⟩
    · rw [aesdCircularBufferAddEntry, dif_pos hin, if_neg (by simp [hf]),
        if_neg (by rw [hnext, hout]; omega), hnext]
    · exact ⟨by simp; omega, hb.out_lt, fun h ↦ by simp [hf] at h, fun _ ↦ hout⟩
    · rw [hcount]
      simp [hf, h9]
    · exact hlive _ hout (by simp [liveCount, hf, hout]) rfl

/-- **Adding an entry appends it to the live entries and keeps the last ten.** When the buffer is
full the slot written is that of the oldest entry, and no other slot changes. -/
theorem addEntry_spec (hb : b.WF) (e : AesdBufferEntry) :
    ∃ b', aesdCircularBufferAddEntry b e = .ok b' ∧ b'.WF ∧ b'.live = (b.live ++ [e]).rtake 10 ∧
      (b'.full = true ↔ 9 ≤ b.liveCount) ∧
      (b.full = true → b'.entry = Function.update b.entry (b.slotOfRank 0) e) := by
  cases hf : b.full with
  | true =>
    obtain ⟨b', hadd, hwf, hfull, hentry, hlive⟩ := addEntry_full hb hf e
    have hcount := liveCount_of_full hf
    refine ⟨b', hadd, hwf, ?_, by simp [hfull, hcount], fun _ ↦ hentry⟩
    rw [hlive, List.rtake, List.length_append, length_live, hcount, List.length_singleton,
      List.drop_append_of_le_length (by simp [hcount]), List.drop_one]
  | false =>
    obtain ⟨b', hadd, hwf, hfull, hlive⟩ := addEntry_not_full hb hf e
    have hlt := liveCount_lt_of_not_full hb hf
    refine ⟨b', hadd, hwf, ?_, hfull.trans (by omega), fun h ↦ by simp at h⟩
    rw [hlive, List.rtake, List.length_append, length_live, List.length_singleton,
      show b.liveCount + 1 - 10 = 0 by omega, List.drop_zero]

end AddEntry

/-! ## Any number of additions -/

def addEntries (b : AesdCircularBuffer) (log : List AesdBufferEntry) :
    Except Fault AesdCircularBuffer :=
  log.foldlM aesdCircularBufferAddEntry b

theorem addEntries_init_spec (log : List AesdBufferEntry) :
    ∃ b, addEntries aesdCircularBufferInit log = .ok b ∧ b.WF ∧ b.live = log.rtake 10 ∧
      (b.full = true ↔ 10 ≤ log.length) := by
  induction log using List.reverseRecOn with
  | nil => exact ⟨_, rfl, wf_init, live_init, by simp [aesdCircularBufferInit]⟩
  | append_singleton log e ih =>
    obtain ⟨b, hb, hwf, hlive, hfull⟩ := ih
    obtain ⟨b', hb', hwf', hlive', hfull', -⟩ := addEntry_spec hwf e
    have hcount : b.liveCount = min log.length 10 := by
      rw [← length_live, hlive, List.rtake, List.length_drop]
      omega
    refine ⟨b', ?_, hwf', ?_, ?_⟩
    · rw [addEntries] at hb ⊢
      rw [List.foldlM_append, hb]
      show (aesdCircularBufferAddEntry b e >>= pure) = _
      rw [bind_pure, hb']
    · rw [hlive', hlive, rtake_rtake_append]
    · rw [hfull', hcount, List.length_append, List.length_singleton]
      omega

/-- A loop body that records each visit: the loop index, the slot and the entry. -/
def recordVisit (b : AesdCircularBuffer) (seen : List (ℕ × Slot × AesdBufferEntry)) (index : ℕ)
    (slot : Slot) : List (ℕ × Slot × AesdBufferEntry) ⊕ Empty :=
  .inl (seen ++ [(index, slot, b.entry slot)])

private theorem foreach_recordVisit {b : AesdCircularBuffer} (hb : b.WF) {fuel : ℕ}
    (hfuel : b.liveCount < fuel) :
    aesdCircularBufferForeach b (recordVisit b) fuel []
      = .ok (.inl ((List.range b.liveCount).map fun i ↦
          (i, b.slotOfRank i, b.entry (b.slotOfRank i)))) := by
  rw [foreach_eq_foldExit hb _ hfuel]
  simp only [recordVisit]
  rw [foldExit_eq_foldl, List.foldl_append_eq_append, List.nil_append, ← List.flatMap_def,
    ← List.map_eq_flatMap]

/-- **The ring represents the last ten entries.** After any sequence of additions the offsets are
in range, the flag says whether ten entries were added, the traversal ends after visiting the last
ten entries from oldest to newest, each slot once and with the rank as index, and an addition to
a full buffer overwrites the entry visited first and no other. -/
theorem ring_representation (log : List AesdBufferEntry) :
    ∃ b, addEntries aesdCircularBufferInit log = .ok b ∧
      b.inOffs < 10 ∧ b.outOffs < 10 ∧ (b.full = true ↔ 10 ≤ log.length) ∧
      ∃ visited : List (ℕ × Slot × AesdBufferEntry),
        (∀ fuel, min log.length 10 < fuel →
          aesdCircularBufferForeach b (recordVisit b) fuel [] = .ok (.inl visited)) ∧
        visited.map (fun v ↦ v.1) = List.range (min log.length 10) ∧
        (visited.map fun v ↦ v.2.1).Nodup ∧
        visited.map (fun v ↦ v.2.2) = log.rtake 10 ∧
        (b.full = true → ∀ e, ∃ b' oldest, aesdCircularBufferAddEntry b e = .ok b' ∧
          visited.head? = some (0, oldest, b.entry oldest) ∧
          b'.entry = Function.update b.entry oldest e) := by
  obtain ⟨b, hb, hwf, hlive, hfull⟩ := addEntries_init_spec log
  have hcount : b.liveCount = min log.length 10 := by
    rw [← length_live, hlive, List.rtake, List.length_drop]
    omega
  refine ⟨b, hb, hwf.in_lt, hwf.out_lt, hfull,
    (List.range b.liveCount).map fun i ↦ (i, b.slotOfRank i, b.entry (b.slotOfRank i)),
    fun fuel hfuel ↦ foreach_recordVisit hwf (by omega), ?_, ?_, ?_, fun hf e ↦ ?_⟩
  · rw [List.map_map, ← hcount]
    exact List.map_id _
  · rw [List.map_map]
    exact nodup_slots b hwf
  · rw [List.map_map, ← hlive]
    rfl
  · obtain ⟨b', hb', -, -, -, hentry⟩ := addEntry_spec hwf e
    refine ⟨b', b.slotOfRank 0, hb', ?_, hentry hf⟩
    rw [liveCount_of_full hf]
    rfl

end Aesd
