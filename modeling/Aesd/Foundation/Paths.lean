import Aesd.Foundation.FileTree
import Mathlib.Data.List.DropRight

/-!
# Paths

A path is walked a byte at a time, from the root or from the working directory. The calls are those
by which a program looks at a path and makes directories and files.

## The walk

The state of the walk is the directory that was reached and the part of the next name that was
read. A slash after a part of a name goes into that directory, a slash after another one changes
nothing, and the end of the path leaves the last name to the call. Walking byte by byte rather than
name by name is what makes the results about prefixes short: a program that cuts its path at a slash
walks a prefix of it (`exists_walk_of_append`).

## Making directories

`mkdirs` says what it means to make every directory that a path names: it walks the path and makes
what is missing. It goes wrong only where something that is not a directory is in the way. What it
makes is there afterwards, and nothing else is new (`stat_of_mkdirs`).
-/

namespace Aesd

def slash : UInt8 := 47

namespace FileTree

inductive Error
  | enoent
  | eexist
  | enotdir
  | eisdir
  deriving DecidableEq

variable (fs : FileTree)

/-- Where a walk goes at a slash: the name before it has to be that of a directory. -/
def descend (n : ℕ) (name : List UInt8) : Except Error ℕ :=
  if name = [] then .ok n
  else
    match fs.entry n name with
    | none => .error .enoent
    | some m => if fs.isDir m then .ok m else .error .enotdir

/-- Walk a path from a directory and the part of a name that was read. -/
def walk : ℕ × List UInt8 → List UInt8 → Except Error (ℕ × List UInt8)
  | st, [] => .ok st
  | (n, name), b :: path =>
    if b = slash then
      match fs.descend n name with
      | .error e => .error e
      | .ok m => walk (m, []) path
    else walk (n, name ++ [b]) path

/-- Where the walk of a path starts. -/
def start (path : List UInt8) : ℕ × List UInt8 :=
  (if path.head? = some slash then fs.root else fs.cwd, [])

/-- `stat`: the inode that a path leads to. -/
def stat (path : List UInt8) : Except Error ℕ :=
  if path = [] then .error .enoent
  else
    match fs.walk (fs.start path) path with
    | .error e => .error e
    | .ok (n, name) =>
      if name = [] then .ok n
      else
        match fs.entry n name with
        | none => .error .enoent
        | some m => .ok m

/-- `mkdir`, for which slashes at the end of a path mean nothing. -/
def mkdir (path : List UInt8) : Except Error FileTree :=
  if path = [] then .error .enoent
  else
    match fs.walk (fs.start path) (path.rdropWhile fun b ↦ b == slash) with
    | .error e => .error e
    | .ok (n, name) =>
      if name = [] then .error .eexist
      else
        match fs.entry n name with
        | none => .ok (fs.addDir n name)
        | some _ => .error .eexist

/-- `fopen` for writing: the file is made if there is none, and emptied otherwise. -/
def fopenWrite (path : List UInt8) : Except Error (FileTree × ℕ) :=
  if path = [] then .error .enoent
  else
    match fs.walk (fs.start path) path with
    | .error e => .error e
    | .ok (n, name) =>
      if name = [] then .error .eisdir
      else
        match fs.entry n name with
        | none => .ok (fs.addFile n name, fs.next)
        | some m => if fs.isDir m then .error .eisdir else .ok (fs.setContents m [], m)

/-- Walk a path and make the directories in it that are missing. -/
def mkdirs : FileTree → ℕ × List UInt8 → List UInt8 → Option (FileTree × ℕ × List UInt8)
  | fs, st, [] => some (fs, st)
  | fs, (n, name), b :: path =>
    if b = slash then
      if name = [] then mkdirs fs (n, []) path
      else
        match fs.entry n name with
        | none => mkdirs (fs.addDir n name) (fs.next, []) path
        | some m => if fs.isDir m then mkdirs fs (m, []) path else none
    else mkdirs fs (n, name ++ [b]) path

/-! ## Walks -/

section Walk

variable {fs} {fs' : FileTree} {st st' : ℕ × List UInt8} {path path' : List UInt8} {n m : ℕ}
  {name : List UInt8}

theorem walk_append (fs : FileTree) (st : ℕ × List UInt8) (path path' : List UInt8) :
    fs.walk st (path ++ path') = match fs.walk st path with
      | .error e => .error e
      | .ok st' => fs.walk st' path' := by
  induction path generalizing st with
  | nil => rfl
  | cons b path ih =>
    rw [List.cons_append, walk, walk]
    split
    · split
      · rfl
      · exact ih _
    · exact ih _

theorem exists_walk_of_append (h : fs.walk st (path ++ path') = .ok st') :
    ∃ st₁, fs.walk st path = .ok st₁ ∧ fs.walk st₁ path' = .ok st' := by
  rw [walk_append] at h
  split at h
  · cases h
  · rename_i st₁ hwalk
    exact ⟨st₁, hwalk, h⟩

theorem descend_eq_ok (h : fs.descend n name = .ok m) :
    (name = [] ∧ m = n) ∨ (name ≠ [] ∧ fs.entry n name = some m ∧ fs.isDir m = true) := by
  rw [descend] at h
  split at h
  · rename_i hnil
    cases h
    exact .inl ⟨hnil, rfl⟩
  · rename_i hne
    split at h
    · cases h
    · rename_i hm
      split at h
      · rename_i hdir
        cases h
        exact .inr ⟨hne, hm, hdir⟩
      · cases h

theorem descend_of_entry (hne : name ≠ []) (hm : fs.entry n name = some m)
    (hdir : fs.isDir m = true) : fs.descend n name = .ok m := by
  simp only [descend, if_neg hne, hm, hdir, if_true]

theorem Extends.descend (h : Extends fs fs') (hm : fs.descend n name = .ok m) :
    fs'.descend n name = .ok m := by
  rcases descend_eq_ok hm with ⟨rfl, rfl⟩ | ⟨hne, hentry, hdir⟩
  · rw [FileTree.descend, if_pos rfl]
  · exact descend_of_entry hne (h.entry hentry) (h.isDir hdir)

theorem walk_cons_eq_ok {b : UInt8} (h : fs.walk (n, name) (b :: path) = .ok st') :
    (b = slash ∧ ∃ m, fs.descend n name = .ok m ∧ fs.walk (m, []) path = .ok st') ∨
      (b ≠ slash ∧ fs.walk (n, name ++ [b]) path = .ok st') := by
  rw [walk] at h
  split at h
  · rename_i hb
    split at h
    · cases h
    · rename_i m hm
      exact .inl ⟨hb, m, hm, h⟩
  · rename_i hb
    exact .inr ⟨hb, h⟩

theorem walk_slash (h : fs.descend n name = .ok m) (path : List UInt8) :
    fs.walk (n, name) (slash :: path) = fs.walk (m, []) path := by
  rw [walk, if_pos rfl, h]

theorem isDir_of_walk (h : fs.walk st path = .ok st') (hst : fs.isDir st.1 = true) :
    fs.isDir st'.1 = true := by
  induction path generalizing st with
  | nil =>
    cases h
    exact hst
  | cons b path ih =>
    obtain ⟨n, name⟩ := st
    rcases walk_cons_eq_ok h with ⟨-, m, hm, hrest⟩ | ⟨-, hrest⟩
    · apply ih hrest
      rcases descend_eq_ok hm with ⟨-, rfl⟩ | ⟨-, -, hdir⟩
      · exact hst
      · exact hdir
    · exact ih hrest hst

theorem Extends.walk (h : Extends fs fs') (hwalk : fs.walk st path = .ok st') :
    fs'.walk st path = .ok st' := by
  induction path generalizing st with
  | nil => exact hwalk
  | cons b path ih =>
    obtain ⟨n, name⟩ := st
    rcases walk_cons_eq_ok hwalk with ⟨rfl, m, hm, hrest⟩ | ⟨hb, hrest⟩
    · rw [walk_slash (h.descend hm), ih hrest]
    · rw [FileTree.walk, if_neg hb, ih hrest]

theorem walk_of_not_mem (hno : slash ∉ path) (st : ℕ × List UInt8) :
    fs.walk st path = .ok (st.1, st.2 ++ path) := by
  induction path generalizing st with
  | nil => rw [walk, List.append_nil]
  | cons b path ih =>
    rw [List.mem_cons, not_or] at hno
    rw [walk, if_neg (Ne.symm hno.1), ih hno.2, List.append_assoc, List.singleton_append]

theorem walk_concat_slash (h : fs.walk st (path ++ [slash]) = .ok st') : st'.2 = [] := by
  obtain ⟨⟨n, name⟩, -, hlast⟩ := exists_walk_of_append h
  rcases walk_cons_eq_ok hlast with ⟨-, m, -, hrest⟩ | ⟨hb, -⟩
  · cases hrest
    rfl
  · exact absurd rfl hb

theorem isDir_start (fs : FileTree) (path : List UInt8) : fs.isDir (fs.start path).1 = true := by
  rw [start]
  split
  · exact isDir_iff.mpr fs.root_dir
  · exact isDir_iff.mpr fs.cwd_dir

theorem Extends.start_eq (h : Extends fs fs') (path : List UInt8) :
    fs'.start path = fs.start path := by
  rw [start, start, h.root, h.cwd]

theorem start_append (fs : FileTree) (hne : path ≠ []) (path' : List UInt8) :
    fs.start (path ++ path') = fs.start path := by
  rw [start, start, List.head?_append_of_ne_nil _ hne]

theorem stat_eq_ok_iff : fs.stat path = .ok m ↔ path ≠ [] ∧
    ∃ n name, fs.walk (fs.start path) path = .ok (n, name) ∧
      ((name = [] ∧ m = n) ∨ (name ≠ [] ∧ fs.entry n name = some m)) := by
  constructor
  · intro h
    rw [stat] at h
    split at h
    · cases h
    rename_i hne
    split at h
    · cases h
    rename_i n name hwalk
    refine ⟨hne, n, name, hwalk, ?_⟩
    split at h
    · rename_i hnil
      cases h
      exact .inl ⟨hnil, rfl⟩
    · rename_i hname
      split at h
      · cases h
      · rename_i hentry
        cases h
        exact .inr ⟨hname, hentry⟩
  · rintro ⟨hne, n, name, hwalk, hlast⟩
    rw [stat, if_neg hne, hwalk]
    rcases hlast with ⟨rfl, rfl⟩ | ⟨hname, hentry⟩
    · rfl
    · simp only [if_neg hname, hentry]

theorem walk_concat_slash_iff (hne : path ≠ []) :
    fs.walk (fs.start path) (path ++ [slash]) = .ok (m, []) ↔
      fs.stat path = .ok m ∧ fs.isDir m = true := by
  rw [stat_eq_ok_iff]
  constructor
  · intro h
    obtain ⟨⟨n, name⟩, hwalk, hlast⟩ := exists_walk_of_append h
    have hdir := isDir_of_walk hwalk (isDir_start fs path)
    rcases walk_cons_eq_ok hlast with ⟨-, m', hm, hrest⟩ | ⟨hb, -⟩
    · cases hrest
      rcases descend_eq_ok hm with ⟨rfl, rfl⟩ | ⟨hname, hentry, hdir'⟩
      · exact ⟨⟨hne, m, [], hwalk, .inl ⟨rfl, rfl⟩⟩, hdir⟩
      · exact ⟨⟨hne, n, name, hwalk, .inr ⟨hname, hentry⟩⟩, hdir'⟩
    · exact absurd rfl hb
  · rintro ⟨⟨-, n, name, hwalk, hlast⟩, hdir⟩
    have hdescend : fs.descend n name = .ok m := by
      rcases hlast with ⟨rfl, rfl⟩ | ⟨hname, hentry⟩
      · rw [descend, if_pos rfl]
      · exact descend_of_entry hname hentry hdir
    rw [walk_append, hwalk]
    dsimp only
    rw [walk_slash hdescend, walk]

theorem Extends.stat (h : Extends fs fs') (hm : fs.stat path = .ok m) : fs'.stat path = .ok m := by
  rw [stat_eq_ok_iff] at hm ⊢
  obtain ⟨hne, n, name, hwalk, hlast⟩ := hm
  refine ⟨hne, n, name, ?_, hlast.imp_right fun hand ↦ ⟨hand.1, h.entry hand.2⟩⟩
  rw [h.start_eq]
  exact h.walk hwalk

theorem extends_mkdir (h : fs.mkdir path = .ok fs') : Extends fs fs' := by
  rw [mkdir] at h
  split at h
  · cases h
  split at h
  · cases h
  rename_i n name hwalk
  split at h
  · cases h
  split at h
  · rename_i hnone
    have hn : fs.isDir n = true := by
      apply isDir_of_walk hwalk
      exact isDir_start fs path
    obtain rfl := Except.ok.inj h
    exact extends_addDir hn hnone
  · cases h

theorem contents_mkdir (h : fs.mkdir path = .ok fs') : fs'.contents = fs.contents := by
  rw [mkdir] at h
  split at h
  · cases h
  split at h
  · cases h
  rename_i n name hwalk
  split at h
  · cases h
  split at h
  · obtain rfl := Except.ok.inj h
    exact contents_addDir (isDir_of_walk hwalk (isDir_start fs path))
  · cases h

theorem exists_fopenWrite_iff (hne : path ≠ [])
    (hwalk : fs.walk (fs.start path) path = .ok (n, name)) :
    (∃ fs' m, fs.fopenWrite path = .ok (fs', m)) ↔
      name ≠ [] ∧ ∀ i, fs.entry n name = some i → fs.isDir i = false := by
  rw [fopenWrite, if_neg hne, hwalk]
  by_cases hname : name = []
  · simp [hname]
  rcases hentry : fs.entry n name with _ | i
  · simp [hname, hentry]
  · rcases hdir : fs.isDir i with _ | _
    · simp [hname, hentry, hdir]
    · simp [hname, hentry, hdir]

/-- **Opening for writing.** The path leads to the file, which is empty, and no directory is new. -/
theorem fopenWrite_spec (h : fs.fopenWrite path = .ok (fs', m)) :
    Extends fs fs' ∧ fs'.stat path = .ok m ∧ fs'.contents m = some [] ∧
      ∀ i, fs'.isDir i = fs.isDir i := by
  rw [fopenWrite] at h
  split at h
  · cases h
  rename_i hne
  split at h
  · cases h
  rename_i n name hwalk
  have hn : fs.isDir n = true := isDir_of_walk hwalk (isDir_start fs path)
  split at h
  · cases h
  rename_i hname
  -- in both cases the directory that the path leads to has an entry for the file
  have hstat : Extends fs fs' → fs'.entry n name = some m → fs'.stat path = .ok m := by
    intro hext hentry
    rw [stat_eq_ok_iff, hext.start_eq]
    exact ⟨hne, n, name, hext.walk hwalk, .inr ⟨hname, hentry⟩⟩
  split at h
  · rename_i hnone
    obtain ⟨rfl, rfl⟩ := Prod.mk.inj (Except.ok.inj h)
    have hext := extends_addFile hn hnone
    have hnew : n ≠ fs.next := by
      rintro rfl
      rw [(not_used_next fs).1] at hn
      cases hn
    refine ⟨hext, hstat hext ?_, ?_, fun i ↦ ?_⟩
    · rw [addFile, entry_add hn, if_neg hnew, if_pos ⟨rfl, rfl⟩]
    · rw [addFile, contents_add hn, if_pos rfl, Inode.contents]
    · rw [addFile, isDir_add hn]
      split
      · rename_i hi
        rw [hi, (not_used_next fs).1, Inode.isDir]
      · rfl
  · rename_i i hentry
    split at h
    · cases h
    rename_i hdir
    rw [Bool.not_eq_true] at hdir
    obtain ⟨rfl, rfl⟩ := Prod.mk.inj (Except.ok.inj h)
    have hfile := isSome_contents_of_entry hentry hdir
    have hext := @extends_setContents _ _ [] hfile
    refine ⟨hext, hstat hext (hext.entry hentry), ?_, isDir_setContents hfile⟩
    rw [contents_setContents hfile, if_pos rfl]

theorem contents_fopenWrite (h : fs.fopenWrite path = .ok (fs', m)) :
    fs'.contents = Function.update fs.contents m (some []) := by
  rw [fopenWrite] at h
  split at h
  · cases h
  split at h
  · cases h
  rename_i n name hwalk
  split at h
  · cases h
  split at h
  · obtain ⟨rfl, rfl⟩ := Prod.mk.inj (Except.ok.inj h)
    exact contents_addFile (isDir_of_walk hwalk (isDir_start fs path))
  · rename_i i hentry
    split at h
    · cases h
    rename_i hdir
    rw [Bool.not_eq_true] at hdir
    obtain ⟨rfl, rfl⟩ := Prod.mk.inj (Except.ok.inj h)
    funext j
    rw [contents_setContents (isSome_contents_of_entry hentry hdir), Function.update_apply]

theorem fopenWrite_of_stat (hstat : fs.stat path = .ok m) (hfile : (fs.contents m).isSome = true) :
    (∃ st, fs.walk (fs.start path) path = .ok st) ∧
      fs.fopenWrite path = .ok (fs.setContents m [], m) := by
  obtain ⟨hne, n, name, hwalk, hlast⟩ := stat_eq_ok_iff.mp hstat
  have hdir := isDir_of_contents hfile
  refine ⟨⟨_, hwalk⟩, ?_⟩
  rcases hlast with ⟨-, rfl⟩ | ⟨hname, hentry⟩
  · have hn := isDir_of_walk hwalk (isDir_start fs path)
    rw [hdir] at hn
    exact absurd hn Bool.false_ne_true
  · rw [fopenWrite, if_neg hne, hwalk]
    simp only [if_neg hname, hentry, hdir, Bool.false_eq_true, if_false]

end Walk

/-! ## Making directories -/

section Mkdirs

variable {fs} {fs' : FileTree} {st st' : ℕ × List UInt8} {path : List UInt8} {n : ℕ}
  {name : List UInt8}

theorem descend_addDir (hn : fs.isDir n = true) (hname : name ≠ [])
    (hnone : fs.entry n name = none) :
    (fs.addDir n name).descend n name = .ok fs.next := by
  have hne : n ≠ fs.next := by
    rintro rfl
    rw [(not_used_next fs).1] at hn
    cases hn
  apply descend_of_entry hname
  · rw [addDir, entry_add hn, if_neg hne, if_pos ⟨rfl, rfl⟩]
  · rw [addDir, isDir_add hn, if_pos rfl, Inode.isDir]

theorem mkdir_of_entry (hne : path ≠ []) (hwalk : fs.walk (fs.start path) path = .ok (n, name))
    (hname : name ≠ []) : fs.mkdir path = match fs.entry n name with
      | none => .ok (fs.addDir n name)
      | some _ => .error .eexist := by
  have hstrip : (path.rdropWhile fun b ↦ b == slash) = path := by
    rw [List.rdropWhile_eq_self_iff]
    intro hl hlast
    rw [← List.dropLast_append_getLast hl, beq_iff_eq.mp hlast] at hwalk
    exact hname (walk_concat_slash hwalk)
  rw [mkdir, if_neg hne, hstrip, hwalk]
  simp only [if_neg hname]

private theorem named_cons {st₁ : ℕ × List UInt8} {b : UInt8} {i : ℕ}
    (hstep : ∀ q, fs.walk st (b :: q) = fs.walk st₁ q)
    (h : ∃ p, (p ++ [slash]).IsPrefix path ∧ fs.walk st₁ (p ++ [slash]) = .ok (i, [])) :
    ∃ p, (p ++ [slash]).IsPrefix (b :: path) ∧ fs.walk st (p ++ [slash]) = .ok (i, []) := by
  obtain ⟨p, hp, hwalk⟩ := h
  refine ⟨b :: p, ?_, ?_⟩
  · rw [List.cons_append, List.cons_prefix_cons]
    exact ⟨rfl, hp⟩
  · rw [List.cons_append, hstep, hwalk]

/-- Where `mkdirs` goes past the first byte: at a slash it enters a directory, which is there
already or is made. -/
private theorem mkdirs_cons_eq_some {b : UInt8} (hn : fs.isDir n = true)
    (h : fs.mkdirs (n, name) (b :: path) = some (fs', st')) :
    (b ≠ slash ∧ fs.mkdirs (n, name ++ [b]) path = some (fs', st')) ∨
      (b = slash ∧ ∃ fs₁ m, Extends fs fs₁ ∧ fs₁.descend n name = .ok m ∧ fs₁.isDir m = true ∧
        (∀ i, fs₁.isDir i = true → fs.isDir i = true ∨ i = m) ∧
        fs₁.mkdirs (m, []) path = some (fs', st')) := by
  rw [mkdirs] at h
  split at h
  swap
  · rename_i hb
    exact .inl ⟨hb, h⟩
  rename_i hb
  refine .inr ⟨hb, ?_⟩
  split at h
  · rename_i hname
    exact ⟨fs, n, .refl fs, if_pos hname, hn, fun i hi ↦ .inl hi, h⟩
  rename_i hname
  split at h
  · rename_i hnone
    refine ⟨_, _, extends_addDir hn hnone, descend_addDir hn hname hnone, ?_, fun i hi ↦ ?_, h⟩
    · rw [addDir, isDir_add hn, if_pos rfl, Inode.isDir]
    · rw [addDir, isDir_add hn] at hi
      split at hi
      · rename_i hnext
        exact .inr hnext
      · exact .inl hi
  · rename_i m hm
    split at h
    · rename_i hdir
      exact ⟨fs, m, .refl fs, descend_of_entry hname hm hdir, hdir, fun i hi ↦ .inl hi, h⟩
    · cases h

theorem mkdirs_of_walk (h : fs.walk st path = .ok st') : fs.mkdirs st path = some (fs, st') := by
  induction path generalizing st with
  | nil =>
    cases h
    rfl
  | cons b path ih =>
    obtain ⟨n, name⟩ := st
    rw [mkdirs]
    rcases walk_cons_eq_ok h with ⟨hb, m, hm, hrest⟩ | ⟨hb, hrest⟩
    · rw [if_pos hb]
      rcases descend_eq_ok hm with ⟨hname, rfl⟩ | ⟨hname, hentry, hdir⟩
      · rw [if_pos hname]
        exact ih hrest
      · simp only [if_neg hname, hentry, hdir, if_true]
        exact ih hrest
    · rw [if_neg hb]
      exact ih hrest

/-- **Making all directories of a path.** What was there stays, the walk goes well afterwards, and
every directory that is new is one that the path names. -/
theorem mkdirs_spec (h : fs.mkdirs st path = some (fs', st')) (hst : fs.isDir st.1 = true) :
    Extends fs fs' ∧ fs'.walk st path = .ok st' ∧
      ∀ i, fs'.isDir i = true → fs.isDir i = true ∨
        ∃ p, (p ++ [slash]).IsPrefix path ∧ fs'.walk st (p ++ [slash]) = .ok (i, []) := by
  induction path generalizing fs st with
  | nil =>
    cases h
    exact ⟨.refl _, rfl, fun i hi ↦ .inl hi⟩
  | cons b path ih =>
    obtain ⟨n, name⟩ := st
    rcases mkdirs_cons_eq_some hst h with
      ⟨hb, h⟩ | ⟨rfl, fs₁, m, hext₁, hdescend, hdir, hnew₁, h⟩
    · obtain ⟨hext, hwalk, hnew⟩ := ih h hst
      have hstep : ∀ q, fs'.walk (n, name) (b :: q) = fs'.walk (n, name ++ [b]) q :=
        fun q ↦ by rw [walk, if_neg hb]
      exact ⟨hext, (hstep path).trans hwalk, fun i hi ↦ (hnew i hi).imp_right (named_cons hstep)⟩
    · obtain ⟨hext, hwalk, hnew⟩ := ih h hdir
      have hstep : ∀ q, fs'.walk (n, name) (slash :: q) = fs'.walk (m, []) q :=
        walk_slash (hext.descend hdescend)
      refine ⟨hext₁.trans hext, (hstep path).trans hwalk, fun i hi ↦ ?_⟩
      rcases hnew i hi with hold | hnamed
      · refine (hnew₁ i hold).imp_right ?_
        -- the directory that is entered here
        rintro rfl
        exact ⟨[], List.prefix_append [slash] path, (hstep []).trans rfl⟩
      · exact .inr (named_cons hstep hnamed)

theorem start_of_isPrefix (fs : FileTree) {q : List UInt8} (hq : q ≠ []) (hne : path ≠ [])
    (h : (q ++ [slash]).IsPrefix (path ++ [slash])) : fs.start q = fs.start path := by
  obtain ⟨t, ht⟩ := h
  rw [← start_append fs hne [slash], ← ht, List.append_assoc, start_append fs hq]

/-- **The directories that a path names.** After they were made, every one is there, and no other
directory is new. -/
theorem stat_of_mkdirs (hne : path ≠ [])
    (h : fs.mkdirs (fs.start path) (path ++ [slash]) = some (fs', st')) :
    (∀ q, q ≠ [] → (q ++ [slash]).IsPrefix (path ++ [slash]) →
        ∃ i, fs'.stat q = .ok i ∧ fs'.isDir i = true) ∧
      ∀ i, fs'.isDir i = true → fs.isDir i = true ∨
        ∃ q, q ≠ [] ∧ (q ++ [slash]).IsPrefix (path ++ [slash]) ∧ fs'.stat q = .ok i := by
  obtain ⟨hext, hwalk, hnew⟩ := mkdirs_spec h (isDir_start fs path)
  rw [← hext.start_eq] at hwalk
  constructor
  · intro q hq hbefore
    have hstart := start_of_isPrefix fs' hq hne hbefore
    obtain ⟨t, ht⟩ := hbefore
    rw [← ht] at hwalk
    obtain ⟨⟨i, name⟩, hwalkq, -⟩ := exists_walk_of_append hwalk
    have hnil : name = [] := walk_concat_slash hwalkq
    rw [hnil, ← hstart] at hwalkq
    exact ⟨i, (walk_concat_slash_iff hq).mp hwalkq⟩
  · intro i hi
    rcases hnew i hi with hold | ⟨q, hbefore, hwalkq⟩
    · exact .inl hold
    by_cases hq : q = []
    · -- a slash in front leads to where the walk started
      rw [hq, List.nil_append, start, walk_slash (by rw [descend, if_pos rfl])] at hwalkq
      cases hwalkq
      exact .inl (isDir_start fs path)
    · rw [← hext.start_eq, ← start_of_isPrefix fs' hq hne hbefore] at hwalkq
      exact .inr ⟨q, hq, hbefore, ((walk_concat_slash_iff hq).mp hwalkq).1⟩

/-- No directory that a path names is named `..`. The part of a name that was read is given. -/
def noParent : List UInt8 → List UInt8 → Bool
  | _, [] => true
  | name, b :: path =>
    if b = slash then name != [46, 46] && noParent [] path else noParent (name ++ [b]) path

/-- A directory that leads nowhere but to itself and to the one it is in. -/
def Blank (fs : FileTree) (n : ℕ) : Prop :=
  fs.isDir n = true ∧ ∀ nm m, fs.entry n nm = some m → nm = [46, 46] ∨ (nm = [46] ∧ m = n)

private theorem blank_addDir (hn : fs.isDir n = true) (name : List UInt8) :
    Blank (fs.addDir n name) fs.next := by
  constructor
  · rw [addDir, isDir_add hn, if_pos rfl, Inode.isDir]
  · intro nm m hm
    rw [addDir, entry_add hn, if_pos rfl, Inode.entry, dots] at hm
    split at hm
    · rename_i hdot
      exact .inr ⟨hdot, (Option.some.inj hm).symm⟩
    · split at hm
      · rename_i hdotdot
        exact .inl hdotdot
      · cases hm

private theorem mkdirs_of_blank (hn : Blank fs n) (hno : noParent name path = true) :
    ∃ fs' n' name', fs.mkdirs (n, name) path = some (fs', n', name') ∧ Blank fs' n' := by
  induction path generalizing fs n name with
  | nil => exact ⟨fs, n, name, rfl, hn⟩
  | cons b path ih =>
    rw [noParent] at hno
    rw [mkdirs]
    split at hno
    · rename_i hb
      rw [Bool.and_eq_true, bne_iff_ne] at hno
      rw [if_pos hb]
      by_cases hname : name = []
      · rw [if_pos hname]
        exact ih hn hno.2
      rw [if_neg hname]
      rcases hentry : fs.entry n name with _ | m
      · exact ih (blank_addDir hn.1 name) hno.2
      · obtain ⟨-, rfl⟩ := (hn.2 _ _ hentry).resolve_left hno.1
        simp only [hn.1, if_true]
        exact ih hn hno.2
    · rename_i hb
      rw [if_neg hb]
      exact ih hn hno

/-- **Directories that can be made.** If every entry that the walk of a path meets is a directory,
and none is named `..`, nothing is in the way. Where nothing was missing, nothing has changed. -/
theorem exists_mkdirs (hst : fs.isDir st.1 = true) (hno : noParent st.2 path = true)
    (hclear : ∀ q n name m, (q ++ [slash]).IsPrefix path → fs.walk st q = .ok (n, name) →
      name ≠ [] → fs.entry n name = some m → fs.isDir m = true) :
    ∃ fs' n name, fs.mkdirs st path = some (fs', n, name) ∧ (fs' = fs ∨ Blank fs' n) := by
  induction path generalizing st with
  | nil => exact ⟨fs, st.1, st.2, rfl, .inl rfl⟩
  | cons b path ih =>
    obtain ⟨n, name⟩ := st
    -- what holds past the first byte
    have hclear' : ∀ {st₁}, (∀ q, fs.walk (n, name) (b :: q) = fs.walk st₁ q) →
        ∀ q n name m, (q ++ [slash]).IsPrefix path → fs.walk st₁ q = .ok (n, name) →
          name ≠ [] → fs.entry n name = some m → fs.isDir m = true := by
      intro st₁ hstep q n' name' m hbefore hwalk
      refine hclear (b :: q) n' name' m ?_ (by rw [hstep, hwalk])
      rw [List.cons_append, List.cons_prefix_cons]
      exact ⟨rfl, hbefore⟩
    rw [noParent] at hno
    rw [mkdirs]
    split at hno
    · rename_i hb
      subst hb
      rw [Bool.and_eq_true] at hno
      rw [if_pos rfl]
      by_cases hname : name = []
      · rw [if_pos hname]
        exact ih hst hno.2 (hclear' (walk_slash (by rw [descend, if_pos hname])))
      rw [if_neg hname]
      rcases hentry : fs.entry n name with _ | m
      · obtain ⟨fs', n', name', hmk, hblank⟩ := mkdirs_of_blank (blank_addDir hst name) hno.2
        exact ⟨fs', n', name', hmk, .inr hblank⟩
      · have hm : fs.isDir m = true :=
          hclear [] n name m (List.prefix_append [slash] path) rfl hname hentry
        simp only [hm, if_true]
        exact ih hm hno.2 (hclear' (walk_slash (descend_of_entry hname hentry hm)))
    · rename_i hb
      rw [if_neg hb]
      exact ih hst hno (hclear' fun q ↦ by rw [walk, if_neg hb])

end Mkdirs

end FileTree

end Aesd
