import Mathlib.Data.List.Basic
import Mathlib.Logic.Function.Basic

/-!
# A file system

Inodes by number: a regular file has contents, a directory has entries, of which `.` and `..` are no
special ones. A program can add a directory or an empty file under a name that is free, and change
what is in a file; permissions and limits never refuse it.

## Well-formedness

`FileTree` carries the facts that a tree of inodes needs as fields: every entry leads to an inode
that is there, the numbers from `next` on are in use nowhere, and the two directories that paths
start from are directories. So an entry that leads nowhere cannot be built, and the operations
prove once that what they build is a file system again.

## Growth

`Extends` says that nothing was taken away: every entry and every file is still there, though a file
may hold other bytes. It is a preorder, and whatever was found in a file system is found in one that
extends it.
-/

namespace Aesd

inductive Inode
  | file (bytes : List UInt8)
  | dir (entries : List UInt8 → Option ℕ)

namespace Inode

def isDir : Inode → Bool
  | file _ => false
  | dir _ => true

def contents : Inode → Option (List UInt8)
  | file bytes => some bytes
  | dir _ => none

def entry : Inode → List UInt8 → Option ℕ
  | file _ => fun _ ↦ none
  | dir entries => entries

end Inode

/-- Inodes by number. Numbers from `next` on were never given out. -/
structure FileTree where
  /-- The inodes in use. -/
  inode : ℕ → Option Inode
  /-- The next number. -/
  next : ℕ
  /-- The directory that paths with a slash in front start from. -/
  root : ℕ
  /-- The directory that other paths start from. -/
  cwd : ℕ
  /-- Numbers not yet given out are not in use. -/
  fresh : ∀ n, next ≤ n → inode n = none
  /-- Entries lead to inodes in use. -/
  linked : ∀ n entries name m, inode n = some (.dir entries) → entries name = some m →
    (inode m).isSome = true
  root_dir : ∃ entries, inode root = some (.dir entries)
  cwd_dir : ∃ entries, inode cwd = some (.dir entries)

namespace FileTree

variable (fs : FileTree)

/-! ## Inodes -/

def isDir (n : ℕ) : Bool := (fs.inode n).elim false Inode.isDir

def contents (n : ℕ) : Option (List UInt8) := (fs.inode n).bind Inode.contents

def entry (n : ℕ) (name : List UInt8) : Option ℕ := (fs.inode n).bind fun node ↦ node.entry name

theorem lt_next {n : ℕ} {node : Inode} (h : fs.inode n = some node) : n < fs.next := by
  by_contra hn
  rw [fs.fresh n (by omega)] at h
  cases h

/-- The inodes after a new one got the name `name` in the directory `n`. -/
private def added (n : ℕ) (entries : List UInt8 → Option ℕ) (name : List UInt8) (node : Inode) :
    ℕ → Option Inode :=
  Function.update
    (Function.update fs.inode n (some (.dir (Function.update entries name (some fs.next)))))
    fs.next (some node)

section Added

variable {fs} {n : ℕ} {entries : List UInt8 → Option ℕ} (hn : fs.inode n = some (.dir entries))
  (name : List UInt8) (node : Inode)

private theorem added_next : fs.added n entries name node fs.next = some node :=
  Function.update_self ..

include hn in
private theorem added_self : fs.added n entries name node n
    = some (.dir (Function.update entries name (some fs.next))) := by
  rw [added, Function.update_of_ne (Nat.ne_of_lt (fs.lt_next hn)), Function.update_self]

private theorem added_of_ne {i : ℕ} (hnext : i ≠ fs.next) (hi : i ≠ n) :
    fs.added n entries name node i = fs.inode i := by
  rw [added, Function.update_of_ne hnext, Function.update_of_ne hi]

include hn in
private theorem isSome_added {i : ℕ} (hi : i = fs.next ∨ (fs.inode i).isSome = true) :
    (fs.added n entries name node i).isSome = true := by
  by_cases hnext : i = fs.next
  · rw [hnext, added_next]
    rfl
  by_cases hin : i = n
  · rw [hin, added_self hn]
    rfl
  · rw [added_of_ne name node hnext hin]
    exact hi.resolve_left hnext

include hn in
private theorem added_dir {i : ℕ} (hi : ∃ entries, fs.inode i = some (.dir entries)) :
    ∃ entries', fs.added n entries name node i = some (.dir entries') := by
  obtain ⟨entries', hdir⟩ := hi
  by_cases hin : i = n
  · rw [hin]
    exact ⟨_, added_self hn name node⟩
  · rw [added_of_ne name node (Nat.ne_of_lt (fs.lt_next hdir)) hin]
    exact ⟨_, hdir⟩

include hn in
private theorem added_linked
    (hnode : ∀ entries nm m, node = .dir entries → entries nm = some m → m = n ∨ m = fs.next)
    (i : ℕ) (entries' : List UInt8 → Option ℕ) (nm : List UInt8) (m : ℕ)
    (hi : fs.added n entries name node i = some (.dir entries')) (hm : entries' nm = some m) :
    (fs.added n entries name node m).isSome = true := by
  apply isSome_added hn
  by_cases hnext : i = fs.next
  · rw [hnext, added_next, Option.some.injEq] at hi
    rcases hnode _ _ _ hi hm with rfl | rfl
    · exact .inr (by rw [hn]; rfl)
    · exact .inl rfl
  by_cases hin : i = n
  · rw [hin, added_self hn, Option.some.injEq, Inode.dir.injEq] at hi
    subst hi
    by_cases hname : nm = name
    · rw [hname, Function.update_self, Option.some.injEq] at hm
      exact .inl hm.symm
    · rw [Function.update_of_ne hname] at hm
      exact .inr (fs.linked _ _ _ _ hn hm)
  · rw [added_of_ne name node hnext hin] at hi
    exact .inr (fs.linked _ _ _ _ hi hm)

end Added

def add (n : ℕ) (name : List UInt8) (node : Inode)
    (hnode : ∀ entries nm m, node = .dir entries → entries nm = some m → m = n ∨ m = fs.next) :
    FileTree :=
  match hn : fs.inode n with
  | some (.dir entries) =>
    { inode := fs.added n entries name node
      next := fs.next + 1
      root := fs.root
      cwd := fs.cwd
      fresh := fun i hi ↦ by
        have hlt := fs.lt_next hn
        rw [added_of_ne name node (by omega) (by omega), fs.fresh i (by omega)]
      linked := added_linked hn name node hnode
      root_dir := added_dir hn name node fs.root_dir
      cwd_dir := added_dir hn name node fs.cwd_dir }
  | _ => fs

/-- The entries of a new directory: itself, and the directory it is in. -/
def dots (n : ℕ) (name : List UInt8) : Option ℕ :=
  if name = [46] then some fs.next else if name = [46, 46] then some n else none

def addDir (n : ℕ) (name : List UInt8) : FileTree :=
  fs.add n name (.dir (fs.dots n)) <| by
    rintro entries nm m ⟨⟩ hm
    rw [dots] at hm
    split at hm
    · exact .inr (Option.some.inj hm).symm
    · split at hm
      · exact .inl (Option.some.inj hm).symm
      · cases hm

def addFile (n : ℕ) (name : List UInt8) : FileTree := fs.add n name (.file []) (by rintro _ _ _ ⟨⟩)

private theorem update_file_dir {n : ℕ} {old : List UInt8} (hn : fs.inode n = some (.file old))
    (bytes : List UInt8) {i : ℕ} (hi : ∃ entries, fs.inode i = some (.dir entries)) :
    ∃ entries, Function.update fs.inode n (some (.file bytes)) i = some (.dir entries) := by
  obtain ⟨entries, hdir⟩ := hi
  refine ⟨entries, ?_⟩
  rw [Function.update_of_ne, hdir]
  rintro rfl
  rw [hn] at hdir
  cases hdir

def setContents (n : ℕ) (bytes : List UInt8) : FileTree :=
  match hn : fs.inode n with
  | some (.file _) =>
    { fs with
      inode := Function.update fs.inode n (some (.file bytes))
      fresh := fun i hi ↦ by
        have hlt := fs.lt_next hn
        rw [Function.update_of_ne (by omega), fs.fresh i hi]
      linked := fun i entries name m hi hm ↦ by
        have hin : i ≠ n := by
          rintro rfl
          rw [Function.update_self] at hi
          cases hi
        rw [Function.update_of_ne hin] at hi
        by_cases hmn : m = n
        · rw [hmn, Function.update_self]
          rfl
        · rw [Function.update_of_ne hmn]
          exact fs.linked i entries name m hi hm
      root_dir := fs.update_file_dir hn bytes fs.root_dir
      cwd_dir := fs.update_file_dir hn bytes fs.cwd_dir }
  | _ => fs

/-- A file system with nothing but a root directory. -/
def bare : FileTree where
  inode n := if n = 0 then
      some (.dir fun name ↦ if name = [46] ∨ name = [46, 46] then some 0 else none)
    else none
  next := 1
  root := 0
  cwd := 0
  fresh := fun n hn ↦ if_neg (by omega)
  linked := by
    intro n entries name m hn hm
    split at hn
    · cases hn
      dsimp only at hm
      split at hm
      · cases hm
        rfl
      · cases hm
    · cases hn
  root_dir := ⟨_, rfl⟩
  cwd_dir := ⟨_, rfl⟩

/-! ## What the operations change -/

section Changes

variable {fs} {n m : ℕ} {name : List UInt8} {node : Inode} {bytes : List UInt8}

theorem isDir_iff : fs.isDir n = true ↔ ∃ entries, fs.inode n = some (.dir entries) := by
  rw [isDir]
  rcases fs.inode n with _ | ⟨bytes⟩ | ⟨entries⟩ <;> simp [Inode.isDir]

theorem isSome_contents_iff :
    (fs.contents n).isSome = true ↔ ∃ bytes, fs.inode n = some (.file bytes) := by
  rw [contents]
  rcases fs.inode n with _ | ⟨bytes⟩ | ⟨entries⟩ <;> simp [Inode.contents]

theorem isSome_contents_of_entry (hm : fs.entry n name = some m) (hdir : fs.isDir m = false) :
    (fs.contents m).isSome = true := by
  rw [entry, Option.bind_eq_some_iff] at hm
  obtain ⟨bytes | entries, hnode, hm⟩ := hm
  · cases hm
  obtain ⟨bytes | entries', hlive⟩ := Option.isSome_iff_exists.mp (fs.linked _ _ _ _ hnode hm)
  · exact isSome_contents_iff.mpr ⟨bytes, hlive⟩
  · rw [isDir, hlive] at hdir
    cases hdir

theorem isDir_of_contents (h : (fs.contents n).isSome = true) : fs.isDir n = false := by
  obtain ⟨bytes, hfile⟩ := isSome_contents_iff.mp h
  rw [isDir, hfile]
  rfl

private theorem inode_add (hn : fs.isDir n = true) (name : List UInt8) (node : Inode) (h) (i : ℕ) :
    (i = fs.next ∧ (fs.add n name node h).inode i = some node) ∨
      (i ≠ fs.next ∧ i ≠ n ∧ (fs.add n name node h).inode i = fs.inode i) ∨
      (i ≠ fs.next ∧ i = n ∧ ∃ entries, fs.inode n = some (.dir entries) ∧
        (fs.add n name node h).inode i
          = some (.dir (Function.update entries name (some fs.next)))) := by
  obtain ⟨entries, hdir⟩ := isDir_iff.mp hn
  have hadd : (fs.add n name node h).inode = fs.added n entries name node := by
    rw [add]
    split
    · rename_i entries' hdir'
      rw [hdir, Option.some.injEq, Inode.dir.injEq] at hdir'
      rw [hdir']
    · rename_i hno
      exact absurd hdir (hno entries)
  rw [hadd]
  by_cases hnext : i = fs.next
  · exact .inl ⟨hnext, hnext ▸ added_next name node⟩
  by_cases hin : i = n
  · exact .inr (.inr ⟨hnext, hin, entries, hdir, hin ▸ added_self hdir name node⟩)
  · exact .inr (.inl ⟨hnext, hin, added_of_ne name node hnext hin⟩)

theorem isDir_add (hn : fs.isDir n = true) (h) (i : ℕ) :
    (fs.add n name node h).isDir i = if i = fs.next then node.isDir else fs.isDir i := by
  rcases inode_add hn name node h i with
    ⟨hnext, hi⟩ | ⟨hnext, -, hi⟩ | ⟨hnext, rfl, entries, -, hi⟩
  · rw [isDir, hi, if_pos hnext, Option.elim_some]
  · rw [isDir, hi, if_neg hnext, isDir]
  · rw [isDir, hi, if_neg hnext, hn, Option.elim_some, Inode.isDir]

theorem contents_add (hn : fs.isDir n = true) (h) (i : ℕ) :
    (fs.add n name node h).contents i = if i = fs.next then node.contents else fs.contents i := by
  rcases inode_add hn name node h i with
    ⟨hnext, hi⟩ | ⟨hnext, -, hi⟩ | ⟨hnext, rfl, entries, hdir, hi⟩
  · rw [contents, hi, if_pos hnext, Option.bind_some]
  · rw [contents, hi, if_neg hnext, contents]
  · rw [contents, hi, if_neg hnext, contents, hdir, Option.bind_some, Option.bind_some,
      Inode.contents, Inode.contents]

theorem entry_add (hn : fs.isDir n = true) (h) (i : ℕ) (nm : List UInt8) :
    (fs.add n name node h).entry i nm = if i = fs.next then node.entry nm
      else if i = n ∧ nm = name then some fs.next else fs.entry i nm := by
  rcases inode_add hn name node h i with
    ⟨hnext, hi⟩ | ⟨hnext, hin, hi⟩ | ⟨hnext, rfl, entries, hdir, hi⟩
  · rw [entry, hi, if_pos hnext, Option.bind_some]
  · rw [entry, hi, if_neg hnext, if_neg fun hand ↦ hin hand.1, entry]
  · rw [entry, hi, if_neg hnext, entry, hdir, Option.bind_some, Option.bind_some, Inode.entry,
      Inode.entry]
    by_cases hname : nm = name
    · rw [if_pos ⟨rfl, hname⟩, hname, Function.update_self]
    · rw [if_neg fun hand ↦ hname hand.2, Function.update_of_ne hname]

theorem inode_setContents (hn : (fs.contents n).isSome = true) (i : ℕ) :
    (fs.setContents n bytes).inode i = if i = n then some (.file bytes) else fs.inode i := by
  rw [setContents]
  split
  · by_cases hin : i = n
    · rw [if_pos hin, hin]
      exact Function.update_self ..
    · rw [if_neg hin]
      exact Function.update_of_ne hin ..
  · rename_i hno
    obtain ⟨old, hfile⟩ := isSome_contents_iff.mp hn
    exact absurd hfile (hno old)

theorem contents_setContents (hn : (fs.contents n).isSome = true) (i : ℕ) :
    (fs.setContents n bytes).contents i = if i = n then some bytes else fs.contents i := by
  rw [contents, inode_setContents hn]
  by_cases hin : i = n
  · rw [if_pos hin, if_pos hin, Option.bind_some, Inode.contents]
  · rw [if_neg hin, if_neg hin, contents]

theorem isDir_setContents (hn : (fs.contents n).isSome = true) (i : ℕ) :
    (fs.setContents n bytes).isDir i = fs.isDir i := by
  rw [isDir, inode_setContents hn]
  by_cases hin : i = n
  · rw [if_pos hin, hin, isDir_of_contents hn]
    rfl
  · rw [if_neg hin, isDir]

theorem entry_setContents (hn : (fs.contents n).isSome = true) (i : ℕ) (nm : List UInt8) :
    (fs.setContents n bytes).entry i nm = fs.entry i nm := by
  rw [entry, inode_setContents hn]
  by_cases hin : i = n
  · obtain ⟨old, hfile⟩ := isSome_contents_iff.mp hn
    rw [if_pos hin, hin, entry, hfile]
    rfl
  · rw [if_neg hin, entry]

@[simp] theorem root_add (n : ℕ) (name : List UInt8) (node : Inode) (h) :
    (fs.add n name node h).root = fs.root := by
  rw [add]
  split <;> rfl

@[simp] theorem cwd_add (n : ℕ) (name : List UInt8) (node : Inode) (h) :
    (fs.add n name node h).cwd = fs.cwd := by
  rw [add]
  split <;> rfl

@[simp] theorem root_setContents (n : ℕ) (bytes : List UInt8) :
    (fs.setContents n bytes).root = fs.root := by
  rw [setContents]
  split <;> rfl

@[simp] theorem cwd_setContents (n : ℕ) (bytes : List UInt8) :
    (fs.setContents n bytes).cwd = fs.cwd := by
  rw [setContents]
  split <;> rfl

private theorem next_setContents (n : ℕ) (bytes : List UInt8) :
    (fs.setContents n bytes).next = fs.next := by
  rw [setContents]
  split <;> rfl

private theorem ext_of_fields {fs fs' : FileTree} (hinode : fs.inode = fs'.inode)
    (hnext : fs.next = fs'.next) (hroot : fs.root = fs'.root) (hcwd : fs.cwd = fs'.cwd) :
    fs = fs' := by
  obtain ⟨inode, next, root, cwd, hfresh, hlinked, hrootDir, hcwdDir⟩ := fs
  subst hinode hnext hroot hcwd
  rfl

theorem not_used_next (fs : FileTree) :
    fs.isDir fs.next = false ∧ fs.contents fs.next = none ∧ ∀ nm, fs.entry fs.next nm = none := by
  have hnone := fs.fresh fs.next (Nat.le_refl _)
  rw [isDir, contents, hnone]
  refine ⟨rfl, rfl, fun nm ↦ ?_⟩
  rw [entry, hnone]
  rfl

theorem contents_addDir (hn : fs.isDir n = true) : (fs.addDir n name).contents = fs.contents := by
  funext i
  rw [addDir, contents_add hn]
  split
  · rename_i hi
    rw [hi, (not_used_next fs).2.1, Inode.contents]
  · rfl

theorem contents_addFile (hn : fs.isDir n = true) :
    (fs.addFile n name).contents = Function.update fs.contents fs.next (some []) := by
  funext i
  rw [addFile, contents_add hn, Function.update_apply, Inode.contents]

theorem setContents_setContents (hn : (fs.contents n).isSome = true) (bytes bytes' : List UInt8) :
    (fs.setContents n bytes).setContents n bytes' = fs.setContents n bytes' := by
  have hn' : ((fs.setContents n bytes).contents n).isSome = true := by
    rw [contents_setContents hn, if_pos rfl]
    rfl
  apply ext_of_fields
  · funext i
    rw [inode_setContents hn', inode_setContents hn, inode_setContents hn]
    split
    · rfl
    · rfl
  · rw [next_setContents, next_setContents, next_setContents]
  · rw [root_setContents, root_setContents, root_setContents]
  · rw [cwd_setContents, cwd_setContents, cwd_setContents]

end Changes

/-! ## Growth -/

/-- Nothing has disappeared, and what is a directory or a regular file still is. -/
structure Extends (fs fs' : FileTree) : Prop where
  root : fs'.root = fs.root
  cwd : fs'.cwd = fs.cwd
  entry : ∀ {n name m}, fs.entry n name = some m → fs'.entry n name = some m
  isDir : ∀ {n}, fs.isDir n = true → fs'.isDir n = true
  contents : ∀ {n}, (fs.contents n).isSome = true → (fs'.contents n).isSome = true

section Growth

variable {fs} {fs' fs'' : FileTree} {n : ℕ} {name bytes : List UInt8}

theorem Extends.refl (fs : FileTree) : Extends fs fs := ⟨rfl, rfl, id, id, id⟩

theorem Extends.trans (h : Extends fs fs') (h' : Extends fs' fs'') : Extends fs fs'' where
  root := h'.root.trans h.root
  cwd := h'.cwd.trans h.cwd
  entry := fun hm ↦ h'.entry (h.entry hm)
  isDir := fun hn ↦ h'.isDir (h.isDir hn)
  contents := fun hn ↦ h'.contents (h.contents hn)

private theorem extends_add {node : Inode} (hn : fs.isDir n = true) (h)
    (hname : fs.entry n name = none) : Extends fs (fs.add n name node h) := by
  obtain ⟨hdir, hcontents, hentry⟩ := not_used_next fs
  refine ⟨root_add .., cwd_add .., fun {i nm m} hm ↦ ?_, fun {i} hi ↦ ?_, fun {i} hi ↦ ?_⟩
  · rw [entry_add hn, if_neg, if_neg, hm]
    · rintro ⟨rfl, rfl⟩
      rw [hname] at hm
      cases hm
    · rintro rfl
      rw [hentry] at hm
      cases hm
  · rw [isDir_add hn, if_neg, hi]
    rintro rfl
    rw [hdir] at hi
    cases hi
  · rw [contents_add hn, if_neg, hi]
    rintro rfl
    rw [hcontents] at hi
    cases hi

theorem extends_addDir (hn : fs.isDir n = true) (hname : fs.entry n name = none) :
    Extends fs (fs.addDir n name) := extends_add hn _ hname

theorem extends_addFile (hn : fs.isDir n = true) (hname : fs.entry n name = none) :
    Extends fs (fs.addFile n name) := extends_add hn _ hname

theorem extends_setContents (hn : (fs.contents n).isSome = true) :
    Extends fs (fs.setContents n bytes) := by
  refine ⟨root_setContents .., cwd_setContents .., fun {i nm m} hm ↦ ?_, fun {i} hi ↦ ?_,
    fun {i} hi ↦ ?_⟩
  · rw [entry_setContents hn, hm]
  · rw [isDir_setContents hn, hi]
  · rw [contents_setContents hn]
    split
    · rfl
    · exact hi

end Growth

end FileTree

end Aesd
