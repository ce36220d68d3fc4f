import Aesd.Writer.Directories

/-!
# Making a file

`create_file` makes the directories in front of the last slash and then the file, and hands the
bytes that it is to hold to `fprintf` as the format.

When it makes the file and all directories on the way (`createFile_creates_iff`): the last slash
must not be the first byte, since `create_directories` leaves its copy of an empty path. When the
file holds the bytes (`createFile_stores_iff`): there must be no `%` in them.

## What is in the way

A path can be obstructed by a file where a directory should be, or by a directory where the file
should be. `mkdirs` tells whether the directories can be made, on the tree before the call;
`unobstructed_of_admissible` says for a path without `..` that it is enough to look at each ancestor
by itself.
-/

namespace Aesd

open FileTree

/-! ## The directory part -/

section Parents

variable {fs : FileTree} {path parents last : List UInt8}

theorem createParents_eq (hno : 0 ∉ path) (hpath : path = parents ++ slash :: last)
    (hlast : slash ∉ last) (fs : FileTree) :
    (parents = [] → createParents fs path = .error .outOfBounds) ∧
      ∀ d rest, parents = d :: rest → createParents fs path = .ok (makeEach fs [d] rest) := by
  have hheld : (strdup Heap.empty path).1.Holds (strdup Heap.empty path).2 (path ++ [0]) :=
    holds_strdup Heap.empty path
  have hwhole := ofBlock_of_whole hno hheld
  have hslash : CString.strrchr slash path = some parents.length := by
    rw [hpath]
    exact CString.strrchr_append hlast parents
  have hno' : 0 ∉ parents := by
    intro hmem
    apply hno
    rw [hpath]
    exact List.mem_append_left _ hmem
  rw [hpath, List.append_assoc, List.cons_append, ← hpath] at hheld
  obtain ⟨heap₁, hcut, hheld₁, -⟩ := Heap.store_at hheld 0
  have hpart : CString.ofBlock heap₁ (strdup Heap.empty path).2 = .ok parents := by
    apply ofBlock_of_cut hno'
    rw [List.append_assoc]
    exact hheld₁
  simp only [createParents, hwhole, ok_bind, hslash, hcut, hpart]
  constructor
  · rintro rfl
    rw [createDirectories_nil, error_bind]
  · rintro d rest rfl
    obtain ⟨heap₂, hmake, hother⟩ := createDirectories_eq heap₁ fs hno'
    have hlive : heap₂.Live (strdup Heap.empty path).2 := by
      rw [Heap.Live, hother _ (Heap.ne_next_of_live hheld₁.live)]
      exact hheld₁.live
    obtain ⟨heap₃, hfree, -⟩ := Heap.free_of_live hlive
    simp only [hmake, ok_bind, hfree, pure_eq_ok]

/-- The first byte of a path is always read without a fault. -/
private theorem exists_walk_singleton (fs : FileTree) (d : UInt8) :
    ∃ n name, fs.walk (fs.start [d]) [d] = .ok (n, name) ∧ fs.isDir n = true ∧
      ∀ path, fs.mkdirs (fs.start [d]) (d :: path) = fs.mkdirs (n, name) path := by
  have hdir := isDir_start fs [d]
  by_cases hd : d = slash
  · refine ⟨(fs.start [d]).1, [], ?_, hdir, fun path ↦ ?_⟩
    · rw [hd]
      exact walk_slash (if_pos rfl) []
    · rw [start, mkdirs, if_pos hd, if_pos rfl]
  · refine ⟨(fs.start [d]).1, [d], ?_, hdir, fun path ↦ ?_⟩
    · exact walk_of_not_mem (by simpa using Ne.symm hd) _
    · rw [start, mkdirs, if_neg hd, List.nil_append]

theorem createParents_of_mkdirs (hno : 0 ∉ path) (hpath : path = parents ++ slash :: last)
    (hlast : slash ∉ last) (hne : parents ≠ []) {fs₁ : FileTree} {st : ℕ × List UInt8}
    (h : fs.mkdirs (fs.start parents) (parents ++ [slash]) = some (fs₁, st)) :
    createParents fs path = .ok (fs₁, 0) := by
  obtain ⟨d, rest, rfl⟩ := List.exists_cons_of_ne_nil hne
  obtain ⟨n, name, hwalk, hdir, hfirst⟩ := exists_walk_singleton fs d
  rw [(createParents_eq hno hpath hlast fs).2 d rest rfl]
  rw [← List.singleton_append, start_append fs (List.cons_ne_nil d []), List.singleton_append,
    List.cons_append, hfirst] at h
  rw [makeEach_of_mkdirs (List.cons_ne_nil d []) hwalk hdir h]

private theorem createParents_of_obstructed (hno : 0 ∉ path)
    (hpath : path = parents ++ slash :: last) (hlast : slash ∉ last) (hne : parents ≠ [])
    (h : fs.mkdirs (fs.start parents) (parents ++ [slash]) = none) :
    ∃ fs₁ ret q i, createParents fs path = .ok (fs₁, ret) ∧ q ≠ [] ∧ (q ++ [slash]).IsPrefix path ∧
      fs₁.stat q = .ok i ∧ (fs₁.contents i).isSome = true := by
  obtain ⟨d, rest, rfl⟩ := List.exists_cons_of_ne_nil hne
  obtain ⟨n, name, hwalk, hdir, hfirst⟩ := exists_walk_singleton fs d
  rw [← List.singleton_append, start_append fs (List.cons_ne_nil d []), List.singleton_append,
    List.cons_append, hfirst] at h
  obtain ⟨q, i, hq, hbefore, hstat, hfile⟩ :=
    makeEach_of_obstructed (List.cons_ne_nil d []) hwalk hdir h
  refine ⟨_, _, q, i, (createParents_eq hno hpath hlast fs).2 d rest rfl, hq,
    hbefore.trans ⟨last, ?_⟩, hstat, hfile⟩
  rw [hpath, List.append_assoc, List.singleton_append, List.singleton_append]

end Parents

/-! ## The file -/

section File

variable {α : Type} {C : Conversions α} {fs fs' : FileTree} {path data : ArgString}

/-- What has happened when `create_file` returns 0. -/
theorem createFile_eq_ok_iff : createFile C fs path data = .ok (fs', 0) ↔
    ∃ fs₁ ret fs₂ i out, createParents fs path.bytes = .ok (fs₁, ret) ∧ ret ≠ -1 ∧
      fs₁.fopenWrite path.bytes = .ok (fs₂, i) ∧ C.render none [] data.bytes = some out ∧
      fs' = fs₂.setContents i out := by
  constructor
  · intro h
    obtain ⟨⟨fs₁, ret⟩, hlift, h⟩ := exists_of_bind_eq_ok h
    have hparents : createParents fs path.bytes = .ok (fs₁, ret) := by
      rcases hr : createParents fs path.bytes with f | r
      · rw [hr] at hlift
        cases hlift
      · rw [hr] at hlift
        rw [Except.ok.inj hlift]
    dsimp only at h
    split at h
    · cases h
    rename_i hret
    split at h
    · cases h
    rename_i fs₂ i hopen
    split at h
    · cases h
    rename_i out hrender
    cases h
    exact ⟨fs₁, ret, fs₂, i, out, hparents, hret, hopen, hrender, rfl⟩
  · rintro ⟨fs₁, ret, fs₂, i, out, hparents, hret, hopen, hrender, rfl⟩
    simp only [createFile, hparents, WriterError.lift_ok, ok_bind, if_neg hret, hopen, hrender,
      pure_eq_ok]

theorem written_spec {fs₁ fs₂ : FileTree} {p out : List UInt8} {i : ℕ}
    (hopen : fs₁.fopenWrite p = .ok (fs₂, i)) :
    Extends fs₁ (fs₂.setContents i out) ∧ (fs₂.setContents i out).stat p = .ok i ∧
      (fs₂.setContents i out).contents i = some out ∧
      ∀ j, (fs₂.setContents i out).isDir j = fs₁.isDir j := by
  obtain ⟨hext, hstat, hempty, hdirs⟩ := fopenWrite_spec hopen
  have hfile : (fs₂.contents i).isSome = true := by
    rw [hempty]
    rfl
  have hext' := @extends_setContents _ _ out hfile
  refine ⟨hext.trans hext', hext'.stat hstat, ?_, fun j ↦ ?_⟩
  · rw [contents_setContents hfile, if_pos rfl]
  · rw [isDir_setContents hfile, hdirs]

/-- What `create_file` is for: afterwards every ancestor of the path is a directory, no other
directory is new, and the path leads to a file. -/
structure FileCreated (fs : FileTree) (path : List UInt8) (fs' : FileTree) : Prop where
  ancestor : ∀ q, q ≠ [] → (q ++ [slash]).IsPrefix path →
    ∃ n, fs'.stat q = .ok n ∧ fs'.isDir n = true
  new_dir : ∀ n, fs'.isDir n = true → fs.isDir n = true ∨
    ∃ q, q ≠ [] ∧ (q ++ [slash]).IsPrefix path ∧ fs'.stat q = .ok n
  file : ∃ n, fs'.stat path = .ok n ∧ (fs'.contents n).isSome = true

/-- Nothing is in the way of a file `last` in the directory `parents`: no ancestor is a file, and
the file itself is no directory. -/
def Unobstructed (fs : FileTree) (parents last : List UInt8) : Prop :=
  ∃ fs₁ n, fs.mkdirs (fs.start parents) (parents ++ [slash]) = some (fs₁, n, []) ∧
    ∀ i, fs₁.entry n last = some i → fs₁.isDir i = false

private theorem walk_of_mkdirs {parents last : List UInt8} {p : List UInt8} {fs₁ : FileTree} {n : ℕ}
    (hpath : p = parents ++ slash :: last) (hlast : slash ∉ last) (hparents : parents ≠ [])
    (h : fs.mkdirs (fs.start parents) (parents ++ [slash]) = some (fs₁, n, [])) :
    fs₁.walk (fs₁.start p) p = .ok (n, last) := by
  obtain ⟨hext, hwalk, -⟩ := mkdirs_spec h (isDir_start fs parents)
  have hsplit : p = parents ++ [slash] ++ last := by
    rw [hpath, List.append_assoc, List.singleton_append]
  rw [← start_append fs hparents (slash :: last), ← hpath] at hwalk
  rw [hext.start_eq, hsplit, walk_append, ← hsplit, hwalk]
  exact walk_of_not_mem hlast _

/-- Every ancestor that a path names is a directory, or is not there. -/
def Admissible (fs : FileTree) (path : List UInt8) : Prop :=
  ∀ q i, q ≠ [] → (q ++ [slash]).IsPrefix path → fs.stat q = .ok i → fs.isDir i = true

/-- When nothing is in the way, for a path without `..`: every ancestor is a directory or absent, and
the path does not name a directory itself. -/
theorem unobstructed_of_admissible {p parents last : List UInt8}
    (hpath : p = parents ++ slash :: last) (hparents : parents ≠ []) (hlast : slash ∉ last)
    (hname : last ∉ [[], [46], [46, 46]]) (hadm : Admissible fs p)
    (hno : noParent [] (parents ++ [slash]) = true)
    (hfile : ∀ i, fs.stat p = .ok i → fs.isDir i = false) : Unobstructed fs parents last := by
  simp only [List.mem_cons, List.not_mem_nil, or_false, not_or] at hname
  obtain ⟨fs₁, n, name, hmk, hmade⟩ :=
    @exists_mkdirs fs (fs.start parents) (parents ++ [slash]) (isDir_start fs parents) hno (by
      intro q n name m hbefore hwalk hne hentry
      have hq : q ≠ [] := by
        rintro rfl
        cases hwalk
        exact hne rfl
      rw [← start_of_isPrefix fs hq hparents hbefore] at hwalk
      apply hadm q m hq (hbefore.trans ⟨last, ?_⟩)
      · exact stat_eq_ok_iff.mpr ⟨hq, n, name, hwalk, .inr ⟨hne, hentry⟩⟩
      · rw [hpath, List.append_assoc, List.singleton_append])
  obtain ⟨-, hwalk, -⟩ := mkdirs_spec hmk (isDir_start fs parents)
  obtain rfl : name = [] := walk_concat_slash hwalk
  refine ⟨fs₁, n, hmk, fun i hi ↦ ?_⟩
  rcases hmade with rfl | hblank
  · apply hfile i
    refine stat_eq_ok_iff.mpr
      ⟨?_, n, last, walk_of_mkdirs hpath hlast hparents hmk, .inr ⟨hname.1, hi⟩⟩
    rw [hpath]
    simp
  · rcases hblank.2 _ _ hi with hdotdot | ⟨hdot, -⟩
    · exact absurd hdotdot hname.2.2
    · exact absurd hdot hname.2.1

theorem exists_last_slash {p : List UInt8} (h : slash ∈ p) :
    ∃ parents last, p = parents ++ slash :: last ∧ slash ∉ last := by
  obtain ⟨as, bs, hrev, hno⟩ := List.eq_append_cons_of_mem (List.mem_reverse.mpr h)
  refine ⟨bs.reverse, as.reverse, ?_, fun hmem ↦ hno (List.mem_reverse.mp hmem)⟩
  rw [← List.reverse_reverse p, hrev, List.reverse_append, List.reverse_cons, List.append_assoc,
    List.singleton_append]

private theorem ancestor_of_isPrefix {q parents last : List UInt8} (hlast : slash ∉ last)
    (h : (q ++ [slash]).IsPrefix (parents ++ slash :: last)) :
    (q ++ [slash]).IsPrefix (parents ++ [slash]) := by
  obtain ⟨t, ht⟩ := h
  have hsplit : parents ++ [slash] ++ last = parents ++ slash :: last := by
    rw [List.append_assoc, List.singleton_append]
  rw [← hsplit, List.append_eq_append_iff] at ht
  rcases ht with ⟨u, hu, -⟩ | ⟨u, hu, hlast'⟩
  · exact ⟨u, hu.symm⟩
  · rcases List.eq_nil_or_concat u with rfl | ⟨u, b, rfl⟩
    · rw [List.append_nil] at hu
      rw [hu]
    · rw [List.concat_eq_append, ← List.append_assoc] at hu
      obtain ⟨-, hb⟩ := List.append_inj' hu rfl
      rw [List.concat_eq_append, ← List.cons.inj hb |>.1] at hlast'
      refine absurd ?_ hlast
      rw [hlast']
      simp

private theorem exists_fileCreated {parents last : List UInt8}
    (hpath : path.bytes = parents ++ slash :: last) (hlast : slash ∉ last) (hparents : parents ≠ [])
    (hname : last ≠ []) (hfree : Unobstructed fs parents last)
    (hdata : Conversions.onlyEscapes data.bytes = true) :
    ∃ fs', createFile C fs path data = .ok (fs', 0) ∧ FileCreated fs path.bytes fs' := by
  obtain ⟨fs₁, n, hmk, hentry⟩ := hfree
  obtain ⟨hancestor, hnew⟩ := stat_of_mkdirs hparents hmk
  obtain ⟨out, hrender⟩ := Option.isSome_iff_exists.mp (C.render_isSome_iff.mpr hdata)
  have hne : path.bytes ≠ [] := by
    rw [hpath]
    simp
  have hwalk := walk_of_mkdirs hpath hlast hparents hmk
  obtain ⟨fs₂, i, hopen⟩ := (exists_fopenWrite_iff hne hwalk).mpr ⟨hname, hentry⟩
  obtain ⟨hext, hstat, hcontents, hdirs⟩ := @written_spec _ _ _ out _ hopen
  have hret : (0 : Int32) ≠ -1 := by decide
  refine ⟨fs₂.setContents i out, ?_, ?_, fun j hj ↦ ?_, i, hstat, ?_⟩
  · exact createFile_eq_ok_iff.mpr ⟨fs₁, 0, fs₂, i, out,
      createParents_of_mkdirs path.no_nul hpath hlast hparents hmk, hret, hopen, hrender, rfl⟩
  · intro q hq hbefore
    rw [hpath] at hbefore
    obtain ⟨j, hstatq, hj⟩ := hancestor q hq (ancestor_of_isPrefix hlast hbefore)
    exact ⟨j, hext.stat hstatq, hext.isDir hj⟩
  · rw [hdirs] at hj
    refine (hnew j hj).imp_right ?_
    rintro ⟨q, hq, hbefore, hstatq⟩
    refine ⟨q, hq, hbefore.trans ⟨last, ?_⟩, hext.stat hstatq⟩
    rw [hpath, List.append_assoc, List.singleton_append]
  · rw [hcontents]
    rfl

/-- Where the file is made and every ancestor is a directory, nothing was in the way: a file in the
place of an ancestor would still be there. -/
private theorem unobstructed_of_ancestors {parents last : List UInt8} {fs₁ fs₂ : FileTree}
    {ret : Int32} {i : ℕ} (hpath : path.bytes = parents ++ slash :: last) (hlast : slash ∉ last)
    (hparents : parents ≠ []) (hmake : createParents fs path.bytes = .ok (fs₁, ret))
    (hopen : fs₁.fopenWrite path.bytes = .ok (fs₂, i)) (hext : Extends fs₁ fs')
    (hancestor : ∀ q, q ≠ [] → (q ++ [slash]).IsPrefix path.bytes →
      ∃ n, fs'.stat q = .ok n ∧ fs'.isDir n = true) :
    last ≠ [] ∧ Unobstructed fs parents last := by
  rcases hmk : fs.mkdirs (fs.start parents) (parents ++ [slash]) with _ | ⟨fs₁', n, name⟩
  · obtain ⟨fs₁', ret', q, j, hmake', hq, hbefore, hstat, hfile⟩ :=
      createParents_of_obstructed path.no_nul hpath hlast hparents hmk
    obtain ⟨rfl, -⟩ := Prod.mk.inj (Except.ok.inj (hmake.symm.trans hmake'))
    obtain ⟨j', hstat', hdir⟩ := hancestor q hq hbefore
    obtain rfl := Except.ok.inj (hstat'.symm.trans (hext.stat hstat))
    rw [isDir_of_contents (hext.contents hfile)] at hdir
    exact absurd hdir Bool.false_ne_true
  · rw [createParents_of_mkdirs path.no_nul hpath hlast hparents hmk] at hmake
    obtain ⟨rfl, -⟩ := Prod.mk.inj (Except.ok.inj hmake)
    obtain ⟨-, hwalk₁, -⟩ := mkdirs_spec hmk (isDir_start fs parents)
    obtain rfl : name = [] := walk_concat_slash hwalk₁
    have hwalk := walk_of_mkdirs hpath hlast hparents hmk
    have hne : path.bytes ≠ [] := by
      rw [hpath]
      simp
    obtain ⟨hname, hentry⟩ := (exists_fopenWrite_iff hne hwalk).mp ⟨fs₂, i, hopen⟩
    exact ⟨hname, fs₁', n, hmk, hentry⟩

/-- **When `create_file` does what it is for.** For every path with a slash: the last slash is not
the first byte, there is a name behind it, nothing is in the way, and every `%` of the data belongs
to a `%%`. -/
theorem createFile_creates_iff (C : Conversions α) (fs : FileTree) (data : ArgString)
    (h : slash ∈ path.bytes) :
    (∃ fs', createFile C fs path data = .ok (fs', 0) ∧ FileCreated fs path.bytes fs') ↔
      ∃ parents last, path.bytes = parents ++ slash :: last ∧ slash ∉ last ∧ parents ≠ [] ∧
        last ≠ [] ∧ Unobstructed fs parents last ∧ Conversions.onlyEscapes data.bytes = true := by
  constructor
  · rintro ⟨fs', hcreate, hcreated⟩
    obtain ⟨parents, last, hpath, hlast⟩ := exists_last_slash h
    obtain ⟨fs₁, ret, fs₂, i, out, hmake, -, hopen, hrender, rfl⟩ := createFile_eq_ok_iff.mp hcreate
    have hparents : parents ≠ [] := by
      intro hnil
      rw [(createParents_eq path.no_nul hpath hlast fs).1 hnil] at hmake
      cases hmake
    obtain ⟨hext, -⟩ := @written_spec _ _ _ out _ hopen
    have hdata : Conversions.onlyEscapes data.bytes = true := by
      rw [← C.render_isSome_iff, hrender]
      rfl
    obtain ⟨hname, hfree⟩ :=
      unobstructed_of_ancestors hpath hlast hparents hmake hopen hext hcreated.ancestor
    exact ⟨parents, last, hpath, hlast, hparents, hname, hfree, hdata⟩
  · rintro ⟨parents, last, hpath, hlast, hparents, hname, hfree, hdata⟩
    exact exists_fileCreated hpath hlast hparents hname hfree hdata

/-- In a directory that is not there yet. -/
theorem createFile_creates_a_f : ∃ fs',
    createFile .strings .bare ⟨[97, 47, 102], by decide⟩ ⟨[120], by decide⟩ = .ok (fs', 0) ∧
      FileCreated .bare [97, 47, 102] fs' := by
  apply (@createFile_creates_iff _ ⟨[97, 47, 102], by decide⟩ .strings .bare ⟨[120], by decide⟩
    (by decide)).mpr
  refine ⟨[97], [102], rfl, by decide, List.cons_ne_nil _ _, List.cons_ne_nil _ _,
    ⟨_, _, rfl, fun i hi ↦ ?_⟩, by decide⟩
  cases hi

/-- The path of a file in the root directory leaves nothing of the copy but its terminator. -/
theorem createFile_leaves_copy :
    slash ∈ [47, 102] ∧ Admissible .bare [47, 102] ∧
      createFile .strings .bare ⟨[47, 102], by decide⟩ ⟨[], by decide⟩
        = .error (.fault .outOfBounds) := by
  refine ⟨by decide, ?_, rfl⟩
  -- the only slash is the first byte
  intro q i hq hbefore
  obtain ⟨b, q, rfl⟩ := List.exists_cons_of_ne_nil hq
  rw [List.cons_append, List.cons_prefix_cons] at hbefore
  have hmem : slash ∈ [(102 : UInt8)] := hbefore.2.subset List.mem_concat_self
  exact absurd hmem (by decide)

/-- **When the file holds the argument.** At a path where `create_file` can make a file, it makes
one that holds exactly the bytes of `data` if and only if there is no `%` in them. No write to the
file fails. -/
theorem createFile_stores_iff (h : ∃ data₀ fs₀, createFile C fs path data₀ = .ok (fs₀, 0))
    (data : ArgString) :
    (∃ fs' i, createFile C fs path data = .ok (fs', 0) ∧ fs'.stat path.bytes = .ok i ∧
      fs'.contents i = some data.bytes) ↔ percent ∉ data.bytes := by
  obtain ⟨data₀, fs₀, h⟩ := h
  obtain ⟨fs₁, ret, fs₂, i, -, hparents, hret, hopen, -, -⟩ := createFile_eq_ok_iff.mp h
  rw [← @Conversions.render_eq_self_iff α C]
  constructor
  · rintro ⟨fs', j, hcreate, hstat, hcontents⟩
    obtain ⟨fs₁', ret', fs₂', i', out, hparents', -, hopen', hrender, rfl⟩ :=
      createFile_eq_ok_iff.mp hcreate
    obtain ⟨-, hstat', hcontents', -⟩ := @written_spec _ _ _ out _ hopen'
    rw [hstat'] at hstat
    cases hstat
    rw [hcontents'] at hcontents
    rw [hrender, hcontents]
  · intro hrender
    obtain ⟨-, hstat, hcontents, -⟩ := @written_spec _ _ _ data.bytes _ hopen
    exact ⟨_, i, createFile_eq_ok_iff.mpr
      ⟨fs₁, ret, fs₂, i, data.bytes, hparents, hret, hopen, hrender, rfl⟩, hstat, hcontents⟩

/-- The argument is the file. -/
theorem createFile_stores_x : ∃ fs' i,
    createFile .strings .bare ⟨[102], by decide⟩ ⟨[120], by decide⟩ = .ok (fs', 0) ∧
      fs'.stat [102] = .ok i ∧ fs'.contents i = some [120] :=
  (@createFile_stores_iff _ .strings .bare ⟨[102], by decide⟩
    ⟨⟨[], by decide⟩, _, rfl⟩ ⟨[120], by decide⟩).mpr (by decide)

/-- A file that is to hold `%%` holds `%`. -/
theorem createFile_loses_percent : ∃ fs' i,
    createFile .strings .bare ⟨[102], by decide⟩ ⟨[37, 37], by decide⟩ = .ok (fs', 0) ∧
      fs'.stat [102] = .ok i ∧ fs'.contents i = some [37] ∧ fs'.contents i ≠ some [37, 37] := by
  refine ⟨_, _, rfl, rfl, rfl, ?_⟩
  decide

end File

end Aesd
