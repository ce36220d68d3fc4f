import Aesd.Writer.Basic

/-!
# Making the directories of a path

`create_directories` cuts its copy of the path at each slash in turn. `makeEach` is the same loop on
the bytes of the path, without the copy; `createDirectories_eq` says that the copy is never left and
never read before it was written, for every path that is not empty. For the empty path the loop
starts behind the terminator.

What `makeEach` does is making every directory of the path, with the difference that it goes on past
an ancestor that exists and is no directory (`makeEach_of_mkdirs`, `makeEach_of_obstructed`).

## The copy

Between two passes the copy is the path again, since the slash is put back. So the invariant of the
loop does not mention the cut; the cut is seen by the two calls inside a pass, which read a string
up to the NUL (`ofBlock_of_cut`).
-/

namespace Aesd

open FileTree

/-- The loop of `create_directories` and the last directory, on a path of which `done` was read. -/
def makeEach (fs : FileTree) (done : List UInt8) : List UInt8 → FileTree × Int32
  | [] => createDirectory fs done
  | b :: rest =>
    if b = slash then
      if (createDirectory fs done).2 = -1 then ((createDirectory fs done).1, -1)
      else makeEach (createDirectory fs done).1 (done ++ [slash]) rest
    else makeEach fs (done ++ [b]) rest

/-! ## The copy of the path -/

section Copy

variable {heap : Heap UInt8} {fs : FileTree} {path done rest : List UInt8} {dir : ℕ}

theorem holds_strdup (heap : Heap UInt8) (path : List UInt8) :
    (strdup heap path).1.Holds heap.next (path ++ [0]) := Heap.place_cells_self ..

theorem ofBlock_of_cut (hno : 0 ∉ done) (h : heap.Holds dir (done ++ 0 :: rest ++ [0])) :
    CString.ofBlock heap dir = .ok done := by
  rw [CString.ofBlock_of_holds h, List.takeWhile_append_of_pos,
    List.takeWhile_cons_of_neg (by simp), List.append_nil]
  intro b hb
  rw [bne_iff_ne]
  rintro rfl
  exact hno hb

theorem ofBlock_of_whole (hno : 0 ∉ path) (h : heap.Holds dir (path ++ [0])) :
    CString.ofBlock heap dir = .ok path := by
  rw [CString.ofBlock_of_holds h, List.takeWhile_eq_self_iff.mpr]
  intro b hb
  rw [bne_iff_ne]
  rintro rfl
  exact hno hb

private theorem directoryPass_nil (h : heap.Holds dir (done ++ [0])) :
    directoryPass dir ⟨heap, fs, done.length⟩ = .ok (.inr (heap, fs, 0)) := by
  simp only [directoryPass, Heap.load_at h, ok_bind, if_true, pure_eq_ok]

private theorem directoryPass_of_ne {b : UInt8} (h0 : b ≠ 0) (hb : b ≠ slash)
    (h : heap.Holds dir (done ++ b :: rest)) :
    directoryPass dir ⟨heap, fs, done.length⟩ = .ok (.inl ⟨heap, fs, done.length + 1⟩) := by
  have h0' : [b] ≠ [0] := by simpa using h0
  have hb' : [b] ≠ [slash] := by simpa using hb
  simp only [directoryPass, Heap.load_at h, ok_bind, if_neg h0', if_neg hb', pure_eq_ok]

/-- A pass at a slash makes the directory in front of it. If that goes well, the path is whole again
afterwards. -/
private theorem directoryPass_slash (hno : 0 ∉ done)
    (h : heap.Holds dir (done ++ slash :: rest ++ [0])) :
    ∃ heap', (∀ i, i ≠ dir → heap'.cells i = heap.cells i) ∧
      if (createDirectory fs done).2 = -1 then
        heap'.Live dir ∧ directoryPass dir ⟨heap, fs, done.length⟩
          = .ok (.inr (heap', (createDirectory fs done).1, -1))
      else
        heap'.Holds dir (done ++ slash :: rest ++ [0]) ∧ directoryPass dir ⟨heap, fs, done.length⟩
          = .ok (.inl ⟨heap', (createDirectory fs done).1, done.length + 1⟩) := by
  rw [List.append_assoc, List.cons_append] at h
  obtain ⟨heap₁, hcut, hheld, hother⟩ := Heap.store_at h 0
  obtain ⟨heap₂, hmend, hheld', hother'⟩ := Heap.store_at hheld slash
  have hpath : CString.ofBlock heap₁ dir = .ok done := by
    apply ofBlock_of_cut hno
    rw [List.append_assoc]
    exact hheld
  have hslash : [slash] ≠ [0] := by decide
  split
  · rename_i hret
    refine ⟨heap₁, hother, hheld.live, ?_⟩
    simp only [directoryPass, Heap.load_at h, ok_bind, if_neg hslash, if_true, hcut, hpath, hret,
      pure_eq_ok]
  · rename_i hret
    refine ⟨heap₂, fun i hi ↦ (hother' i hi).trans (hother i hi), ?_, ?_⟩
    · rw [List.append_assoc]
      exact hheld'
    · simp only [directoryPass, Heap.load_at h, ok_bind, if_neg hslash, if_true, hcut, hpath,
        if_neg hret, hmend, pure_eq_ok]

/-- What holds after the loop: it has failed, or only the last directory is left. -/
private def AfterLoop (heap₀ : Heap UInt8) (dir : ℕ) (path : List UInt8) (made : FileTree × Int32)
    (r : Heap UInt8 × FileTree × Int32) : Prop :=
  (∀ i, i ≠ dir → r.1.cells i = heap₀.cells i) ∧
    ((r.2.2 = -1 ∧ r.1.Live dir ∧ made = (r.2.1, -1)) ∨
      (r.2.2 = 0 ∧ r.1.Holds dir (path ++ [0]) ∧ made = createDirectory r.2.1 path))

private theorem run_directoryPass (hno : 0 ∉ path) (hpath : path = done ++ rest)
    (h : heap.Holds dir (path ++ [0])) {fuel : ℕ} (hfuel : rest.length < fuel) :
    ∃ r, Loop.run .outOfFuel (directoryPass dir) fuel ⟨heap, fs, done.length⟩ = .ok r ∧
      AfterLoop heap dir path (makeEach fs done rest) r := by
  -- the ghost value is the part of the path that was read and the part that is left
  let I : List UInt8 × List UInt8 → DirectoryLoop → Prop := fun g s ↦
    path = g.1 ++ g.2 ∧ s.p = g.1.length ∧ s.heap.Holds dir (path ++ [0]) ∧
      (∀ i, i ≠ dir → s.heap.cells i = heap.cells i) ∧
      makeEach s.fs g.1 g.2 = makeEach fs done rest
  have hstart : I (done, rest) ⟨heap, fs, done.length⟩ := ⟨hpath, rfl, h, fun _ _ ↦ rfl, rfl⟩
  apply @Loop.run_total _ _ _ _ _ _ I
    (fun _ _ r ↦ AfterLoop heap dir path (makeEach fs done rest) r) (fun g _ ↦ g.2.length) _ fuel
    (done, rest) _ hstart hfuel
  rintro ⟨done', rest'⟩ ⟨heap', fs', p⟩ ⟨hsplit, rfl, hheld, hother, hmake⟩
  dsimp only at hsplit hheld hother hmake ⊢
  have hdone : 0 ∉ done' := fun hmem ↦ hno (hsplit ▸ List.mem_append_left _ hmem)
  rcases rest' with _ | ⟨b, rest'⟩
  · rw [List.append_nil] at hsplit
    refine .inr ⟨_, directoryPass_nil (hsplit ▸ hheld), hother, .inr ⟨rfl, hheld, ?_⟩⟩
    rw [← hmake, hsplit, makeEach]
  have hb0 : b ≠ 0 := by
    rintro rfl
    apply hno
    rw [hsplit]
    exact List.mem_append_right _ List.mem_cons_self
  have hsplit' : path = (done' ++ [b]) ++ rest' := by
    rw [hsplit, List.append_assoc, List.singleton_append]
  have hlen : (done' ++ [b]).length = done'.length + 1 := List.length_append
  by_cases hb : b = slash
  · subst hb
    rw [hsplit] at hheld
    obtain ⟨heap'', hother', hpass⟩ := @directoryPass_slash _ fs' _ _ _ hdone hheld
    have hother'' : ∀ i, i ≠ dir → heap''.cells i = heap.cells i :=
      fun i hi ↦ (hother' i hi).trans (hother i hi)
    rw [makeEach, if_pos rfl] at hmake
    split at hpass
    · rename_i hret
      rw [if_pos hret] at hmake
      exact .inr ⟨_, hpass.2, hother'', .inl ⟨rfl, hpass.1, hmake.symm⟩⟩
    · rename_i hret
      rw [if_neg hret] at hmake
      refine .inl ⟨(done' ++ [slash], rest'), _, hpass.2, ?_, Nat.lt_succ_self _, fun r hr ↦ hr⟩
      rw [← hsplit] at hpass
      exact ⟨hsplit', hlen.symm, hpass.1, hother'', hmake⟩
  · rw [makeEach, if_neg hb] at hmake
    have hheld' : heap'.Holds dir (done' ++ b :: (rest' ++ [0])) := by
      rw [hsplit, List.append_assoc, List.cons_append] at hheld
      exact hheld
    exact .inl ⟨(done' ++ [b], rest'), _, directoryPass_of_ne hb0 hb hheld',
      ⟨hsplit', hlen.symm, hheld, hother, hmake⟩, Nat.lt_succ_self _, fun r hr ↦ hr⟩

/-- **The copy of the path.** For a path that is not empty, `create_directories` never leaves its
copy, and the directories that it makes are those of the loop on the bytes. -/
theorem createDirectories_eq (heap : Heap UInt8) (fs : FileTree) {d : UInt8} (hno : 0 ∉ d :: rest) :
    ∃ heap', createDirectories heap fs (d :: rest)
        = .ok (heap', (makeEach fs [d] rest).1, (makeEach fs [d] rest).2) ∧
      ∀ i, i ≠ heap.next → heap'.cells i = heap.cells i := by
  obtain ⟨⟨heap₁, fs₁, ret⟩, hrun, hother, hafter⟩ :=
    @run_directoryPass _ fs _ [d] rest _ hno rfl (holds_strdup heap (d :: rest))
      ((d :: rest).length + 1) (by rw [List.length_cons]; omega)
  have hplaced : ∀ i, i ≠ heap.next → heap₁.cells i = heap.cells i :=
    fun i hi ↦ (hother i hi).trans (Heap.place_cells_of_ne _ _ hi)
  have hrun' : Loop.run .outOfFuel (directoryPass (strdup heap (d :: rest)).2)
      ((d :: rest).length + 1) ⟨(strdup heap (d :: rest)).1, fs, 1⟩ = .ok (heap₁, fs₁, ret) := hrun
  rcases hafter with ⟨hret, hlive, hmake⟩ | ⟨hret, hheld, hmake⟩
  · dsimp only at hret hlive hmake
    obtain ⟨heap₂, hfree, -, -, hother'⟩ := Heap.free_of_live hlive
    refine ⟨heap₂, ?_, fun i hi ↦ (hother' i hi).trans (hplaced i hi)⟩
    have hfree' : heap₁.free (strdup heap (d :: rest)).2 = .ok heap₂ := hfree
    simp only [createDirectories, hrun', ok_bind, if_pos hret, hfree', pure_eq_ok, hmake]
  · dsimp only at hret hheld hmake
    obtain ⟨heap₂, hfree, -, -, hother'⟩ := Heap.free_of_live hheld.live
    refine ⟨heap₂, ?_, fun i hi ↦ (hother' i hi).trans (hplaced i hi)⟩
    have hfree' : heap₁.free (strdup heap (d :: rest)).2 = .ok heap₂ := hfree
    have hwhole : CString.ofBlock heap₁ (strdup heap (d :: rest)).2 = .ok (d :: rest) :=
      ofBlock_of_whole hno hheld
    have hne : ret ≠ -1 := by
      rw [hret]
      decide
    simp only [createDirectories, hrun', ok_bind, if_neg hne, hwhole, hfree', pure_eq_ok, hmake]

/-- For the empty path the loop starts behind the terminator. -/
theorem createDirectories_nil (heap : Heap UInt8) (fs : FileTree) :
    createDirectories heap fs [] = .error .outOfBounds := by
  have hpass : directoryPass heap.next ⟨(strdup heap []).1, fs, 1⟩ = .error .outOfBounds := by
    have hload : (strdup heap []).1.load heap.next 1 1 = .error .outOfBounds := by
      rw [Heap.load, strdup, Heap.place_cells_self]
      rfl
    simp only [directoryPass, hload, error_bind]
  have hrun : Loop.run .outOfFuel (directoryPass (strdup heap []).2) 1 ⟨(strdup heap []).1, fs, 1⟩
      = .error .outOfBounds := by
    have hpass' : directoryPass (strdup heap []).2 ⟨(strdup heap []).1, fs, 1⟩
        = .error .outOfBounds := hpass
    rw [Loop.run, hpass']
  simp only [createDirectories, List.length_nil, Nat.zero_add, hrun, error_bind]

end Copy

/-! ## One directory -/

section Making

variable {fs fs' : FileTree} {path done rest : List UInt8} {n : ℕ} {name : List UInt8}
  {st : ℕ × List UInt8}

theorem extends_createDirectory (fs : FileTree) (path : List UInt8) :
    Extends fs (createDirectory fs path).1 := by
  rw [createDirectory]
  split
  · exact .refl fs
  split
  · rename_i hmkdir
    exact extends_mkdir hmkdir
  · split
    · exact .refl fs
    · exact .refl fs

theorem contents_createDirectory (fs : FileTree) (path : List UInt8) :
    (createDirectory fs path).1.contents = fs.contents := by
  rw [createDirectory]
  split
  · rfl
  split
  · rename_i hmkdir
    exact contents_mkdir hmkdir
  · split <;> rfl

/-- `create_directory`, where the walk to the parent goes well: the directory is made if there is no
entry for it. An entry that is not a directory is not told apart from one that is. -/
theorem createDirectory_of_walk (hne : path ≠ [])
    (hwalk : fs.walk (fs.start path) path = .ok (n, name)) : createDirectory fs path
      = (if name ≠ [] ∧ fs.entry n name = none then fs.addDir n name else fs, 0) := by
  by_cases hname : name = []
  · have hstat : fs.stat path = .ok n :=
      stat_eq_ok_iff.mpr ⟨hne, n, name, hwalk, .inl ⟨hname, rfl⟩⟩
    rw [createDirectory, hstat, if_neg fun hand ↦ hand.1 hname]
  rcases hentry : fs.entry n name with _ | m
  · have hstat : fs.stat path = .error .enoent := by
      rw [stat, if_neg hne, hwalk]
      simp only [if_neg hname, hentry]
    have hmkdir : fs.mkdir path = .ok (fs.addDir n name) := by
      rw [mkdir_of_entry hne hwalk hname, hentry]
    rw [createDirectory, hstat, if_pos ⟨hname, rfl⟩]
    simp only [hmkdir]
  · have hstat : fs.stat path = .ok m :=
      stat_eq_ok_iff.mpr ⟨hne, n, name, hwalk, .inr ⟨hname, hentry⟩⟩
    rw [createDirectory, hstat, if_neg fun hand ↦ by cases hand.2]

/-- **The directory in front of a slash.** Either it is there afterwards and the walk can go on in
it, or something else has its name. -/
private theorem createDirectory_slash (hne : done ≠ [])
    (hwalk : fs.walk (fs.start done) done = .ok (n, name)) (hdir : fs.isDir n = true)
    (path : List UInt8) :
    (∃ fs₁ m, createDirectory fs done = (fs₁, 0) ∧ fs₁.isDir m = true ∧
        fs₁.walk (fs₁.start (done ++ [slash])) (done ++ [slash]) = .ok (m, []) ∧
        fs.mkdirs (n, name) (slash :: path) = fs₁.mkdirs (m, []) path) ∨
      (fs.mkdirs (n, name) (slash :: path) = none ∧
        ∃ i, fs.stat done = .ok i ∧ (fs.contents i).isSome = true) := by
  have hmade := createDirectory_of_walk hne hwalk
  -- a walk that can go down goes well past the slash
  have hpast : ∀ {fs₁ m}, Extends fs fs₁ → fs₁.descend n name = .ok m →
      fs₁.walk (fs₁.start (done ++ [slash])) (done ++ [slash]) = .ok (m, []) := by
    intro fs₁ m hext hdescend
    rw [start_append fs₁ hne, hext.start_eq, walk_append, hext.walk hwalk]
    exact walk_slash hdescend []
  by_cases hname : name = []
  · rw [if_neg fun hand ↦ hand.1 hname] at hmade
    refine .inl ⟨fs, n, hmade, hdir, hpast (.refl fs) ?_, ?_⟩
    · rw [descend, if_pos hname]
    · rw [mkdirs, if_pos rfl, if_pos hname]
  rcases hentry : fs.entry n name with _ | m
  · rw [if_pos ⟨hname, hentry⟩] at hmade
    refine .inl ⟨fs.addDir n name, fs.next, hmade, ?_, ?_, ?_⟩
    · rw [addDir, isDir_add hdir, if_pos rfl, Inode.isDir]
    · exact hpast (extends_addDir hdir hentry) (descend_addDir hdir hname hentry)
    · rw [mkdirs, if_pos rfl, if_neg hname, hentry]
  · rw [if_neg fun hand ↦ by rw [hentry] at hand; cases hand.2] at hmade
    rcases hm : fs.isDir m with _ | _
    · refine .inr ⟨?_, m, ?_, isSome_contents_of_entry hentry hm⟩
      · simp only [mkdirs, if_true, if_neg hname, hentry, hm, Bool.false_eq_true, if_false]
      · exact stat_eq_ok_iff.mpr ⟨hne, n, name, hwalk, .inr ⟨hname, hentry⟩⟩
    · refine .inl ⟨fs, m, hmade, hm, hpast (.refl fs) (descend_of_entry hname hentry hm), ?_⟩
      simp only [mkdirs, if_true, if_neg hname, hentry, hm]

/-! ## All directories -/

theorem extends_makeEach (fs : FileTree) (done rest : List UInt8) :
    Extends fs (makeEach fs done rest).1 := by
  induction rest generalizing fs done with
  | nil => exact extends_createDirectory fs done
  | cons b rest ih =>
    rw [makeEach]
    split
    · have hext := extends_createDirectory fs done
      split
      · exact hext
      · exact hext.trans (ih _ _)
    · exact ih _ _

theorem contents_makeEach (fs : FileTree) (done rest : List UInt8) :
    (makeEach fs done rest).1.contents = fs.contents := by
  induction rest generalizing fs done with
  | nil => exact contents_createDirectory fs done
  | cons b rest ih =>
    rw [makeEach]
    split
    · split
      · exact contents_createDirectory fs done
      · exact (ih _ _).trans (contents_createDirectory fs done)
    · exact ih _ _

theorem makeEach_of_mkdirs (hne : done ≠ []) (hwalk : fs.walk (fs.start done) done = .ok (n, name))
    (hdir : fs.isDir n = true) (h : fs.mkdirs (n, name) (rest ++ [slash]) = some (fs', st)) :
    makeEach fs done rest = (fs', 0) := by
  induction rest generalizing fs done n name with
  | nil =>
    rcases createDirectory_slash hne hwalk hdir [] with ⟨fs₁, m, hmade, -, -, hrest⟩ | ⟨hnone, -⟩
    · rw [List.nil_append, hrest, mkdirs] at h
      cases h
      exact hmade
    · rw [List.nil_append, hnone] at h
      cases h
  | cons b rest ih =>
    rw [List.cons_append] at h
    by_cases hb : b = slash
    · subst hb
      rcases createDirectory_slash hne hwalk hdir (rest ++ [slash]) with
        ⟨fs₁, m, hmade, hm, hwalk₁, hrest⟩ | ⟨hnone, -⟩
      · rw [hrest] at h
        rw [makeEach, if_pos rfl, hmade]
        exact ih (List.concat_ne_nil _ _) hwalk₁ hm h
      · rw [hnone] at h
        cases h
    · rw [mkdirs, if_neg hb] at h
      rw [makeEach, if_neg hb]
      refine ih (List.concat_ne_nil _ _) ?_ hdir h
      rw [start_append fs hne, walk_append, hwalk]
      exact if_neg hb

/-- Where the directories of a path cannot be made, the file that is in the way stays. -/
theorem makeEach_of_obstructed (hne : done ≠ [])
    (hwalk : fs.walk (fs.start done) done = .ok (n, name)) (hdir : fs.isDir n = true)
    (h : fs.mkdirs (n, name) (rest ++ [slash]) = none) :
    ∃ q i, q ≠ [] ∧ (q ++ [slash]).IsPrefix (done ++ rest ++ [slash]) ∧
      (makeEach fs done rest).1.stat q = .ok i ∧
      ((makeEach fs done rest).1.contents i).isSome = true := by
  induction rest generalizing fs done n name with
  | nil =>
    rcases createDirectory_slash hne hwalk hdir [] with
      ⟨fs₁, m, -, -, -, hrest⟩ | ⟨-, i, hstat, hfile⟩
    · rw [List.nil_append, hrest, mkdirs] at h
      cases h
    · have hext := extends_createDirectory fs done
      refine ⟨done, i, hne, ?_, hext.stat hstat, hext.contents hfile⟩
      rw [List.append_nil]
  | cons b rest ih =>
    rw [List.cons_append] at h
    have hsplit : done ++ b :: rest ++ [slash] = (done ++ [b]) ++ rest ++ [slash] := by
      rw [List.append_assoc done [b], List.singleton_append]
    by_cases hb : b = slash
    · subst hb
      rcases createDirectory_slash hne hwalk hdir (rest ++ [slash]) with
        ⟨fs₁, m, hmade, hm, hwalk₁, hrest⟩ | ⟨-, i, hstat, hfile⟩
      · rw [hrest] at h
        rw [makeEach, if_pos rfl, hmade, hsplit]
        exact ih (List.concat_ne_nil _ _) hwalk₁ hm h
      · have hext := extends_makeEach fs done (slash :: rest)
        refine ⟨done, i, hne, ?_, hext.stat hstat, hext.contents hfile⟩
        rw [hsplit, List.append_assoc (done ++ [slash])]
        exact List.prefix_append ..
    · rw [mkdirs, if_neg hb] at h
      rw [makeEach, if_neg hb, hsplit]
      refine ih (List.concat_ne_nil _ _) ?_ hdir h
      rw [start_append fs hne, walk_append, hwalk]
      exact if_neg hb

end Making

end Aesd
