import HttpReplay.Proofs.Files.Names

/-!
# Making directories

A directory that was made is there, with those above it. What else stood in the tree stands in it as
before, whether or not all of them could be made, since a directory is put only where nothing was.
So a path that led somewhere still leads there.

Creating a file where a file is changes what it holds, and nothing about where paths lead.

* `HttpReplay.FileTree.KeptIn` and `HttpReplay.FileTree.ShapeIn` – a tree, or the shape of it, is
  kept in another;
* `HttpReplay.FileTree.ShapeIn.find` – **paths lead where they led**;
* `HttpReplay.FileTree.leads_of_createDirectories` and
  `HttpReplay.FileTree.keptIn_createDirectories` – what making directories does;
* `HttpReplay.FileTree.createFile_of_find` – a file is created where one is.
-/

namespace HttpReplay.FileTree

variable {t t' t'' : FileTree} {start place p q : FilePlace} {part last path : String}
  {parts : List String} {node : FileNode}

/-! ### Trees in other trees -/

/-- **A tree is kept in another**: what stands in the one stands in the other as well. -/
structure KeptIn (t t' : FileTree) : Prop where
  current : t'.current = t.current
  get?_eq_some : ∀ {place node}, t.get? place = some node → t'.get? place = some node

/-- **The shape of a tree is kept in another**: where there is a file in the one there is a file in
the other, whatever it holds, and where there is a directory there is a directory. -/
structure ShapeIn (t t' : FileTree) : Prop where
  current : t'.current = t.current
  exists_get? : ∀ {place node}, t.get? place = some node →
    ∃ node', t'.get? place = some node' ∧ node'.isDirectory = node.isDirectory

theorem KeptIn.refl (t : FileTree) : t.KeptIn t := ⟨rfl, id⟩

theorem KeptIn.trans (h : t.KeptIn t') (h' : t'.KeptIn t'') : t.KeptIn t'' :=
  ⟨h'.current.trans h.current, fun hget => h'.get?_eq_some (h.get?_eq_some hget)⟩

theorem KeptIn.shapeIn (h : t.KeptIn t') : t.ShapeIn t' :=
  ⟨h.current, fun hget => ⟨_, h.get?_eq_some hget, rfl⟩⟩

/-- What is put where nothing is takes the place of nothing. -/
theorem keptIn_put (h : t.get? place = none) (node : FileNode) : t.KeptIn (t.put place node) where
  current := rfl
  get?_eq_some := by
    intro p found hget
    rwa [get?_put_of_ne]
    rintro rfl
    rw [h] at hget
    cases hget

section Files

variable {content content' : Bytes} {isExecutable isExecutable' : Bool}

/-- A file in the place of a file does not change the shape of a tree. -/
theorem shapeIn_put_file (h : t.get? place = some (.file content isExecutable)) :
    t.ShapeIn (t.put place (.file content' isExecutable')) ∧
      (t.put place (.file content' isExecutable')).ShapeIn t := by
  have hself : (t.put place (.file content' isExecutable')).get? place =
      some (.file content' isExecutable') :=
    get?_put_self (ne_nil_of_get? (by rw [h]; simp))
  refine ⟨⟨rfl, fun {p found} hget => ?_⟩, ⟨rfl, fun {p found} hget => ?_⟩⟩
  all_goals by_cases hp : p = place
  · subst hp
    rw [h] at hget
    exact ⟨_, hself, by cases hget; rfl⟩
  · exact ⟨found, by rwa [get?_put_of_ne hp], rfl⟩
  · subst hp
    rw [hself] at hget
    exact ⟨_, h, by cases hget; rfl⟩
  · exact ⟨found, by rwa [get?_put_of_ne hp] at hget, rfl⟩

end Files

/-! ### Where paths lead -/

theorem ShapeIn.step (h : t.ShapeIn t') (hstep : t.step p part = .ok (q, node)) :
    ∃ node', t'.step p part = .ok (q, node') ∧ node'.isDirectory = node.isDirectory := by
  unfold FileTree.step at hstep ⊢
  split_ifs at hstep ⊢ with hdot hdots hlong
  · exact ⟨node, hstep, rfl⟩
  · exact ⟨node, hstep, rfl⟩
  · cases hget : t.get? (p ++ [part]) with
    | none => simp [hget] at hstep
    | some found =>
      obtain ⟨node', hget', hkind⟩ := h.exists_get? hget
      simp only [hget, Except.ok.injEq, Prod.mk.injEq] at hstep
      obtain ⟨rfl, rfl⟩ := hstep
      exact ⟨node', by rw [hget'], hkind⟩

/-- What leads to directories still leads to them. -/
theorem ShapeIn.descend (h : t.ShapeIn t') (hparts : t.descend p parts = .ok q) :
    t'.descend p parts = .ok q := by
  refine descend_of_directories (fun r hr => ?_) hparts
  obtain ⟨node, hget, hkind⟩ := h.exists_get? hr
  cases node with
  | directory => exact hget
  | file content isExecutable => cases hkind

theorem ShapeIn.start_eq (h : t.ShapeIn t') (path : String) : t'.start path = t.start path := by
  rw [FileTree.start, FileTree.start, h.current]

/-- **Paths lead where they led**, to what is of the same kind. -/
theorem ShapeIn.find (h : t.ShapeIn t') (hfind : t.find path = .ok (place, node)) :
    ∃ node', t'.find path = .ok (place, node') ∧ node'.isDirectory = node.isDirectory := by
  obtain ⟨hcheck, ⟨hparts, rfl, rfl⟩ | ⟨above, last, p, hparts, hdescend, hstep, hslash⟩⟩ :=
    find_eq_ok.mp hfind
  · exact ⟨.directory, find_eq_ok.mpr ⟨hcheck, .inl ⟨hparts, h.start_eq path, rfl⟩⟩, rfl⟩
  · obtain ⟨node', hstep', hkind⟩ := h.step hstep
    refine ⟨node', find_eq_ok.mpr ⟨hcheck, .inr ⟨above, last, p, hparts, ?_, hstep', ?_⟩⟩, hkind⟩
    · rw [h.start_eq]
      exact h.descend hdescend
    · rwa [hkind]

/-- A path that leads nowhere in the one tree leads nowhere in the other, if either keeps the shape
of the other. -/
theorem ShapeIn.exists_find_eq_error (h : t'.ShapeIn t)
    (hfind : ∃ fault, t.find path = .error fault) : ∃ fault, t'.find path = .error fault := by
  obtain ⟨fault, hfault⟩ := hfind
  cases hfound : t'.find path with
  | error fault' => exact ⟨fault', rfl⟩
  | ok found =>
    obtain ⟨place, node⟩ := found
    obtain ⟨node', hfind', -⟩ := h.find hfound
    rw [hfault] at hfind'
    cases hfind'

/-- A path that leads to a file leads to what stands at its place. -/
theorem get?_of_find {content : Bytes} {isExecutable : Bool}
    (h : t.find path = .ok (place, .file content isExecutable)) :
    t.get? place = some (.file content isExecutable) := by
  obtain ⟨-, ⟨-, -, hnode⟩ | ⟨above, last, p, -, -, hstep, -⟩⟩ := find_eq_ok.mp h
  · cases hnode
  · unfold FileTree.step at hstep
    split_ifs at hstep
    · cases hstep
    · cases hstep
    · cases hget : t.get? (p ++ [last]) with
      | none => simp [hget] at hstep
      | some found =>
        simp only [hget, Except.ok.injEq, Prod.mk.injEq] at hstep
        obtain ⟨rfl, rfl⟩ := hstep
        exact hget

/-- A path that leads to a file still leads there, and the file holds the same, in a tree that keeps
it. -/
theorem KeptIn.find_file (h : t.KeptIn t') {content : Bytes} {isExecutable : Bool}
    (hfind : t.find path = .ok (place, .file content isExecutable)) :
    t'.find path = .ok (place, .file content isExecutable) := by
  obtain ⟨node', hfind', hkind⟩ := h.shapeIn.find hfind
  cases node' with
  | directory => cases hkind
  | file content' isExecutable' =>
    have hget := get?_of_find hfind'
    rw [h.get?_eq_some (get?_of_find hfind)] at hget
    rw [hfind', Option.some.inj hget]

/-- **A file is created where one is**: it is emptied. -/
theorem createFile_of_find {content : Bytes} {isExecutable : Bool}
    (h : t.find path = .ok (place, .file content isExecutable)) :
    t.createFile path = .ok (t.put place (.file [] isExecutable), place) := by
  have hget := get?_of_find h
  obtain ⟨hcheck, ⟨-, -, hnode⟩ | ⟨above, last, p, hparts, hdescend, hstep, hslash⟩⟩ :=
    find_eq_ok.mp h
  · cases hnode
  · have hplace : t.placeForFile path = .ok place := by
      have hopen : FilePath.endsWithSlash path = false := by
        by_contra hs
        exact Bool.false_ne_true (hslash (Bool.not_eq_false _ ▸ hs))
      unfold placeForFile
      simp only [hcheck, hparts, bind, Except.bind, List.reverse_append, List.reverse_singleton,
        List.singleton_append, List.reverse_reverse, hdescend, hstep, hopen, Bool.false_eq_true,
        if_false]
      rfl
    unfold createFile
    simp only [hplace, bind, Except.bind, hget]
    rfl

/-! ### Making directories -/

/-- A name that leads nowhere leads to what is put there. -/
theorem step_put_of_notFound (h : t.step place last = .error .notFound) :
    t.get? (place ++ [last]) = none ∧
      (t.put (place ++ [last]) .directory).step place last =
        .ok (place ++ [last], .directory) := by
  unfold FileTree.step at h ⊢
  split_ifs at h ⊢ with hdot hdots hlong
  · cases h
  · cases hget : t.get? (place ++ [last]) with
    | some node => simp [hget] at h
    | none =>
      rw [get?_put_self (by simp)]
      simp

/-- A single directory that was made is there, and nothing was there before. -/
theorem leads_of_makeDirectory (h : t.makeDirectory start parts = .ok t') :
    ∃ place, t' = t.put place .directory ∧ t.get? place = none ∧
      t'.descend start parts = .ok place := by
  rcases List.eq_nil_or_concat parts with rfl | ⟨above, last, rfl⟩
  · cases h
  · rw [List.concat_eq_append] at h ⊢
    simp only [makeDirectory, List.reverse_append, List.reverse_singleton, List.singleton_append,
      List.reverse_reverse] at h
    cases hplace : t.descend start above with
    | error fault => simp [hplace, bind, Except.bind] at h
    | ok place =>
      cases hstep : t.step place last with
      | ok found =>
        simp [hplace, hstep, bind, Except.bind, throw, throwThe, MonadExceptOf.throw] at h
      | error fault =>
        cases fault <;>
          simp [hplace, hstep, bind, Except.bind, throw, throwThe, MonadExceptOf.throw, pure,
            Except.pure] at h
        obtain ⟨hfree, hnew⟩ := step_put_of_notFound hstep
        have hkept := (keptIn_put hfree .directory).shapeIn
        exact ⟨_, h.symm, hfree,
          descend_concat.mpr ⟨place, h ▸ hkept.descend hplace, h ▸ hnew⟩⟩

/-- A directory that could not be made may be there already. -/
theorem leads_of_leadsToDirectory {fault : IoFault}
    (h : (if t.leadsToDirectory start parts then .ok () else .error fault) = Except.ok ()) :
    ∃ place, t.descend start parts = .ok place := by
  unfold leadsToDirectory at h
  cases hplace : t.descend start parts with
  | ok place => exact ⟨place, rfl⟩
  | error fault => simp [hplace] at h

/-- **A directory that was made is there**, with those above it, and so is what was there before. -/
theorem leads_of_makeDirectories (t : FileTree) (start : FilePlace) (parts : List String) :
    ((t.makeDirectories start parts).2 = .ok () →
      ∃ place, (t.makeDirectories start parts).1.descend start parts = .ok place) ∧
    t.KeptIn (t.makeDirectories start parts).1 := by
  fun_induction t.makeDirectories start parts with
  | case1 => exact ⟨fun _ => ⟨start, rfl⟩, .refl t⟩
  | case2 parts hne t' hmade =>
    obtain ⟨place, rfl, hfree, hleads⟩ := leads_of_makeDirectory hmade
    exact ⟨fun _ => ⟨place, hleads⟩, keptIn_put hfree _⟩
  | case3 parts hne hmissing t' fault habove ih =>
    rw [habove] at ih
    exact ⟨nofun, ih.2⟩
  | case4 parts hne hmissing t' habove t'' hmade ih =>
    rw [habove] at ih
    obtain ⟨place, rfl, hfree, hleads⟩ := leads_of_makeDirectory hmade
    exact ⟨fun _ => ⟨place, hleads⟩, ih.2.trans (keptIn_put hfree _)⟩
  | case5 parts hne hmissing t' habove fault hfault ih =>
    rw [habove] at ih
    exact ⟨leads_of_leadsToDirectory, ih.2⟩
  | case6 parts hne fault hother hfault => exact ⟨leads_of_leadsToDirectory, .refl t⟩

/-- The path of a directory that was made leads there, and is empty or one that can be followed. -/
theorem leads_of_createDirectories (h : t.createDirectories path = (t', .ok ())) :
    (path ≠ "" → checkPath path = .ok ()) ∧
      ∃ dir, t'.descend (t'.start path) (FilePath.parts path) = .ok dir := by
  unfold createDirectories at h
  split_ifs at h with hpath
  · obtain ⟨rfl, -⟩ := Prod.mk.inj h
    exact ⟨fun hne => absurd hpath hne, t.start path, by rw [hpath]; rfl⟩
  · cases hcheck : checkPath path with
    | error fault => simp [hcheck] at h
    | ok u =>
      simp only [hcheck] at h
      obtain ⟨hleads, hkept⟩ := leads_of_makeDirectories t (t.start path) (FilePath.parts path)
      rw [h] at hleads hkept
      rw [hkept.shapeIn.start_eq]
      exact ⟨fun _ => rfl, hleads rfl⟩

/-- **Making directories takes nothing away**, whether or not all of them could be made. -/
theorem keptIn_createDirectories (t : FileTree) (path : String) :
    t.KeptIn (t.createDirectories path).1 := by
  unfold createDirectories
  split_ifs
  · exact .refl t
  · cases checkPath path with
    | error fault => exact .refl t
    | ok u => exact (leads_of_makeDirectories t (t.start path) (FilePath.parts path)).2

end HttpReplay.FileTree
