import HttpReplay.Files.Tree

/-!
# Putting files into a tree

What a tree tells after something was put into it, and where the path of a name below another
path leads. Paths are followed through directories, so a file that takes the place of no
directory leaves every path that led somewhere leading there.

* `HttpReplay.FilePath.parts_join` – the parts of a name below a path;
* `HttpReplay.FileTree.get?_put_self` and `HttpReplay.FileTree.get?_put_of_ne` – what stands in
  a tree after something was put there;
* `HttpReplay.FileTree.descend_of_directories` – **paths stay**, among them those in a tree to which
  something was put (`HttpReplay.FileTree.descend_put`);
* `HttpReplay.FileTree.placeForFile_join_eq_ok` and `HttpReplay.FileTree.find_join` – following the
  path of a name below a path is following the path, and then the name.
-/

namespace HttpReplay

/-! ### Names below a path -/

namespace FilePath

/-- **A name**: what can stand between slashes and leads one step down. -/
structure IsName (name : String) : Prop where
  ne_empty : name ≠ ""
  ne_dot : name ≠ "."
  ne_dots : name ≠ ".."
  no_slash : '/' ∉ name.toList

variable {base name : String}

theorem partsFrom_append_slash (current cs ds : List Char) :
    partsFrom current (cs ++ '/' :: ds) = partsFrom current cs ++ partsFrom [] ds := by
  induction cs generalizing current with
  | nil => simp [partsFrom]
  | cons c cs ih =>
    rw [List.cons_append, partsFrom, partsFrom]
    by_cases hc : c = '/'
    · rw [if_pos hc, if_pos hc, ih, List.cons_append]
    · rw [if_neg hc, if_neg hc, ih]

theorem partsFrom_of_no_slash {cs : List Char} (h : '/' ∉ cs) (current : List Char) :
    partsFrom current cs = [String.ofList (current.reverse ++ cs)] := by
  induction cs generalizing current with
  | nil => rw [partsFrom, List.append_nil]
  | cons c cs ih =>
    have hc : c ≠ '/' := fun hc => h (hc ▸ List.mem_cons_self)
    rw [partsFrom, if_neg hc, ih (fun hm => h (List.mem_cons_of_mem c hm)), List.reverse_cons,
      List.append_assoc, List.singleton_append]

/-- A path with a slash behind it has the same parts. -/
theorem filter_partsFrom_slash (cs ds : List Char) :
    (partsFrom [] (cs ++ '/' :: ds)).filter (· ≠ "") =
      (partsFrom [] cs).filter (· ≠ "") ++ (partsFrom [] ds).filter (· ≠ "") := by
  rw [partsFrom_append_slash, List.filter_append]

theorem filter_partsFrom_name (h : IsName name) :
    (partsFrom [] name.toList).filter (· ≠ "") = [name] := by
  rw [partsFrom_of_no_slash h.no_slash, List.reverse_nil, List.nil_append, String.ofList_toList,
    List.filter_cons_of_pos (by simpa using h.ne_empty), List.filter_nil]

/-- **The parts of a name below a path** are those of the path and the name. -/
theorem parts_join (base : String) (h : IsName name) :
    parts (join base name) = parts base ++ [name] := by
  unfold parts join
  by_cases hempty : base = ""
  · rw [if_pos (.inl hempty), hempty, String.empty_append, filter_partsFrom_name h]
    rfl
  by_cases hslash : endsWithSlash base
  · obtain ⟨cs, hcs⟩ : ∃ cs, base.toList = cs ++ ['/'] := by
      rw [endsWithSlash, beq_iff_eq] at hslash
      exact List.getLast?_eq_some_iff.mp hslash
    rw [if_pos (.inr hslash), String.toList_append, hcs, List.append_assoc, List.singleton_append,
      filter_partsFrom_slash, filter_partsFrom_name h, filter_partsFrom_slash]
    simp [partsFrom]
  · rw [if_neg (by simp [hempty, hslash]), String.toList_append, String.toList_append,
      List.append_assoc]
    exact (filter_partsFrom_slash base.toList name.toList).trans
      (congrArg _ (filter_partsFrom_name h))

/-- The last part of such a path is the name. -/
theorem reverse_parts_join (base : String) (h : IsName name) :
    (parts (join base name)).reverse = name :: (parts base).reverse := by
  rw [parts_join base h, List.reverse_append]
  rfl

theorem isAbsolute_join (base : String) (h : IsName name) :
    isAbsolute (join base name) = isAbsolute base := by
  unfold isAbsolute join
  by_cases hempty : base = ""
  · have hhead : name.toList.head? ≠ some '/' := fun hh => h.no_slash (List.mem_of_head? hh)
    rw [if_pos (.inl hempty), hempty, String.empty_append]
    simpa using hhead
  · have hne : base.toList ≠ [] := by simpa using hempty
    split <;> simp [List.head?_append, List.head?_eq_some_head hne]

theorem endsWithSlash_join (base : String) (h : IsName name) :
    endsWithSlash (join base name) = false := by
  have hne : name.toList ≠ [] := by simpa using h.ne_empty
  have hlast : name.toList.getLast? ≠ some '/' := fun hl => h.no_slash (List.mem_of_getLast? hl)
  have hjoin : (join base name).toList.getLast? = name.toList.getLast? := by
    obtain ⟨d, ds, hd⟩ := List.exists_cons_of_ne_nil hne
    unfold join
    split <;> simp [List.getLast?_append, hd, List.getLast?_cons]
  rw [endsWithSlash, hjoin]
  simpa using hlast

end FilePath

namespace FileTree

variable {t t' : FileTree} {place p q : FilePlace} {node : FileNode}

/-! ### Putting and getting -/

theorem get?_put_self (h : place ≠ []) : (t.put place node).get? place = some node := by
  have hnone : (t.nodes.filter (·.1 ≠ place)).lookup place = none := by
    rw [List.lookup_eq_none_iff]
    intro x hx
    have hne : x.1 ≠ place := of_decide_eq_true (List.mem_filter.mp hx).2
    exact bne_iff_ne.mpr hne.symm
  rw [get?, if_neg h, put, List.lookup_append, hnone]
  simp

theorem lookup_filter_ne (nodes : List (FilePlace × FileNode)) (h : p ≠ place) :
    (nodes.filter (·.1 ≠ place)).lookup p = nodes.lookup p := by
  induction nodes with
  | nil => rfl
  | cons x xs ih =>
    obtain ⟨r, n⟩ := x
    by_cases hr : r = place
    · have hpr : (p == r) = false := by simpa [hr] using h
      rw [List.filter_cons_of_neg (by simpa using hr), ih, List.lookup_cons, hpr]
    · rw [List.filter_cons_of_pos (by simpa using hr), List.lookup_cons, List.lookup_cons, ih]

theorem get?_put_of_ne (h : p ≠ place) : (t.put place node).get? p = t.get? p := by
  have hne : (p == place) = false := by simpa using h
  rw [get?, get?, put, List.lookup_append, lookup_filter_ne _ h, List.lookup_cons, hne]
  simp

/-- What is put at a place takes the place of what was put there before. -/
theorem put_put (t : FileTree) (place : FilePlace) (first second : FileNode) :
    (t.put place first).put place second = t.put place second := by
  simp [put, List.filter_append]

/-- A new file holds what is written to it from its start on. -/
theorem writeAt_put (h : place ≠ []) (t : FileTree) (isExecutable : Bool) (bytes : Bytes) :
    (t.put place (.file [] isExecutable)).writeAt place 0 bytes =
      t.put place (.file bytes isExecutable) := by
  have hall : overlay [] 0 bytes = bytes := by simp [overlay]
  rw [writeAt, get?_put_self h]
  simp only [put_put, hall]

theorem makeExecutable_put (h : place ≠ []) (t : FileTree) (wasExecutable : Bool)
    (bytes : Bytes) :
    (t.put place (.file bytes wasExecutable)).makeExecutable place =
      t.put place (.file bytes true) := by
  rw [makeExecutable, get?_put_self h]
  exact put_put t place _ _

/-- There is always a directory at the root. -/
theorem ne_nil_of_get? (h : t.get? place ≠ some .directory) : place ≠ [] := by
  rintro rfl
  exact h rfl

/-! ### Following paths -/

/-- Going down to a name looks at that name only. -/
theorem step_of_isName {name : String} (h : FilePath.IsName name) (t : FileTree)
    (place : FilePlace) :
    t.step place name =
      if longestName < name.utf8ByteSize then .error .nameTooLong
      else
        match t.get? (place ++ [name]) with
        | some node => .ok (place ++ [name], node)
        | none => .error .notFound :=
  (if_neg h.ne_dot).trans (if_neg h.ne_dots)

theorem step_of_directories (hkept : ∀ p, t.get? p = some .directory → t'.get? p = some .directory)
    {part : String} (h : t.step p part = .ok (q, .directory)) :
    t'.step p part = .ok (q, .directory) := by
  unfold step at h ⊢
  by_cases hdot : part = "."
  · rwa [if_pos hdot] at h ⊢
  by_cases hdots : part = ".."
  · rwa [if_neg hdot, if_pos hdots] at h ⊢
  by_cases hlong : longestName < part.utf8ByteSize
  · simp [hdot, hdots, hlong] at h
  rw [if_neg hdot, if_neg hdots, if_neg hlong] at h ⊢
  cases hget : t.get? (p ++ [part]) with
  | none => simp [hget] at h
  | some found =>
    simp only [hget, Except.ok.injEq, Prod.mk.injEq] at h
    obtain ⟨rfl, rfl⟩ := h
    rw [hkept _ hget]

theorem descend_cons (t : FileTree) (p : FilePlace) (part : String) (parts : List String) :
    t.descend p (part :: parts) = .ok q ↔
      ∃ r, t.step p part = .ok (r, .directory) ∧ t.descend r parts = .ok q := by
  rw [descend]
  cases t.step p part with
  | error fault => simp [bind, Except.bind]
  | ok found =>
    obtain ⟨r, node⟩ := found
    cases node with
    | directory => simp [bind, Except.bind]
    | file content isExecutable => simp [bind, Except.bind]

/-- **Paths stay**: parts that lead to a directory still do in a tree with all the directories. -/
theorem descend_of_directories
    (hkept : ∀ p, t.get? p = some .directory → t'.get? p = some .directory) {parts : List String}
    (h : t.descend p parts = .ok q) : t'.descend p parts = .ok q := by
  induction parts generalizing p with
  | nil => exact h
  | cons part parts ih =>
    obtain ⟨r, hstep, hrest⟩ := (descend_cons t p part parts).mp h
    exact (descend_cons t' p part parts).mpr ⟨r, step_of_directories hkept hstep, ih hrest⟩

/-- They do when something is put where no directory was. -/
theorem descend_put (hfree : t.get? place ≠ some .directory) {parts : List String}
    (h : t.descend p parts = .ok q) : (t.put place node).descend p parts = .ok q := by
  refine descend_of_directories (fun r hr => ?_) h
  rwa [get?_put_of_ne]
  rintro rfl
  exact hfree hr

section Below

variable {base name : String} {dir : FilePlace}

theorem start_join (h : FilePath.IsName name) (t : FileTree) (base : String) :
    t.start (FilePath.join base name) = t.start base := by
  rw [start, start, FilePath.isAbsolute_join base h]

/-- **The path of a name below a path** leads down from where the path leads. -/
theorem find_join (h : FilePath.IsName name)
    (hdir : t.descend (t.start base) (FilePath.parts base) = .ok dir) :
    t.find (FilePath.join base name) =
      (do checkPath (FilePath.join base name); t.step dir name) := by
  rw [find, FilePath.reverse_parts_join base h]
  simp only [start_join h, List.reverse_reverse, hdir, FilePath.endsWithSlash_join base h]
  cases checkPath (FilePath.join base name) with
  | error fault => rfl
  | ok u =>
    cases hstep : t.step dir name with
    | error fault => simp [bind, Except.bind, hstep]
    | ok found => simp [bind, Except.bind, hstep, pure, Except.pure]

/-- **A file can be written** below a path if the path leads to a directory, the name is not too
long, and no directory has it. -/
theorem placeForFile_join_eq_ok (h : FilePath.IsName name) :
    t.placeForFile (FilePath.join base name) = .ok place ↔
      checkPath (FilePath.join base name) = .ok () ∧
        ∃ dir, t.descend (t.start base) (FilePath.parts base) = .ok dir ∧
          name.utf8ByteSize ≤ longestName ∧
            t.get? (dir ++ [name]) ≠ some .directory ∧ place = dir ++ [name] := by
  rw [placeForFile, FilePath.reverse_parts_join base h]
  simp only [start_join h, List.reverse_reverse, FilePath.endsWithSlash_join base h]
  cases checkPath (FilePath.join base name) with
  | error fault => simp [bind, Except.bind]
  | ok u =>
    cases hdir : t.descend (t.start base) (FilePath.parts base) with
    | error fault => simp [bind, Except.bind]
    | ok dir =>
      have hstep := step_of_isName h t dir
      by_cases hlong : longestName < name.utf8ByteSize
      · rw [if_pos hlong] at hstep
        simp [bind, Except.bind, hstep, Nat.not_le_of_lt hlong]
      · rw [if_neg hlong] at hstep
        have hshort : name.utf8ByteSize ≤ longestName := Nat.le_of_not_lt hlong
        cases hget : t.get? (dir ++ [name]) with
        | none =>
          rw [hget] at hstep
          simp [bind, Except.bind, pure, Except.pure, hstep, hget, hshort, eq_comm]
        | some node =>
          rw [hget] at hstep
          cases node with
          | directory => simp [bind, Except.bind, hstep, hget]
          | file content isExecutable =>
            simp [bind, Except.bind, pure, Except.pure, hstep, hget, hshort, eq_comm]

end Below

end FileTree

end HttpReplay
