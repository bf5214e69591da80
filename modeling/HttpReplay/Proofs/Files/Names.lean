import HttpReplay.Proofs.Files.Trees
import HttpReplay.Proofs.Text.Numerals
import HttpReplay.Store
import Mathlib.Data.List.Nodup

/-!
# The names in a directory

A name falls apart at its last dot, and a directory tells each of its names once. So the streams
that the names in the directory of a store speak of are those whose number stands between the two
parts of a file's name, in any of the ways in which a number can be read.

* `HttpReplay.FilePath.splitName_append` – a name with a dot;
* `HttpReplay.FileTree.mem_namesBelow` and `HttpReplay.FileTree.nodup_namesBelow` – **the names in a
  directory**;
* `HttpReplay.Store.idOfName?_eq_some` – **the names that speak of a stream**.
-/

namespace HttpReplay

/-! ### Names with a dot -/

namespace FilePath

theorem ne_dot_of_mem_reverse {cs : List Char} (h : '.' ∉ cs) :
    ∀ c ∈ cs.reverse, decide (c ≠ '.') = true := by
  intro c hc
  rw [decide_eq_true_eq]
  rintro rfl
  exact h (List.mem_reverse.mp hc)

/-- A name falls apart at its last dot, if that is not its first character. -/
theorem splitName_append (before : List Char) {ext : List Char} (h : '.' ∉ ext) :
    splitName (String.ofList (before ++ '.' :: ext)) =
      if before = [] then (String.ofList ('.' :: ext), none)
      else (String.ofList before, some (String.ofList ext)) := by
  have hlast : ((before ++ '.' :: ext).reverse.takeWhile (· ≠ '.')).reverse = ext := by
    rw [List.reverse_append, List.reverse_cons, List.append_assoc,
      List.takeWhile_append_of_pos (ne_dot_of_mem_reverse h), List.singleton_append,
      List.takeWhile_cons_of_neg (by simp), List.append_nil, List.reverse_reverse]
  have hbefore : ((before ++ '.' :: ext).take
      ((before ++ '.' :: ext).length - ext.length)).dropLast = before := by
    have hsplit : before ++ '.' :: ext = (before ++ ['.']) ++ ext := by simp
    have hlength : (before ++ '.' :: ext).length - ext.length = (before ++ ['.']).length := by
      rw [hsplit, List.length_append, Nat.add_sub_cancel]
    rw [hlength, hsplit, List.take_left, List.dropLast_concat]
  unfold splitName
  simp only [String.toList_ofList, hlast, hbefore]
  split_ifs with hnil
  · rw [hnil, List.nil_append]
  · rfl

theorem splitName_of_notMem {cs : List Char} (h : '.' ∉ cs) :
    splitName (String.ofList cs) = (String.ofList cs, none) := by
  have hlast : (cs.reverse.takeWhile (· ≠ '.')).reverse = cs := by
    rw [← List.append_nil cs.reverse, List.takeWhile_append_of_pos (ne_dot_of_mem_reverse h),
      List.takeWhile_nil, List.append_nil, List.reverse_reverse]
  unfold splitName
  simp only [String.toList_ofList, hlast, Nat.sub_self, List.take_zero, List.dropLast_nil, if_true]

/-- **A name with an extension** is what stands before its last dot, the dot, and the extension. -/
theorem extension?_eq_some {name ext : String} (h : extension? name = some ext) :
    name.toList = (stem name).toList ++ '.' :: ext.toList := by
  unfold extension? stem at *
  obtain ⟨cs, rfl⟩ : ∃ cs, name = String.ofList cs := ⟨name.toList, (String.ofList_toList).symm⟩
  by_cases hdot : '.' ∈ cs
  · obtain ⟨front, back, hcs, hfront⟩ := List.eq_append_cons_of_mem (List.mem_reverse.mpr hdot)
    obtain rfl : cs = back.reverse ++ '.' :: front.reverse := by
      rw [← List.reverse_reverse cs, hcs]
      simp
    rw [splitName_append _ (by simpa using hfront)] at h ⊢
    split_ifs at h ⊢ with hnil
    · obtain rfl := Option.some.inj h
      simp
  · rw [splitName_of_notMem hdot] at h
    cases h

end FilePath

/-! ### The names in a directory -/

namespace FileTree

variable {t : FileTree} {dir place : FilePlace} {name path : String} {node : FileNode}

/-- The name of a place below another. -/
theorem nameBelow_eq_some {p : FilePlace} :
    (if p.dropLast = dir then p.getLast? else none) = some name ↔ p = dir ++ [name] := by
  constructor
  · intro h
    split_ifs at h with hdir
    obtain ⟨front, rfl⟩ := List.getLast?_eq_some_iff.mp h
    rw [← hdir, List.dropLast_concat]
  · rintro rfl
    rw [List.dropLast_concat, if_pos rfl, List.getLast?_concat]

/-- The names below a place are those that are found there. -/
theorem mem_namesBelow : name ∈ t.namesBelow dir ↔ t.get? (dir ++ [name]) ≠ none := by
  have hget : t.get? (dir ++ [name]) = t.nodes.lookup (dir ++ [name]) := if_neg (by simp)
  rw [hget, namesBelow, List.mem_filterMap, Ne, List.lookup_eq_none_iff]
  simp only [nameBelow_eq_some, bne_iff_ne, not_forall, not_not, exists_prop]
  simp only [eq_comm]

/-- **No name stands twice in a directory.** -/
theorem nodup_namesBelow (t : FileTree) (dir : FilePlace) : (t.namesBelow dir).Nodup := by
  have hmap : t.namesBelow dir =
      (t.nodes.map (·.1)).filterMap fun p => if p.dropLast = dir then p.getLast? else none := by
    rw [List.filterMap_map]
    rfl
  rw [hmap]
  refine t.listedOnce.filterMap fun p q name hp hq => ?_
  rw [nameBelow_eq_some.mp hp, nameBelow_eq_some.mp hq]

theorem descend_concat {p q : FilePlace} {parts : List String} {last : String} :
    t.descend p (parts ++ [last]) = .ok q ↔
      ∃ r, t.descend p parts = .ok r ∧ t.step r last = .ok (q, .directory) := by
  induction parts generalizing p with
  | nil =>
    rw [List.nil_append, descend_cons]
    simp [descend]
  | cons part parts ih =>
    rw [List.cons_append, descend_cons]
    simp only [descend_cons, ih]
    constructor
    · rintro ⟨r, hstep, r', hrest, hlast⟩
      exact ⟨r', ⟨r, hstep, hrest⟩, hlast⟩
    · rintro ⟨r', ⟨r, hstep, hrest⟩, hlast⟩
      exact ⟨r, hstep, r', hrest, hlast⟩

/-- **What a path leads to**: where it begins if it has no parts, and else what its last part leads
to from the directory that the others lead to. -/
theorem find_eq_ok :
    t.find path = .ok (place, node) ↔ checkPath path = .ok () ∧
      ((FilePath.parts path = [] ∧ t.start path = place ∧ .directory = node) ∨
        ∃ above last p, FilePath.parts path = above ++ [last] ∧
          t.descend (t.start path) above = .ok p ∧ t.step p last = .ok (place, node) ∧
          (FilePath.endsWithSlash path → node.isDirectory)) := by
  rw [find]
  constructor
  · intro h
    cases hcheck : checkPath path with
    | error fault => simp [hcheck, bind, Except.bind] at h
    | ok u =>
      refine ⟨rfl, ?_⟩
      rcases List.eq_nil_or_concat (FilePath.parts path) with hparts | ⟨above, last, hparts⟩
      · simp only [hcheck, hparts, bind, Except.bind, pure, Except.pure, List.reverse_nil,
          Except.ok.injEq, Prod.mk.injEq] at h
        exact Or.inl ⟨hparts, h⟩
      · rw [List.concat_eq_append] at hparts
        simp only [hcheck, hparts, bind, Except.bind, List.reverse_append, List.reverse_singleton,
          List.singleton_append, List.reverse_reverse] at h
        cases hdescend : t.descend (t.start path) above with
        | error fault => simp [hdescend] at h
        | ok p =>
          cases hstep : t.step p last with
          | error fault => simp [hdescend, hstep] at h
          | ok found =>
            simp only [hdescend, hstep] at h
            split at h
            · cases h
            · rename_i hslash
              cases h
              refine Or.inr ⟨above, last, p, hparts, hdescend, hstep, fun hs => ?_⟩
              simpa [hs] using hslash
  · rintro ⟨hcheck, ⟨hparts, rfl, rfl⟩ | ⟨above, last, p, hparts, hdescend, hstep, hslash⟩⟩
    · simp [hcheck, hparts, bind, Except.bind, pure, Except.pure]
    · have hopen : ¬ (FilePath.endsWithSlash path ∧ ¬ node.isDirectory) := fun h => h.2 (hslash h.1)
      simp only [hcheck, hparts, bind, Except.bind, List.reverse_append, List.reverse_singleton,
        List.singleton_append, List.reverse_reverse, hdescend, hstep, if_neg hopen]
      rfl

/-- **A path leads to a directory** if its parts lead down from directory to directory. -/
theorem find_eq_directory :
    t.find path = .ok (place, .directory) ↔
      checkPath path = .ok () ∧ t.descend (t.start path) (FilePath.parts path) = .ok place := by
  rw [find_eq_ok]
  refine and_congr_right fun _ => ?_
  constructor
  · rintro (⟨hparts, rfl, -⟩ | ⟨above, last, p, hparts, hdescend, hstep, -⟩)
    · rw [hparts, descend]
    · rw [hparts]
      exact descend_concat.mpr ⟨p, hdescend, hstep⟩
  · intro h
    rcases List.eq_nil_or_concat (FilePath.parts path) with hparts | ⟨above, last, hparts⟩
    · rw [hparts, descend] at h
      exact Or.inl ⟨hparts, Except.ok.inj h, rfl⟩
    · rw [List.concat_eq_append] at hparts
      rw [hparts] at h
      obtain ⟨p, hdescend, hstep⟩ := descend_concat.mp h
      exact Or.inr ⟨above, last, p, hparts, hdescend, hstep, fun _ => rfl⟩

end FileTree

/-! ### Names of scripts -/

namespace Store

theorem isPrefixOf?_eq_some {front cs rest : List Char} :
    front.isPrefixOf? cs = some rest ↔ cs = front ++ rest := by
  induction front generalizing cs with
  | nil => simp [List.isPrefixOf?]
  | cons c front ih =>
    cases cs with
    | nil => simp [List.isPrefixOf?]
    | cons d cs =>
      rw [List.isPrefixOf?, List.cons_append, List.cons_eq_cons]
      split_ifs with h
      · rw [ih, ← beq_iff_eq.mp h]
        simp
      · simp only [beq_iff_eq] at h
        simp [Ne.symm h]

/-- **The names that speak of a stream**: its number, read in any way, between the two parts of the
name of a file. -/
theorem idOfName?_eq_some {name : String} {id : Nat} :
    idOfName? name = some id ↔ ∃ numeral, name.toList = namePrefix ++ numeral ++ ".py".toList ∧
      Numeral.readWord? 10 numeral = some id := by
  constructor
  · intro h
    unfold idOfName? at h
    split_ifs at h with hext
    obtain ⟨numeral, hstem, hread⟩ := Option.bind_eq_some_iff.mp h
    refine ⟨numeral, ?_, hread⟩
    rw [FilePath.extension?_eq_some hext, isPrefixOf?_eq_some.mp hstem]
    rfl
  · rintro ⟨numeral, hname, hread⟩
    have hsplit : FilePath.splitName name = (String.ofList (namePrefix ++ numeral), some "py") := by
      rw [← String.ofList_toList (s := name), hname]
      exact (FilePath.splitName_append _ (by decide : '.' ∉ "py".toList)).trans
        (if_neg (List.append_ne_nil_of_left_ne_nil (by decide) numeral))
    have hfront : namePrefix.isPrefixOf? (namePrefix ++ numeral) = some numeral :=
      isPrefixOf?_eq_some.mpr rfl
    simp only [idOfName?, FilePath.extension?, FilePath.stem, hsplit, String.toList_ofList, hfront]
    exact (if_pos rfl).trans hread

end Store

end HttpReplay
