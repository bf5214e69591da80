import HttpReplay.Proofs.Files.Names
import HttpReplay.Proofs.Files.Stores

/-!
# Listing scripts

A store lists the numbers that it reads off the names in its directory, in ascending order, and it
finds the script of a stream under the one name that it writes. The two agree on all files that have
such a name. But a number can be read off other names too: with zeros in front, or a plus sign. A
file with such a name is listed although no script is found for its number, and listed once more if
there is one.

* `HttpReplay.Store.Tells` – the names that tell the number of a stream;
* `HttpReplay.Store.count_idsOfNames` – what is listed;
* `HttpReplay.Store.get_ne_notFound_iff` – for which streams a script is found;
* `HttpReplay.Store.list_and_get` – **how the two agree**, for every directory.
-/

namespace HttpReplay

namespace Store

variable {s : Store} {t : FileTree} {dir : FilePlace} {id : Nat} {name : String}
  {names : List String} {ids : List Nat}

/-! ### Numbers and names -/

/-- **A name that tells the number of a stream**: the name of its file, except that zeros and in
front of them a plus sign may stand before the number. -/
def Tells (name : String) (id : Nat) : Prop :=
  id < Numeral.wordLimit ∧ ∃ sign zeros, (sign = [] ∨ sign = ['+']) ∧
    name.toList = namePrefix ++ sign ++ List.replicate zeros '0' ++ Numeral.decimal id ++
      ".py".toList

/-- **The numbers that names tell** are those that the store reads off them. -/
theorem tells_iff : Tells name id ↔ idOfName? name = some id := by
  simp only [idOfName?_eq_some, Numeral.readWord?_decimal, Tells]
  constructor
  · rintro ⟨hid, sign, zeros, rfl | rfl, hname⟩
    · exact ⟨_, by simpa using hname, hid, zeros, .inl rfl⟩
    · exact ⟨_, by simpa using hname, hid, zeros, .inr rfl⟩
  · rintro ⟨numeral, hname, hid, zeros, rfl | rfl⟩
    · exact ⟨hid, [], zeros, .inl rfl, by simpa using hname⟩
    · exact ⟨hid, ['+'], zeros, .inr rfl, by simpa using hname⟩

instance : Decidable (Tells name id) := decidable_of_iff _ tells_iff.symm

/-- **The number of a stream is read back** from the name of its file. -/
theorem tells_fileName (h : id < Numeral.wordLimit) : Tells (fileName id) id :=
  ⟨h, [], 0, .inl rfl, by simpa using toList_fileName id⟩

/-- A number that fits in a word has at most twenty digits. -/
theorem length_decimal_le (h : id < Numeral.wordLimit) : (Numeral.decimal id).length ≤ 20 := by
  rw [Numeral.decimal, Nat.length_toDigits_le_iff (by decide) (by decide)]
  exact Nat.lt_of_lt_of_le h (by decide)

/-- **The name of a file is not too long**, whatever the stream. -/
theorem utf8ByteSize_fileName_le (h : id < Numeral.wordLimit) :
    (fileName id).utf8ByteSize ≤ FileTree.longestName := by
  have hascii : ∀ c ∈ namePrefix ++ Numeral.decimal id ++ ".py".toList, c.toNat < 128 := by
    intro c hc
    rcases List.mem_append.mp hc with hc | hc
    · rcases List.mem_append.mp hc with hc | hc
      · exact (by decide : ∀ c ∈ namePrefix, c.toNat < 128) c hc
      · obtain ⟨d, hd, rfl⟩ := Numeral.exists_of_mem_toDigits (by decide) hc
        exact Numeral.toNat_digitChar_lt d (Nat.lt_trans hd (by decide))
    · exact (by decide : ∀ c ∈ ".py".toList, c.toNat < 128) c hc
  have hsize : (fileName id).utf8ByteSize = (Bytes.ofText (fileName id)).length := rfl
  rw [hsize, ← String.ofList_toList (s := fileName id), toList_fileName,
    Bytes.ofText_of_forall hascii, Bytes.ascii, List.length_map, String.toList_ofList,
    List.length_append, List.length_append]
  have hfront : namePrefix.length = 7 := by decide
  have hext : ".py".toList.length = 3 := by decide
  have hdigits := length_decimal_le h
  rw [hfront, hext, FileTree.longestName]
  omega

/-! ### Listing -/

/-- **What is listed**: a number for each of the names that tell it. -/
theorem count_idsOfNames (names : List String) (id : Nat) :
    (idsOfNames names).count id = names.countP (Tells · id) := by
  rw [idsOfNames, (List.mergeSort_perm _ _).count_eq, List.count_filterMap]
  refine List.countP_congr fun name _ => ?_
  rw [beq_iff_eq, decide_eq_true_eq, tells_iff]

theorem mem_idsOfNames : id ∈ idsOfNames names ↔ ∃ name ∈ names, Tells name id := by
  simp only [idsOfNames, List.mem_mergeSort, List.mem_filterMap, tells_iff]

/-- It is listed in ascending order. -/
theorem pairwise_idsOfNames (names : List String) : (idsOfNames names).Pairwise (· ≤ ·) := by
  have h : (idsOfNames names).Pairwise fun a b => decide (a ≤ b) = true :=
    List.pairwise_mergeSort
      (fun a b c hab hbc => by
        rw [decide_eq_true_eq] at hab hbc ⊢
        exact Nat.le_trans hab hbc)
      (fun a b => by simpa using Nat.le_total a b) _
  exact h.imp of_decide_eq_true

/-- Numbers that stand in ascending order are listed as they stand. -/
theorem idsOfNames_of_pairwise (h : (names.filterMap idOfName?).Pairwise (· ≤ ·)) :
    idsOfNames names = names.filterMap idOfName? :=
  List.mergeSort_of_pairwise (h.imp fun hab => decide_eq_true hab)

theorem list_eq (h : t.find s.base = .ok (dir, .directory)) :
    (s.list t).1 = .ok (idsOfNames (t.namesBelow dir)) := by
  have hnames : t.names s.base = .ok (t.namesBelow dir) := by
    rw [FileTree.names, h]
    rfl
  simp only [list, hnames]

/-- A list in ascending order ascends strictly if no number stands in it twice. -/
theorem pairwise_lt_idsOfNames_iff :
    (idsOfNames names).Pairwise (· < ·) ↔ ∀ id, names.countP (Tells · id) ≤ 1 := by
  simp only [← count_idsOfNames, ← List.nodup_iff_count_le_one]
  constructor
  · exact fun h => h.imp Nat.ne_of_lt
  · exact fun h => ((pairwise_idsOfNames names).and h).imp fun hab => Nat.lt_of_le_of_ne hab.1 hab.2

/-! ### Finding -/

/-- What a stream's path leads to decides whether its script is found. -/
theorem get_eq_notFound_iff :
    (s.get id t).1 = .error (.notFound id) ↔ ∃ fault, t.find (s.path id) = .error fault := by
  cases hfind : t.find (s.path id) with
  | error fault => simp [get, hfind]
  | ok found => cases hread : t.readText (s.path id) <;> simp [get, hfind, hread]

/-- **For which streams a script is found**: for those whose file is there, if its path is not too
long. -/
theorem get_ne_notFound_iff (h : t.descend (t.start s.base) (FilePath.parts s.base) = .ok dir)
    (hid : id < Numeral.wordLimit) :
    (s.get id t).1 ≠ .error (.notFound id) ↔
      fileName id ∈ t.namesBelow dir ∧ FileTree.checkPath (s.path id) = .ok () := by
  rw [Ne, get_eq_notFound_iff, path, FileTree.find_join (isName_fileName id) h,
    FileTree.step_of_isName (isName_fileName id),
    if_neg (Nat.not_lt_of_le (utf8ByteSize_fileName_le hid)), FileTree.mem_namesBelow]
  cases FileTree.checkPath (FilePath.join s.base (fileName id)) with
  | error fault => simp [bind, Except.bind]
  | ok u => cases t.get? (dir ++ [fileName id]) <;> simp [bind, Except.bind]

/-! ### Agreement -/

/-- **A list agrees with the scripts** of a store: it ascends strictly, and a stream is in it just
if a script is found for it. -/
structure Agrees (s : Store) (t : FileTree) (ids : List Nat) : Prop where
  ascending : ids.Pairwise (· < ·)
  found : ∀ id < Numeral.wordLimit, id ∈ ids ↔ (s.get id t).1 ≠ .error (.notFound id)

/-- **A plain directory**: the names in it that tell the number of a stream are those that the store
would write, and paths to them are not too long. -/
def IsPlain (s : Store) (names : List String) : Prop :=
  ∀ name ∈ names, ∀ id, Tells name id →
    name = fileName id ∧ FileTree.checkPath (s.path id) = .ok ()

/-- Two names that tell the same number are one, if the number is listed once. -/
theorem eq_of_tells {other : String} (hcount : names.countP (Tells · id) ≤ 1)
    (hname : name ∈ names) (hother : other ∈ names) (h : Tells name id) (h' : Tells other id) :
    name = other := by
  rw [List.countP_eq_length_filter] at hcount
  have hmem : name ∈ names.filter (Tells · id) := List.mem_filter.mpr ⟨hname, decide_eq_true h⟩
  have hmem' : other ∈ names.filter (Tells · id) :=
    List.mem_filter.mpr ⟨hother, decide_eq_true h'⟩
  obtain ⟨only, honly⟩ := List.length_eq_one_iff.mp
    (Nat.le_antisymm hcount (List.length_pos_of_mem hmem))
  rw [honly, List.mem_singleton] at hmem hmem'
  rw [hmem, hmem']

/-- **In a plain directory, and in no other, the list agrees** with the scripts. -/
theorem agrees_iff (hdir : t.descend (t.start s.base) (FilePath.parts s.base) = .ok dir) :
    s.Agrees t (idsOfNames (t.namesBelow dir)) ↔ s.IsPlain (t.namesBelow dir) := by
  constructor
  · -- the file for which the number is found must be the one that told it: each is listed
    intro h name hname id htells
    have hmem : id ∈ idsOfNames (t.namesBelow dir) := mem_idsOfNames.mpr ⟨name, hname, htells⟩
    obtain ⟨hfile, hpath⟩ :=
      (get_ne_notFound_iff hdir htells.1).mp ((h.found id htells.1).mp hmem)
    have hcount := pairwise_lt_idsOfNames_iff.mp h.ascending id
    exact ⟨eq_of_tells hcount hname hfile htells (tells_fileName htells.1), hpath⟩
  · intro h
    constructor
    · refine pairwise_lt_idsOfNames_iff.mpr fun id => ?_
      calc (t.namesBelow dir).countP (Tells · id)
          ≤ (t.namesBelow dir).count (fileName id) := List.countP_mono_left fun name hname htells =>
            beq_iff_eq.mpr (h name hname id (of_decide_eq_true htells)).1
        _ ≤ 1 := List.nodup_iff_count_le_one.mp (t.nodup_namesBelow dir) _
    · intro id hid
      rw [get_ne_notFound_iff hdir hid, mem_idsOfNames]
      constructor
      · rintro ⟨name, hname, htells⟩
        obtain ⟨rfl, hpath⟩ := h name hname id htells
        exact ⟨hname, hpath⟩
      · rintro ⟨hfile, -⟩
        exact ⟨_, hfile, tells_fileName hid⟩

/-- **How listing and reading agree**, whatever stands in the directory of a store.

* The list is in ascending order, and a number is in it once for each name that tells it; other
  names add nothing.
* A script is found for the streams whose file is there, under the very name that the store writes.
* So the list ascends strictly and tells of just the streams for which a script is found if and only
  if the directory is plain: if in no name a zero or a plus sign stands in front of a number. -/
theorem list_and_get (hdir : t.find s.base = .ok (dir, .directory)) :
    ∃ ids, (s.list t).1 = .ok ids ∧ ids.Pairwise (· ≤ ·) ∧
      (∀ id, ids.count id = (t.namesBelow dir).countP (Tells · id)) ∧
      (∀ id < Numeral.wordLimit, (s.get id t).1 ≠ .error (.notFound id) ↔
        t.get? (dir ++ [fileName id]) ≠ none ∧ FileTree.checkPath (s.path id) = .ok ()) ∧
      (s.Agrees t ids ↔ s.IsPlain (t.namesBelow dir)) := by
  obtain ⟨-, hleads⟩ := FileTree.find_eq_directory.mp hdir
  refine ⟨_, list_eq hdir, pairwise_idsOfNames _, count_idsOfNames _, fun id hid => ?_,
    agrees_iff hleads⟩
  rw [get_ne_notFound_iff hleads hid, FileTree.mem_namesBelow]

/-- A directory in which the script of stream 7 lies under a name with zeros in front of the
number. -/
def paddedTree : FileTree where
  nodes := [(["d"], .directory), (["d", "stream-007.py"], .file [] false)]
  current := []

/-- A script of stream 7. -/
def seven : Artifact := ⟨7, "s", 1, ⟨0, 0⟩⟩

/-- The theorem at that directory: stream 7 is listed once, and the list does not agree with the
scripts. -/
theorem list_and_get_padded :
    paddedTree.find "d" = .ok (["d"], .directory) ∧
      ∃ ids, ((⟨"d"⟩ : Store).list paddedTree).1 = .ok ids ∧ ids.count 7 = 1 ∧
        ¬ (⟨"d"⟩ : Store).Agrees paddedTree ids := by
  have hdir : paddedTree.find (⟨"d"⟩ : Store).base = .ok (["d"], .directory) := by decide +kernel
  obtain ⟨ids, hids, -, hcount, -, hagrees⟩ := list_and_get hdir
  refine ⟨hdir, ids, hids, (hcount 7).trans (by decide +kernel), fun h => ?_⟩
  have hname : "stream-007.py" = fileName 7 :=
    (hagrees.mp h _ (by decide +kernel) 7 (by decide +kernel)).1
  exact absurd hname (by decide +kernel)

/-- With only that file there, stream 7 is listed and not found; when a script is saved for it, it
is listed twice. -/
theorem list_padded :
    ((⟨"d"⟩ : Store).list paddedTree).1 = .ok [7] ∧
      ((⟨"d"⟩ : Store).get 7 paddedTree).1 = .error (.notFound 7) ∧
      ((⟨"d"⟩ : Store).list ((⟨"d"⟩ : Store).save seven paddedTree).2.1).1 = .ok [7, 7] := by
  have hdir : paddedTree.find (⟨"d"⟩ : Store).base = .ok (["d"], .directory) := by decide +kernel
  have hlater : ((⟨"d"⟩ : Store).save seven paddedTree).2.1.find (⟨"d"⟩ : Store).base =
      .ok (["d"], .directory) := by
    decide +kernel
  -- the numbers are read off the names in ascending order, so nothing has to be sorted
  refine ⟨?_, by decide +kernel, ?_⟩
  · rw [list_eq hdir, idsOfNames_of_pairwise (by decide +kernel)]
    decide +kernel
  · rw [list_eq hlater, idsOfNames_of_pairwise (by decide +kernel)]
    decide +kernel

end Store

end HttpReplay
