import HttpReplay.Proofs.Files.Trees
import HttpReplay.Proofs.Text.Latin
import HttpReplay.Proofs.Text.Numerals
import HttpReplay.Store

/-!
# Saving scripts

What a store holds after scripts were saved in it one after the other. Whether a script can be
saved depends on where the path of the store leads and on what has the name of its file, and
saving a script changes neither for any other; so the scripts that were saved lie beside each
other, each in its own file, and everything else in the tree is as it was.

A file that was opened may not take a whole script, or not be made executable. Then the saving fails
and what was written stays. That too is a change to that one file, so all that matters is what was
written last to each of them.

* `HttpReplay.Store.Admits` – when a store can save the script of a stream, and where;
* `HttpReplay.Store.written?` – what saving a script writes to its file;
* `HttpReplay.Store.save_cases` – **what saving does**, all of it;
* `HttpReplay.Store.Wrote` – what is left of what was written to files, one after the other;
* `HttpReplay.Store.saveAll` – saving one script after the other, up to the first that cannot be
  saved;
* `HttpReplay.Store.Kept` and `HttpReplay.Store.Failed` – what is left of the scripts that were
  saved, and of one that was not;
* `HttpReplay.Store.wrote_saveAll` – **what is left of a run**.
-/

namespace HttpReplay

namespace Store

variable {s : Store} {t t' : FileTree} {dir : FilePlace} {id other : Nat} {a : Artifact}
  {faults : FileTree.WriteFaults}

/-! ### Names of files -/

theorem toList_fileName (id : Nat) :
    (fileName id).toList = namePrefix ++ Numeral.decimal id ++ ".py".toList := by
  rw [fileName, String.toList_append, String.toList_append, String.toList_ofList]
  simp [extension]

/-- The file of a stream has a plain name. -/
theorem isName_fileName (id : Nat) : FilePath.IsName (fileName id) := by
  have hhead : (fileName id).toList.head? = some 's' := by
    rw [toList_fileName]
    rfl
  have hslash : '/' ∉ (fileName id).toList := by
    rw [toList_fileName, List.mem_append, List.mem_append]
    rintro ((h | h) | h)
    · exact absurd h (by decide)
    · obtain ⟨d, hd, heq⟩ := Numeral.exists_of_mem_toDigits (by decide) h
      exact (by decide : ∀ d < 10, '/' ≠ Nat.digitChar d) d hd heq
    · exact absurd h (by decide)
  refine ⟨fun h => ?_, fun h => ?_, fun h => ?_, hslash⟩ <;>
    · rw [h] at hhead
      exact absurd hhead (by decide)

theorem fileName_injective {id other : Nat} (h : fileName id = fileName other) : id = other := by
  have hlist := congrArg String.toList h
  rw [toList_fileName, toList_fileName, List.append_left_inj, List.append_right_inj] at hlist
  have hread := congrArg (Numeral.read? 10) hlist
  rw [Numeral.decimal, Numeral.decimal, Numeral.read?_toDigits (by decide) (by decide),
    Numeral.read?_toDigits (by decide) (by decide)] at hread
  exact Option.some.inj hread

/-- Below the same place, the files of two streams lie apart. -/
theorem eq_of_append_fileName {found : FilePlace}
    (h : dir ++ [fileName id] = found ++ [fileName other]) : id = other :=
  fileName_injective (List.singleton_inj.mp (List.append_inj_right' h rfl))

/-! ### Where scripts are saved -/

/-- **Where a store can save** the script of a stream: its path leads to a directory, and there
the name of the file is free or that of a file. -/
structure Admits (s : Store) (t : FileTree) (dir : FilePlace) (id : Nat) : Prop where
  path_ok : FileTree.checkPath (s.path id) = .ok ()
  leads : t.descend (t.start s.base) (FilePath.parts s.base) = .ok dir
  short : (fileName id).utf8ByteSize ≤ FileTree.longestName
  free : t.get? (dir ++ [fileName id]) ≠ some .directory

/-- The place of the file of a stream is where the store can save its script. -/
theorem placeForFile_path {place : FilePlace} :
    t.placeForFile (s.path id) = .ok place ↔
      ∃ dir, s.Admits t dir id ∧ place = dir ++ [fileName id] := by
  rw [path, FileTree.placeForFile_join_eq_ok (isName_fileName id)]
  constructor
  · rintro ⟨hpath, dir, hleads, hshort, hfree, hplace⟩
    exact ⟨dir, ⟨hpath, hleads, hshort, hfree⟩, hplace⟩
  · rintro ⟨dir, h, hplace⟩
    exact ⟨h.path_ok, dir, h.leads, h.short, h.free, hplace⟩

/-! ### What is written -/

/-- As much of a script as can be written to its file. -/
def taken (faults : FileTree.WriteFaults) (a : Artifact) : Bytes :=
  (faults.writing.write (Bytes.ofText a.script)).1

/-- **A file takes a script** once it is opened: all of it can be written, and the file can be made
executable. -/
def Takes (faults : FileTree.WriteFaults) (a : Artifact) : Prop :=
  (faults.writing.write (Bytes.ofText a.script)).2.isOk ∧ faults.permissions = none

instance : Decidable (Takes faults a) := inferInstanceAs (Decidable (_ ∧ _))

theorem Takes.write_eq (h : Takes faults a) :
    ∃ left, faults.writing.write (Bytes.ofText a.script) = (Bytes.ofText a.script, .ok left) := by
  have hok := h.1
  rcases hwrite : faults.writing.write (Bytes.ofText a.script) with ⟨bytes, fault | left⟩
  · rw [hwrite] at hok
    cases hok
  · obtain rfl := Sink.eq_of_write_eq_ok hwrite
    exact ⟨left, rfl⟩

/-- It holds all of the script then. -/
theorem Takes.taken_eq (h : Takes faults a) : taken faults a = Bytes.ofText a.script := by
  obtain ⟨left, hwrite⟩ := h.write_eq
  rw [taken, hwrite]

/-- **What the file of a stream holds.** -/
structure Content where
  id : Nat
  bytes : Bytes
  isExecutable : Bool
  deriving Repr, DecidableEq

variable {c : Content}

/-- A script that is saved. -/
def Content.ofScript (a : Artifact) : Content := ⟨a.streamId, Bytes.ofText a.script, true⟩

/-- What is read from the file, which must be text. -/
def Content.read (c : Content) : Except StoreError String :=
  match Bytes.text? c.bytes with
  | some script => .ok script
  | none => .error .readFailed

theorem Content.read_ofScript (a : Artifact) : (ofScript a).read = .ok a.script := by
  simp only [read, ofScript, Bytes.text?_ofText]

theorem Content.read_ne_notFound (c : Content) (id : Nat) : c.read ≠ .error (.notFound id) := by
  unfold read
  split <;> simp

/-- The tree in which the file of a stream holds that. -/
def withFile (t : FileTree) (dir : FilePlace) (c : Content) : FileTree :=
  t.put (dir ++ [fileName c.id]) (.file c.bytes c.isExecutable)

/-- **What saving a script writes** to its file, if that is opened. -/
def written? (s : Store) (a : Artifact) (t : FileTree) (faults : FileTree.WriteFaults) :
    Option Content :=
  match t.openFile (s.path a.streamId) faults with
  | .error _ => none
  | .ok (opened, place) => some
      { id := a.streamId
        bytes := taken faults a
        isExecutable := Takes faults a ∨ opened.get? place = some (.file [] true) }

/-- It is as much of the script as can be written, and all of it if the file takes the script. -/
theorem written?_eq_some (h : s.written? a t faults = some c) :
    c.id = a.streamId ∧ c.bytes = taken faults a ∧ (Takes faults a → c = .ofScript a) := by
  unfold written? at h
  split at h
  · cases h
  · obtain rfl := Option.some.inj h
    refine ⟨rfl, rfl, fun htakes => ?_⟩
    simp only [htakes.taken_eq, htakes, true_or, decide_true, Content.ofScript]

/-! ### One script -/

/-- **Opening the file of a stream** fails, or empties the file where the store can save. -/
theorem openFile_cases (s : Store) (id : Nat) (t : FileTree) (faults : FileTree.WriteFaults) :
    (∃ fault, t.openFile (s.path id) faults = .error fault) ∨
      ∃ dir isExecutable, s.Admits t dir id ∧
        t.openFile (s.path id) faults =
          .ok (withFile t dir ⟨id, [], isExecutable⟩, dir ++ [fileName id]) := by
  unfold FileTree.openFile
  cases faults.opening with
  | some fault => exact .inl ⟨fault, rfl⟩
  | none =>
    simp only [FileTree.createFile]
    cases hplace : t.placeForFile (s.path id) with
    | error fault => exact .inl ⟨fault, rfl⟩
    | ok place =>
      obtain ⟨dir, hadmits, rfl⟩ := placeForFile_path.mp hplace
      exact .inr ⟨dir, _, hadmits, rfl⟩

/-- A file that was opened holds what could be written. -/
theorem save_of_openFile {wasExecutable : Bool} (hadmits : s.Admits t dir a.streamId)
    (hopen : t.openFile (s.path a.streamId) faults =
      .ok (withFile t dir ⟨a.streamId, [], wasExecutable⟩, dir ++ [fileName a.streamId])) :
    ∃ log, s.save a t faults =
      (if Takes faults a then .ok (s.path a.streamId) else .error .writeFailed,
        withFile t dir ⟨a.streamId, taken faults a, Takes faults a ∨ wasExecutable = true⟩,
        log) := by
  have hne : dir ++ [fileName a.streamId] ≠ [] := FileTree.ne_nil_of_get? hadmits.free
  -- what was written from the start of an empty file on is all that the file holds
  have hput : ∀ bytes, (withFile t dir ⟨a.streamId, [], wasExecutable⟩).writeAt
      (dir ++ [fileName a.streamId]) 0 bytes = withFile t dir ⟨a.streamId, bytes, wasExecutable⟩ :=
    FileTree.writeAt_put hne t wasExecutable
  have hmake : ∀ bytes, (withFile t dir ⟨a.streamId, bytes, wasExecutable⟩).makeExecutable
      (dir ++ [fileName a.streamId]) = withFile t dir ⟨a.streamId, bytes, true⟩ :=
    FileTree.makeExecutable_put hne t wasExecutable
  by_cases htakes : Takes faults a
  · obtain ⟨left, hwrite⟩ := htakes.write_eq
    simp only [save, hopen, hput, hwrite, htakes.2, hmake, htakes.taken_eq, htakes, true_or,
      decide_true, if_true]
    exact ⟨_, rfl⟩
  · simp only [save, hopen, hput, htakes, false_or, Bool.decide_eq_true, if_false]
    unfold taken
    rcases hwrite : faults.writing.write (Bytes.ofText a.script) with ⟨bytes, fault | left⟩
    · exact ⟨_, rfl⟩
    · cases hpermissions : faults.permissions with
      | some fault => exact ⟨_, rfl⟩
      | none => exact absurd ⟨by rw [hwrite]; rfl, hpermissions⟩ htakes

/-- **What saving a script does**: its file is not opened, and nothing changes; or it is opened and
holds what could be written, which is the script if the file takes it. -/
theorem save_cases (s : Store) (a : Artifact) (t : FileTree) (faults : FileTree.WriteFaults) :
    (s.written? a t faults = none ∧ ∃ log, s.save a t faults = (.error .writeFailed, t, log)) ∨
      ∃ dir c, s.Admits t dir c.id ∧ s.written? a t faults = some c ∧
        ∃ log, s.save a t faults =
          (if Takes faults a then .ok (s.path a.streamId) else .error .writeFailed,
            withFile t dir c, log) := by
  rcases s.openFile_cases a.streamId t faults with
    ⟨fault, hopen⟩ | ⟨dir, wasExecutable, hadmits, hopen⟩
  · refine .inl ⟨by simp only [written?, hopen], ?_⟩
    simp only [save, hopen]
    exact ⟨_, rfl⟩
  · have hopened : (withFile t dir ⟨a.streamId, [], wasExecutable⟩).get?
        (dir ++ [fileName a.streamId]) = some (.file [] wasExecutable) :=
      FileTree.get?_put_self (FileTree.ne_nil_of_get? hadmits.free)
    refine .inr ⟨dir, _, hadmits, ?_, save_of_openFile hadmits hopen⟩
    simp only [written?, hopen, hopened, Option.some.injEq, FileNode.file.injEq, true_and]

section WithFile

variable (h : s.Admits t dir c.id)

include h

theorem get?_withFile_self :
    (withFile t dir c).get? (dir ++ [fileName c.id]) = some (.file c.bytes c.isExecutable) :=
  FileTree.get?_put_self (FileTree.ne_nil_of_get? h.free)

omit h in
theorem get?_withFile_of_ne {place : FilePlace} (hne : place ≠ dir ++ [fileName c.id]) :
    (withFile t dir c).get? place = t.get? place :=
  FileTree.get?_put_of_ne hne

/-- The path of the store leads to the same directory as before. -/
theorem leads_withFile :
    (withFile t dir c).descend ((withFile t dir c).start s.base) (FilePath.parts s.base) =
      .ok dir :=
  FileTree.descend_put h.free h.leads

/-- **The file of a stream changes for no stream where its script can be saved.** -/
theorem admits_withFile {found : FilePlace} :
    s.Admits (withFile t dir c) found other ↔ s.Admits t found other := by
  have hfree : (withFile t dir c).get? (dir ++ [fileName other]) ≠ some .directory ↔
      t.get? (dir ++ [fileName other]) ≠ some .directory := by
    by_cases hid : other = c.id
    · subst hid
      rw [get?_withFile_self h]
      exact iff_of_true (by simp) h.free
    · rw [get?_withFile_of_ne]
      exact fun heq => hid (eq_of_append_fileName heq)
  constructor
  · intro h'
    obtain rfl : dir = found := Except.ok.inj ((leads_withFile h).symm.trans h'.leads)
    exact ⟨h'.path_ok, h.leads, h'.short, hfree.mp h'.free⟩
  · intro h'
    obtain rfl : dir = found := Except.ok.inj (h.leads.symm.trans h'.leads)
    exact ⟨h'.path_ok, leads_withFile h, h'.short, hfree.mpr h'.free⟩

theorem placeForFile_withFile {place : FilePlace} :
    (withFile t dir c).placeForFile (s.path other) = .ok place ↔
      t.placeForFile (s.path other) = .ok place := by
  simp only [placeForFile_path, admits_withFile h]

end WithFile

/-! ### Reading scripts -/

/-- What is read for a stream is what stands at the end of its path. -/
theorem get_congr (h : t'.find (s.path id) = t.find (s.path id)) : s.get id t' = s.get id t := by
  have hread : t'.readText (s.path id) = t.readText (s.path id) := by
    rw [FileTree.readText, FileTree.readText, FileTree.readFile, FileTree.readFile, h]
  simp only [get, h, hread]

/-- A file is read as what it holds. -/
theorem get_of_find {place : FilePlace}
    (h : t.find (s.path id) = .ok (place, .file c.bytes c.isExecutable)) :
    (s.get id t).1 = c.read := by
  have hfile : t.readFile (s.path id) = .ok c.bytes := by
    rw [FileTree.readFile, h]
    rfl
  have hread : t.readText (s.path id) =
      match Bytes.text? c.bytes with
      | some script => .ok script
      | none => .error .invalidText := by
    rw [FileTree.readText, hfile]
    rfl
  unfold Content.read
  cases htext : Bytes.text? c.bytes with
  | some script => simp only [get, h, hread, htext]
  | none => simp only [get, h, hread, htext]

/-- **What was written is read back.** -/
theorem get_withFile_self (h : s.Admits t dir c.id) :
    (s.get c.id (withFile t dir c)).1 = c.read := by
  have h' : s.Admits (withFile t dir c) dir c.id := (admits_withFile h).mpr h
  have hfind : (withFile t dir c).find (s.path c.id) =
      .ok (dir ++ [fileName c.id], .file c.bytes c.isExecutable) := by
    rw [path, FileTree.find_join (isName_fileName c.id) h'.leads, ← path, h'.path_ok,
      FileTree.step_of_isName (isName_fileName _), if_neg (Nat.not_lt_of_le h'.short),
      get?_withFile_self h]
    rfl
  exact get_of_find hfind

/-- **The scripts of other streams are read as before**, whatever the file of a stream holds. -/
theorem get_withFile_of_ne (h : s.Admits t dir c.id) (hid : other ≠ c.id) :
    s.get other (withFile t dir c) = s.get other t := by
  refine get_congr ?_
  have hne : dir ++ [fileName other] ≠ dir ++ [fileName c.id] := fun heq =>
    hid (eq_of_append_fileName heq)
  rw [path, FileTree.find_join (isName_fileName other) (leads_withFile h),
    FileTree.find_join (isName_fileName other) h.leads, FileTree.step_of_isName (isName_fileName _),
    FileTree.step_of_isName (isName_fileName _), get?_withFile_of_ne hne]

/-! ### One file after the other -/

section Last

variable {α β : Type} {x y : α} {l : List α}

/-- The last of some things that is for a stream, if there is one. -/
def last? (stream : α → Nat) (id : Nat) (l : List α) : Option α :=
  (l.filter (stream · = id)).getLast?

theorem last?_cons (stream : α → Nat) (x : α) (id : Nat) (l : List α) :
    last? stream id (x :: l) = (last? stream id l).or (if stream x = id then some x else none) := by
  unfold last?
  by_cases h : stream x = id
  · rw [List.filter_cons_of_pos (by simpa using h), List.getLast?_cons, if_pos h]
    cases ((l.filter (stream · = id)).getLast?) <;> simp
  · rw [List.filter_cons_of_neg (by simpa using h), if_neg h, Option.or_none]

theorem last?_eq_none {stream : α → Nat} (h : last? stream id l = none) :
    ∀ x ∈ l, stream x ≠ id := by
  simpa [last?, List.filter_eq_nil_iff] using h

theorem last?_map (stream : β → Nat) (f : α → β) (id : Nat) (l : List α) :
    last? stream id (l.map f) = (last? (fun x => stream (f x)) id l).map f := by
  rw [last?, last?, List.filter_map, List.getLast?_map]
  rfl

/-- The last thing for a stream comes after the first of them, or is the first one. -/
theorem last?_cons_eq_some {stream : α → Nat} (h : last? stream id (x :: l) = some y) :
    last? stream id l = some y ∨ (last? stream id l = none ∧ stream x = id ∧ x = y) := by
  rw [last?_cons] at h
  cases hlast : last? stream id l with
  | some z =>
    rw [hlast] at h
    exact .inl h
  | none =>
    rw [hlast, Option.none_or] at h
    split_ifs at h with hid
    exact .inr ⟨rfl, hid, Option.some.inj h⟩

end Last

/-- **What is left** in the second tree if this was written to files in the first. -/
structure Wrote (s : Store) (t : FileTree) (written : List Content) (t' : FileTree) : Prop where
  /-- What was written last for each stream is what is read. -/
  read : ∀ {id c}, last? Content.id id written = some c → (s.get id t').1 = c.read
  /-- It lies in a file of its own. -/
  file : ∀ {id c}, last? Content.id id written = some c →
    ∃ place, t.placeForFile (s.path id) = .ok place ∧
      t'.get? place = some (.file c.bytes c.isExecutable)
  /-- For other streams the same is read as before. -/
  others : ∀ {id}, (∀ c ∈ written, c.id ≠ id) → s.get id t' = s.get id t
  /-- Everything that lies elsewhere is as before. -/
  places : ∀ {place}, (∀ c ∈ written, t.placeForFile (s.path c.id) ≠ .ok place) →
    t'.get? place = t.get? place

theorem Wrote.nil (s : Store) (t : FileTree) : s.Wrote t [] t where
  read h := by simp [last?] at h
  file h := by simp [last?] at h
  others _ := rfl
  places _ := rfl

/-- **Writing one file before the others.** -/
theorem Wrote.cons {written : List Content} (h : s.Admits t dir c.id)
    (hrest : s.Wrote (withFile t dir c) written t') : s.Wrote t (c :: written) t' where
  read := by
    intro id d hlast
    rcases last?_cons_eq_some hlast with hlater | ⟨hnone, rfl, rfl⟩
    · exact hrest.read hlater
    · rw [hrest.others (last?_eq_none hnone), get_withFile_self h]
  file := by
    intro id d hlast
    rcases last?_cons_eq_some hlast with hlater | ⟨hnone, rfl, rfl⟩
    · obtain ⟨place, hplace, hfile⟩ := hrest.file hlater
      exact ⟨place, (placeForFile_withFile h).mp hplace, hfile⟩
    · refine ⟨dir ++ [fileName c.id], placeForFile_path.mpr ⟨dir, h, rfl⟩, ?_⟩
      rw [hrest.places, get?_withFile_self h]
      -- nothing later is for this stream, and the files of two streams have different names
      intro d hd hplace
      obtain ⟨found, -, heq⟩ := placeForFile_path.mp hplace
      exact last?_eq_none hnone d hd (eq_of_append_fileName heq).symm
  others := by
    intro id hall
    rw [hrest.others fun d hd => hall d (List.mem_cons_of_mem c hd),
      get_withFile_of_ne h (hall c List.mem_cons_self).symm]
  places := by
    intro place hall
    have hne : place ≠ dir ++ [fileName c.id] := fun heq =>
      hall c List.mem_cons_self (placeForFile_path.mpr ⟨dir, h, heq⟩)
    rw [hrest.places, get?_withFile_of_ne hne]
    exact fun d hd hplace =>
      hall d (List.mem_cons_of_mem c hd) ((placeForFile_withFile h).mp hplace)

/-! ### What is left of scripts -/

/-- **What is left** in the second tree if these scripts were saved in the first. -/
structure Kept (s : Store) (t : FileTree) (saved : List Artifact) (t' : FileTree) : Prop where
  /-- The last script of each stream is the one that is read. -/
  script : ∀ {id a}, last? Artifact.streamId id saved = some a → (s.get id t').1 = .ok a.script
  /-- It lies in a file of its own and can be run. -/
  file : ∀ {id a}, last? Artifact.streamId id saved = some a →
    ∃ place, t.placeForFile (s.path id) = .ok place ∧
      t'.get? place = some (.file (Bytes.ofText a.script) true)
  /-- The scripts of other streams are read as before. -/
  others : ∀ {id}, (∀ a ∈ saved, a.streamId ≠ id) → s.get id t' = s.get id t
  /-- Everything that lies elsewhere is as before. -/
  places : ∀ {place}, (∀ a ∈ saved, t.placeForFile (s.path a.streamId) ≠ .ok place) →
    t'.get? place = t.get? place

/-- Scripts are kept if they are what was written. -/
theorem Wrote.kept {saved : List Artifact} (h : s.Wrote t (saved.map .ofScript) t') :
    s.Kept t saved t' := by
  have hlast : ∀ {id a}, last? Artifact.streamId id saved = some a →
      last? Content.id id (saved.map .ofScript) = some (.ofScript a) := by
    intro id a hsaved
    exact (last?_map ..).trans (congrArg _ hsaved)
  refine ⟨fun hsaved => ?_, fun hsaved => h.file (hlast hsaved), fun hall => ?_, fun hall => ?_⟩
  · rw [h.read (hlast hsaved), Content.read_ofScript]
  · exact h.others (List.forall_mem_map.mpr hall)
  · exact h.places (List.forall_mem_map.mpr hall)

/-- **What is left of a script that could not be saved**, in the second tree if it was to be saved
in the first. -/
structure Failed (s : Store) (a : Artifact) (faults : FileTree.WriteFaults) (t t' : FileTree) :
    Prop where
  /-- If its file was not opened, nothing has changed. -/
  unopened : s.written? a t faults = none → t' = t
  /-- If it was, it holds the first bytes of the script, as many as could be written. -/
  opened : ∀ {c}, s.written? a t faults = some c →
    ¬ Takes faults a ∧ c.bytes = taken faults a ∧ c.bytes <+: Bytes.ofText a.script ∧
      ∃ place, t.placeForFile (s.path a.streamId) = .ok place ∧
        t'.get? place = some (.file c.bytes c.isExecutable)
  /-- The scripts of other streams are read as before. -/
  others : ∀ {id}, id ≠ a.streamId → s.get id t' = s.get id t
  /-- Everything that lies elsewhere is as before. -/
  places : ∀ {place}, t.placeForFile (s.path a.streamId) ≠ .ok place → t'.get? place = t.get? place

/-- **A script is saved, or it is not** and all that may have changed is its file. -/
theorem saved_or_failed (s : Store) (a : Artifact) (t : FileTree) (faults : FileTree.WriteFaults) :
    (∃ t' log, s.save a t faults = (.error .writeFailed, t', log) ∧ s.Failed a faults t t') ∨
      ∃ dir log, s.Admits t dir a.streamId ∧
        s.save a t faults = (.ok (s.path a.streamId), withFile t dir (.ofScript a), log) := by
  rcases s.save_cases a t faults with ⟨hnone, log, hsave⟩ | ⟨dir, c, hadmits, hsome, log, hsave⟩
  · refine .inl ⟨t, log, hsave, ⟨fun _ => rfl, fun h => ?_, fun _ => rfl, fun _ => rfl⟩⟩
    rw [hnone] at h
    cases h
  · obtain ⟨hid, hbytes, hall⟩ := written?_eq_some hsome
    by_cases htakes : Takes faults a
    · obtain rfl := hall htakes
      rw [if_pos htakes] at hsave
      exact .inr ⟨dir, log, hadmits, hsave⟩
    · rw [if_neg htakes] at hsave
      have hplace : t.placeForFile (s.path a.streamId) = .ok (dir ++ [fileName c.id]) :=
        placeForFile_path.mpr ⟨dir, hid ▸ hadmits, hid ▸ rfl⟩
      refine .inl ⟨_, log, hsave, ⟨fun h => ?_, fun h => ?_, fun hne => ?_, fun hne => ?_⟩⟩
      · rw [hsome] at h
        cases h
      · obtain rfl := Option.some.inj (hsome.symm.trans h)
        exact ⟨htakes, hbytes, hbytes ▸ Sink.write_prefix _ _, _, hplace,
          get?_withFile_self hadmits⟩
      · exact get_withFile_of_ne hadmits (hid ▸ hne)
      · exact get?_withFile_of_ne fun heq => hne (heq ▸ hplace)

/-! ### One script after the other -/

/-- **Save scripts one after the other**, up to the first that cannot be saved: how many were
saved, and the tree that is left. With each comes what goes wrong with its file. -/
def saveAll (s : Store) : List FileTree.WriteFaults → List Artifact → FileTree → Nat × FileTree
  | _, [], tree => (0, tree)
  | faults, a :: artifacts, tree =>
    match s.save a tree (faults.head?.getD {}) with
    | (.error _, tree, _) => (0, tree)
    | (.ok _, tree, _) =>
      let (count, tree) := s.saveAll faults.tail artifacts tree
      (count + 1, tree)

variable {faults : List FileTree.WriteFaults}

theorem saveAll_of_error {artifacts : List Artifact} {e : StoreError} {log : Log}
    (h : s.save a t (faults.head?.getD {}) = (.error e, t', log)) :
    s.saveAll faults (a :: artifacts) t = (0, t') := by
  rw [saveAll, h]

theorem saveAll_of_ok {artifacts : List Artifact} {path : String} {log : Log}
    (h : s.save a t (faults.head?.getD {}) = (.ok path, t', log)) :
    s.saveAll faults (a :: artifacts) t =
      ((s.saveAll faults.tail artifacts t').1 + 1, (s.saveAll faults.tail artifacts t').2) := by
  rw [saveAll, h]

theorem saveAll_le (s : Store) (faults : List FileTree.WriteFaults) (artifacts : List Artifact)
    (t : FileTree) : (s.saveAll faults artifacts t).1 ≤ artifacts.length := by
  induction artifacts generalizing faults t with
  | nil => exact Nat.le_refl 0
  | cons a artifacts ih =>
    rcases s.saved_or_failed a t (faults.head?.getD {}) with
      ⟨t', log, hsave, -⟩ | ⟨dir, log, -, hsave⟩
    · rw [saveAll_of_error hsave]
      exact Nat.zero_le _
    · rw [saveAll_of_ok hsave]
      exact Nat.succ_le_succ (ih _ _)

/-- **What is left** after scripts were saved one after the other: those that were saved before the
first failure, what is left of the one that failed, and everything else as it was. -/
theorem wrote_saveAll (s : Store) (faults : List FileTree.WriteFaults) (artifacts : List Artifact)
    (t : FileTree) :
    ∃ kept, s.Wrote t ((artifacts.take (s.saveAll faults artifacts t).1).map .ofScript) kept ∧
      ((s.saveAll faults artifacts t).1 = artifacts.length →
        (s.saveAll faults artifacts t).2 = kept) ∧
      ∀ a, artifacts[(s.saveAll faults artifacts t).1]? = some a →
        s.Failed a (faults[(s.saveAll faults artifacts t).1]?.getD {}) kept
          (s.saveAll faults artifacts t).2 := by
  induction artifacts generalizing faults t with
  | nil => exact ⟨t, .nil s t, fun _ => rfl, nofun⟩
  | cons a artifacts ih =>
    rcases s.saved_or_failed a t (faults.head?.getD {}) with
      ⟨t', log, hsave, hfailed⟩ | ⟨dir, log, hadmits, hsave⟩
    · rw [saveAll_of_error hsave]
      refine ⟨t, .nil s t, nofun, fun b hb => ?_⟩
      obtain rfl := Option.some.inj hb
      rwa [List.head?_eq_getElem?] at hfailed
    · obtain ⟨kept, hwrote, hall, hrest⟩ := ih faults.tail (withFile t dir (.ofScript a))
      rw [saveAll_of_ok hsave]
      refine ⟨kept, .cons hadmits hwrote, fun h => hall (Nat.succ.inj h), fun b hb => ?_⟩
      have hfailed := hrest b hb
      rwa [List.getElem?_tail] at hfailed

end Store

end HttpReplay
