import HttpReplay.Proofs.Files.Directories
import HttpReplay.Proofs.Files.Listings

/-!
# A store as a map

A store whose directory held no scripts when it was made is a map from streams to scripts: whatever
was saved, read and listed before, reading a stream gives the script that was saved last for it, and
listing tells the streams for which one was saved. A script that cannot be saved is not in the map,
unless its file was opened; then what was written of it stands there. There is one exception. The
empty path stands for the current directory when a store is made and when scripts are saved and
read, but listing refuses it.

* `HttpReplay.Store.performAll` – operations one after the other;
* `HttpReplay.Store.holds_performAll` – what they leave, by induction on the operations;
* `HttpReplay.Store.IsMap` – **what it is to be a map**;
* `HttpReplay.Store.isMap_of_operations` – every store is one, but for the list of a store with the
  empty path.
-/

namespace HttpReplay

namespace Store

variable {s : Store} {t t' : FileTree} {dir : FilePlace} {id : Nat} {name : String}
  {written : List Content} {a : Artifact} {c : Content}

/-- **A store is made** with its directory. -/
theorem create_eq_ok {base : String} (h : (create base t).1 = .ok s) :
    s.base = base ∧ t.createDirectories base = ((create base t).2.1, .ok ()) := by
  unfold create at h ⊢
  split at h
  · rename_i t' hmade
    obtain rfl := Except.ok.inj h
    simp only [hmade, true_and]
  · cases h

/-! ### Operations -/

/-- What a store can be asked for. The file of a script that is to be saved may not take it. -/
inductive Operation
  | save (a : Artifact) (faults : FileTree.WriteFaults := {})
  | get (id : Nat)
  | list
  deriving Repr, DecidableEq

/-- The streams that are asked for have numbers that fit in a word. -/
def Operation.Fits : Operation → Prop
  | save a _ => a.streamId < Numeral.wordLimit
  | get id => id < Numeral.wordLimit
  | list => True

instance : DecidablePred Operation.Fits
  | .save a _ => inferInstanceAs (Decidable (a.streamId < Numeral.wordLimit))
  | .get id => inferInstanceAs (Decidable (id < Numeral.wordLimit))
  | .list => inferInstanceAs (Decidable True)

/-- **An operation that fails cleanly**, if it fails: a file that is opened takes its script. -/
def Operation.IsClean : Operation → Prop
  | save a faults => Takes faults a
  | _ => True

instance : DecidablePred Operation.IsClean
  | .save a faults => inferInstanceAs (Decidable (Takes faults a))
  | .get _ => inferInstanceAs (Decidable True)
  | .list => inferInstanceAs (Decidable True)

/-- **What happened**: an operation with its result, and with what was written to a file. -/
inductive Event
  | saved (a : Artifact) (written : Option Content) (result : Except StoreError String)
  | got (id : Nat) (result : Except StoreError String)
  | listed (result : Except StoreError (List Nat))

/-- The script that was saved in an event. -/
def Event.saved? : Event → Option Artifact
  | .saved a _ (.ok _) => some a
  | _ => none

/-- What was written in an event. -/
def Event.written? : Event → Option Content
  | .saved _ written _ => written
  | _ => none

/-- The scripts that were saved in some events, in their order. -/
def savedIn (events : List Event) : List Artifact := events.filterMap Event.saved?

/-- What was written in some events, in their order. -/
def writtenIn (events : List Event) : List Content := events.filterMap Event.written?

/-- Do what a store is asked for. -/
def perform (s : Store) (t : FileTree) : Operation → Event × FileTree
  | .save a faults =>
    (.saved a (s.written? a t faults) (s.save a t faults).1, (s.save a t faults).2.1)
  | .get id => (.got id (s.get id t).1, t)
  | .list => (.listed (s.list t).1, t)

/-- **Do one after the other**: what happened, and the tree that is left. -/
def performAll (s : Store) (t : FileTree) : List Operation → List Event × FileTree
  | [] => ([], t)
  | op :: ops =>
    let (event, t) := s.perform t op
    let (events, t) := s.performAll t ops
    (event :: events, t)

theorem performAll_cons (s : Store) (t : FileTree) (op : Operation) (ops : List Operation) :
    s.performAll t (op :: ops) =
      ((s.perform t op).1 :: (s.performAll (s.perform t op).2 ops).1,
        (s.performAll (s.perform t op).2 ops).2) := rfl

/-- **What operations leave**: what was written and nothing else, and the directory of the store
where it was. -/
structure Holds (s : Store) (dir : FilePlace) (t : FileTree) (written : List Content)
    (t' : FileTree) : Prop where
  leads : t'.descend (t'.start s.base) (FilePath.parts s.base) = .ok dir
  wrote : s.Wrote t written t'

/-- A single operation writes to a file in the directory, or changes nothing. -/
theorem perform_cases (hleads : t.descend (t.start s.base) (FilePath.parts s.base) = .ok dir)
    (op : Operation) :
    ((s.perform t op).1.written? = none ∧ (s.perform t op).2 = t) ∨
      ∃ c, s.Admits t dir c.id ∧ (s.perform t op).1.written? = some c ∧
        (s.perform t op).2 = withFile t dir c := by
  cases op with
  | save a faults =>
    rcases s.save_cases a t faults with ⟨hnone, log, hsave⟩ | ⟨found, c, hadmits, hsome, log, hsave⟩
    · exact .inl ⟨hnone, congrArg (·.2.1) hsave⟩
    · obtain rfl := Except.ok.inj (hleads.symm.trans hadmits.leads)
      exact .inr ⟨c, hadmits, hsome, congrArg (·.2.1) hsave⟩
  | get id => exact .inl ⟨rfl, rfl⟩
  | list => exact .inl ⟨rfl, rfl⟩

/-- **What any operations leave**, one after the other. -/
theorem holds_performAll (ops : List Operation)
    (hleads : t.descend (t.start s.base) (FilePath.parts s.base) = .ok dir) :
    s.Holds dir t (writtenIn (s.performAll t ops).1) (s.performAll t ops).2 := by
  induction ops generalizing t with
  | nil => exact ⟨hleads, .nil s t⟩
  | cons op ops ih =>
    rw [performAll_cons]
    rcases perform_cases hleads op with ⟨hnone, hsame⟩ | ⟨c, hadmits, hsome, hput⟩
    · simp only [hsame, writtenIn, List.filterMap_cons_none hnone]
      exact ih hleads
    · have hrest := ih (t := withFile t dir c) (leads_withFile hadmits)
      simp only [hput, writtenIn, List.filterMap_cons_some hsome]
      exact ⟨hrest.leads, hrest.wrote.cons hadmits⟩

/-- Each thing that happened is what an operation did after those before it. -/
theorem exists_of_performAll {ops : List Operation} {before after : List Event} {event : Event}
    (h : (s.performAll t ops).1 = before ++ event :: after) :
    ∃ first op rest, ops = first ++ op :: rest ∧ (s.performAll t first).1 = before ∧
      (s.perform (s.performAll t first).2 op).1 = event := by
  induction before generalizing t ops with
  | nil =>
    cases ops with
    | nil => cases h
    | cons op ops => exact ⟨[], op, ops, rfl, rfl, (List.cons.inj h).1⟩
  | cons head before ih =>
    cases ops with
    | nil => cases h
    | cons op ops =>
      rw [performAll_cons, List.cons_append, List.cons.injEq] at h
      obtain ⟨first, next, rest, rfl, hbefore, hevent⟩ := ih h.2
      refine ⟨op :: first, next, rest, rfl, ?_, hevent⟩
      rw [performAll_cons, h.1, hbefore]

/-- It is what one of the operations did. -/
theorem exists_of_mem_performAll {ops : List Operation} {event : Event}
    (h : event ∈ (s.performAll t ops).1) : ∃ op ∈ ops, ∃ t', (s.perform t' op).1 = event := by
  obtain ⟨before, after, heq⟩ := List.append_of_mem h
  obtain ⟨first, op, rest, rfl, -, hevent⟩ := exists_of_performAll heq
  exact ⟨op, List.mem_append_right first List.mem_cons_self, _, hevent⟩

/-- What operations write is for streams that they were asked for. -/
theorem lt_of_mem_writtenIn {ops : List Operation} (hops : ∀ op ∈ ops, op.Fits)
    (h : c ∈ writtenIn (s.performAll t ops).1) : c.id < Numeral.wordLimit := by
  obtain ⟨event, hevent, hsome⟩ := List.mem_filterMap.mp h
  obtain ⟨op, hop, t', rfl⟩ := exists_of_mem_performAll hevent
  cases op with
  | save a faults =>
    rw [(written?_eq_some hsome).1]
    exact hops _ hop
  | get id => cases hsome
  | list => cases hsome

/-- **What clean operations write** are the scripts that they save. -/
theorem writtenIn_of_isClean {ops : List Operation} (h : ∀ op ∈ ops, op.IsClean) :
    writtenIn (s.performAll t ops).1 = (savedIn (s.performAll t ops).1).map .ofScript := by
  rw [writtenIn, savedIn, List.map_filterMap]
  refine List.filterMap_congr fun event hevent => ?_
  obtain ⟨op, hop, t', rfl⟩ := exists_of_mem_performAll hevent
  cases op with
  | save a faults =>
    have htakes : Takes faults a := h _ hop
    rcases s.save_cases a t' faults with ⟨hnone, log, hsave⟩ | ⟨found, c, -, hsome, log, hsave⟩
    · simp only [perform, hnone, hsave, Event.written?, Event.saved?, Option.map_none]
    · obtain rfl := (written?_eq_some hsome).2.2 htakes
      simp only [perform, hsome, hsave, if_pos htakes, Event.written?, Event.saved?,
        Option.map_some]
  | get id => rfl
  | list => rfl

/-! ### Maps -/

/-- The name of a script, of whichever stream. -/
def IsScriptName (name : String) : Prop :=
  ∃ middle, name.toList = namePrefix ++ middle ++ ".py".toList

/-- **A fresh store**: there are no names of scripts in its directory. -/
def IsFresh (s : Store) (t : FileTree) : Prop :=
  ∀ dir, t.descend (t.start s.base) (FilePath.parts s.base) = .ok dir →
    ∀ name ∈ t.namesBelow dir, ¬ IsScriptName name

/-- What a map gives for a stream if this was written to it: what was written last. -/
def found (written : List Content) (id : Nat) : Except StoreError String :=
  match last? Content.id id written with
  | some c => c.read
  | none => .error (.notFound id)

/-- If scripts were saved, it is the script that was saved last. -/
theorem found_ofScript (saved : List Artifact) (id : Nat) :
    found (saved.map .ofScript) id =
      match last? Artifact.streamId id saved with
      | some a => .ok a.script
      | none => .error (.notFound id) := by
  have hlast : last? Content.id id (saved.map .ofScript) =
      (last? Artifact.streamId id saved).map .ofScript := last?_map ..
  rw [found, hlast]
  cases last? Artifact.streamId id saved with
  | some a => exact Content.read_ofScript a
  | none => rfl

/-- The streams that something was written for, in strictly ascending order. -/
structure IsListOf (written : List Content) (ids : List Nat) : Prop where
  ascending : ids.Pairwise (· < ·)
  mem_iff : ∀ id, id ∈ ids ↔ ∃ c ∈ written, c.id = id

/-- **What happens to a map** to which this was written. If a script is saved, all of it is written;
if it is not, what is written are its first bytes, or nothing at all. Behind the empty path nothing
is listed. -/
def Event.IsOf (s : Store) (written : List Content) : Event → Prop
  | .saved a more result =>
    (result = .ok (s.path a.streamId) ∧ more = some (.ofScript a)) ∨
      (result = .error .writeFailed ∧
        ∀ c ∈ more, c.id = a.streamId ∧ c.bytes <+: Bytes.ofText a.script)
  | .got id result => result = found written id
  | .listed result =>
    (s.base ≠ "" → ∃ ids, result = .ok ids ∧ IsListOf written ids) ∧
      (s.base = "" → result = .error .readFailed)

/-- **A store that is a map** to which this was written. -/
structure IsMap (s : Store) (written : List Content) (t : FileTree) : Prop where
  /-- It answers as the map does. -/
  answers : ∀ op : Operation, op.Fits → (s.perform t op).1.IsOf s written
  /-- A script whose file cannot be opened changes nothing; one that is saved changes its own file
  and what is read for its stream, and so does one that is saved in part. -/
  save_alone : ∀ a faults,
    (s.written? a t faults = none ∧ ∃ log, s.save a t faults = (.error .writeFailed, t, log)) ∨
    ∃ c place t' log, s.written? a t faults = some c ∧ (Takes faults a → c = .ofScript a) ∧
      s.save a t faults =
        (if Takes faults a then .ok (s.path a.streamId) else .error .writeFailed, t', log) ∧
      t.placeForFile (s.path a.streamId) = .ok place ∧
      t'.get? place = some (.file c.bytes c.isExecutable) ∧
      (∀ other ≠ place, t'.get? other = t.get? other) ∧
      ∀ id ≠ a.streamId, s.get id t' = s.get id t
  /-- No two streams have the same file. -/
  files_apart : ∀ id other place, t.placeForFile (s.path id) = .ok place →
    t.placeForFile (s.path other) = .ok place → id = other
  /-- The number of a stream is read back from the name of its file. -/
  name_read : ∀ id < Numeral.wordLimit, ∀ place, t.placeForFile (s.path id) = .ok place →
    ∃ name, place.getLast? = some name ∧ idOfName? name = some id

theorem isScriptName_of_tells (h : Tells name id) : IsScriptName name := by
  obtain ⟨-, sign, zeros, -, hname⟩ := h
  exact ⟨sign ++ List.replicate zeros '0' ++ Numeral.decimal id, by simpa using hname⟩

/-- **Saving a script** is answered in the same way, whatever was written before. -/
theorem isOf_save (s : Store) (t : FileTree) (a : Artifact) (faults : FileTree.WriteFaults)
    (written : List Content) : (s.perform t (.save a faults)).1.IsOf s written := by
  rcases s.save_cases a t faults with ⟨hnone, log, hsave⟩ | ⟨dir, c, -, hsome, log, hsave⟩
  · refine .inr ⟨congrArg Prod.fst hsave, fun c hc => ?_⟩
    cases hnone.symm.trans hc
  · obtain ⟨hid, hbytes, hall⟩ := written?_eq_some hsome
    by_cases htakes : Takes faults a
    · rw [if_pos htakes] at hsave
      exact .inl ⟨congrArg Prod.fst hsave, hsome.trans (congrArg some (hall htakes))⟩
    · rw [if_neg htakes] at hsave
      refine .inr ⟨congrArg Prod.fst hsave, fun d hd => ?_⟩
      obtain rfl := Option.some.inj (hsome.symm.trans hd)
      exact ⟨hid, hbytes ▸ Sink.write_prefix _ _⟩

/-- A name tells one number. -/
theorem Tells.unique {other : Nat} (h : Tells name id) (h' : Tells name other) : id = other :=
  Option.some.inj ((tells_iff.mp h).symm.trans (tells_iff.mp h'))

/-- Something is found for the streams for which something was written. -/
theorem found_ne_notFound_iff :
    found written id ≠ .error (.notFound id) ↔ ∃ c ∈ written, c.id = id := by
  unfold found
  cases hlast : last? Content.id id written with
  | some c =>
    have hmem := List.mem_filter.mp (List.mem_of_getLast? hlast)
    exact iff_of_true (c.read_ne_notFound id) ⟨c, hmem.1, of_decide_eq_true hmem.2⟩
  | none =>
    simp only [ne_eq, not_true, false_iff, not_exists, not_and]
    exact last?_eq_none hlast

/-- Behind the empty path nothing is listed. -/
theorem list_of_empty (h : s.base = "") (t : FileTree) : (s.list t).1 = .error .readFailed := by
  have hnames : t.names s.base = .error .notFound := by
    rw [h]
    rfl
  simp only [list, hnames]

section Holds

variable (hleads : t.descend (t.start s.base) (FilePath.parts s.base) = .ok dir)
  (hfresh : ∀ name ∈ t.namesBelow dir, ¬ IsScriptName name)
  (hwords : ∀ c ∈ written, c.id < Numeral.wordLimit) (h : s.Holds dir t written t')

include hleads hfresh h in
/-- **What is read** for a stream is what was written last for it. -/
theorem Holds.get_eq (hid : id < Numeral.wordLimit) : (s.get id t').1 = found written id := by
  unfold found
  cases hlast : last? Content.id id written with
  | some c => exact h.wrote.read hlast
  | none =>
    rw [h.wrote.others (last?_eq_none hlast)]
    by_contra hfound
    exact hfresh _ ((get_ne_notFound_iff hleads hid).mp hfound).1
      (isScriptName_of_tells (tells_fileName hid))

include hfresh hwords h in
/-- The names of scripts in the directory are those that the store wrote. -/
theorem Holds.isPlain : s.IsPlain (t'.namesBelow dir) := by
  intro name hname id htells
  rw [FileTree.mem_namesBelow] at hname
  -- what has the name is a file that the store wrote, or it was there when the store was fresh
  by_cases hwritten : ∃ c ∈ written, t.placeForFile (s.path c.id) = .ok (dir ++ [name])
  · obtain ⟨c, hc, hplace⟩ := hwritten
    obtain ⟨found, hadmits, heq⟩ := placeForFile_path.mp hplace
    obtain rfl : name = fileName c.id := List.singleton_inj.mp (List.append_inj_right' heq rfl)
    obtain rfl := htells.unique (tells_fileName (hwords c hc))
    exact ⟨rfl, hadmits.path_ok⟩
  · rw [h.wrote.places fun c hc hplace => hwritten ⟨c, hc, hplace⟩, ← FileTree.mem_namesBelow]
      at hname
    exact absurd (isScriptName_of_tells htells) (hfresh name hname)

include hleads hfresh hwords h in
/-- **What is listed** are the streams for which something was written. -/
theorem Holds.isListOf : IsListOf written (idsOfNames (t'.namesBelow dir)) := by
  have hagrees := (agrees_iff h.leads).mpr (h.isPlain hfresh hwords)
  refine ⟨hagrees.ascending, fun id => ?_⟩
  by_cases hid : id < Numeral.wordLimit
  · rw [hagrees.found id hid, h.get_eq hleads hfresh hid, found_ne_notFound_iff]
  · -- a larger number is told by no name, and nothing was written for it
    refine iff_of_false (fun hmem => ?_) (fun ⟨c, hc, hstream⟩ => hid (hstream ▸ hwords c hc))
    obtain ⟨name, -, htells⟩ := mem_idsOfNames.mp hmem
    exact hid htells.1

include hleads hfresh hwords h in
/-- **A store that was fresh is a map.** -/
theorem Holds.isMap (hpath : s.base ≠ "" → FileTree.checkPath s.base = .ok ()) :
    s.IsMap written t' where
  answers := by
    intro op hop
    cases op with
    | save a faults => exact s.isOf_save t' a faults written
    | get id => exact h.get_eq hleads hfresh hop
    | list =>
      refine ⟨fun hbase => ?_, fun hbase => ?_⟩
      · exact ⟨_, list_eq (FileTree.find_eq_directory.mpr ⟨hpath hbase, h.leads⟩),
          h.isListOf hleads hfresh hwords⟩
      · exact list_of_empty hbase t'
  save_alone := by
    intro a faults
    rcases s.save_cases a t' faults with hunopened | ⟨place, c, hadmits, hsome, log, hsave⟩
    · exact .inl hunopened
    · obtain ⟨hid, -, hall⟩ := written?_eq_some hsome
      refine .inr ⟨c, _, _, log, hsome, hall, hsave,
        placeForFile_path.mpr ⟨place, hid ▸ hadmits, rfl⟩, hid ▸ get?_withFile_self hadmits,
        fun other hother => get?_withFile_of_ne (hid ▸ hother),
        fun id hne => get_withFile_of_ne hadmits (hid ▸ hne)⟩
  files_apart := by
    intro id other place hplace hother
    obtain ⟨dir, -, rfl⟩ := placeForFile_path.mp hplace
    obtain ⟨dir', -, heq⟩ := placeForFile_path.mp hother
    exact eq_of_append_fileName heq
  name_read := by
    intro id hid place hplace
    obtain ⟨dir, -, rfl⟩ := placeForFile_path.mp hplace
    exact ⟨_, List.getLast?_concat, tells_iff.mp (tells_fileName hid)⟩

end Holds

/-- **Every store is a map**, whatever it was asked for since it was made: each answer is that of
the map to which everything before was written, and so is each answer that would come next. What is
written are the scripts that are saved, if no file that is opened fails to take its script. A store
with the empty path is the exception: it works in the current directory, but cannot list what is
there. -/
theorem isMap_of_operations {base : String} (hcreate : (create base t).1 = .ok s)
    (hfresh : s.IsFresh (create base t).2.1) (ops : List Operation)
    (hops : ∀ op ∈ ops, op.Fits) :
    let events := (s.performAll (create base t).2.1 ops).1
    let after := (s.performAll (create base t).2.1 ops).2
    (∀ before event later, events = before ++ event :: later →
      event.IsOf s (writtenIn before)) ∧
    s.IsMap (writtenIn events) after ∧
    ((∀ op ∈ ops, op.IsClean) →
      writtenIn events = (savedIn events).map .ofScript ∧
      ∀ id, found (writtenIn events) id =
        match last? Artifact.streamId id (savedIn events) with
        | some a => .ok a.script
        | none => .error (.notFound id)) := by
  obtain ⟨rfl, hmade⟩ := create_eq_ok hcreate
  obtain ⟨hpath, dir, hleads⟩ := FileTree.leads_of_createDirectories hmade
  have hmap : ∀ first : List Operation, (∀ op ∈ first, op.Fits) →
      s.IsMap (writtenIn (s.performAll (create s.base t).2.1 first).1)
        (s.performAll (create s.base t).2.1 first).2 := fun first hfirst =>
    (holds_performAll first hleads).isMap hleads (hfresh dir hleads)
      (fun _ => lt_of_mem_writtenIn hfirst) hpath
  refine ⟨fun before event later h => ?_, hmap ops hops, fun hclean => ?_⟩
  · -- what happened was an answer after some of the operations, to which the same applies
    obtain ⟨first, op, rest, rfl, rfl, rfl⟩ := exists_of_performAll h
    exact (hmap first fun op hop => hops op (List.mem_append_left _ hop)).answers op
      (hops op (List.mem_append_right first List.mem_cons_self))
  · have hwritten := writtenIn_of_isClean hclean (s := s) (t := (create s.base t).2.1)
    refine ⟨hwritten, fun id => ?_⟩
    exact (congrArg (found · id) hwritten).trans (found_ofScript _ id)

/-- Asking for a script before and after it is saved; a second time its file is not opened. -/
def asked : List Operation :=
  [.get 7, .save seven,
    .save seven { opening := some (.other "Permission denied (os error 13)") }, .get 7, .list]

/-- A tree with nothing in it. -/
def newTree : FileTree where
  nodes := []
  current := []

/-- The theorem at a new directory, in which one script is saved. -/
theorem isMap_of_asked :
    (create "d" newTree).1 = .ok ⟨"d"⟩ ∧
      IsFresh ⟨"d"⟩ (create "d" newTree).2.1 ∧ (∀ op ∈ asked, op.Fits) ∧
      (∀ op ∈ asked, op.IsClean) ∧
      savedIn (performAll ⟨"d"⟩ (create "d" newTree).2.1 asked).1 = [seven] ∧
      IsMap ⟨"d"⟩ [.ofScript seven] (performAll ⟨"d"⟩ (create "d" newTree).2.1 asked).2 := by
  have hcreate : (create "d" newTree).1 = .ok ⟨"d"⟩ := by decide +kernel
  have hfresh : IsFresh ⟨"d"⟩ (create "d" newTree).2.1 := by
    intro dir hdir name hname
    have hleads : (create "d" newTree).2.1.descend
        ((create "d" newTree).2.1.start (⟨"d"⟩ : Store).base)
          (FilePath.parts (⟨"d"⟩ : Store).base) = .ok ["d"] := by
      decide +kernel
    have hnames : (create "d" newTree).2.1.namesBelow ["d"] = [] := by decide +kernel
    obtain rfl := Except.ok.inj (hleads.symm.trans hdir)
    rw [hnames] at hname
    cases hname
  have hops : ∀ op ∈ asked, op.Fits := by decide +kernel
  have hsaved : savedIn (performAll ⟨"d"⟩ (create "d" newTree).2.1 asked).1 = [seven] := by
    decide +kernel
  have hclean : ∀ op ∈ asked, op.IsClean := by decide +kernel
  obtain ⟨-, hmap, hwritten⟩ := isMap_of_operations hcreate hfresh asked hops
  rw [(hwritten hclean).1, hsaved] at hmap
  exact ⟨hcreate, hfresh, hops, hclean, hsaved, hmap⟩

/-- A tree with a current directory. -/
def workTree : FileTree where
  nodes := [(["work"], .directory)]
  current := ["work"]

/-- With the empty path a store is made in the current directory, and a script is saved there and
read; but it is not listed. -/
theorem list_of_workTree :
    (create "" workTree).1 = .ok ⟨""⟩ ∧ (create "" workTree).2.1 = workTree ∧
      (save ⟨""⟩ seven workTree).1 = .ok "stream-7.py" ∧
      (get ⟨""⟩ 7 (save ⟨""⟩ seven workTree).2.1).1 = .ok "s" ∧
      (list ⟨""⟩ (save ⟨""⟩ seven workTree).2.1).1 = .error .readFailed := by
  decide +kernel

end Store

end HttpReplay
