import HttpReplay.Program
import HttpReplay.Proofs.Files.Directories

/-!
# Runs that cannot start

A run may stop before it reads anything: its command line or its settings may be none, the
directory for scripts may not be made, the input may not be opened. All of these leave an exit code
other than zero, but not all of them leave the files alone. The file for the answers is created
before the input is opened, so what it held is lost when there is no input; whatever else stops a
run stops it before.

* `HttpReplay.Program.tree_of_settings?_eq_none` – without settings nothing is touched;
* `HttpReplay.Program.session_of_closed_input` – what a run with settings touches;
* `HttpReplay.Program.run_of_closed_input` – **what a run without input leaves**.
-/

namespace HttpReplay

theorem Store.tree_create (base : String) (t : FileTree) :
    (Store.create base t).2.1 = (t.createDirectories base).1 := by
  unfold Store.create
  split
  · rename_i t' hmade
    rw [hmade]
  · rename_i t' fault hmade
    rw [hmade]

namespace Program

variable {environment : Option String} {words : List String} {w : World} {s : Settings}
  {input output : String} {place : FilePlace} {content : Bytes} {isExecutable : Bool}

/-! ### Settings -/

/-- A run with settings is what they make of it. -/
theorem run_of_settings? (h : settings? environment words w.tree = some s) :
    run environment words w = runWith s w := by
  unfold settings? at h
  unfold run
  cases hparse : CommandLine.parse environment words with
  | error stop => simp [hparse, Except.toOption] at h
  | ok arguments =>
    cases hsettings : Settings.ofArguments w.tree arguments with
    | error e => simp [hparse, hsettings, Except.toOption] at h
    | ok s' =>
      simp only [hparse, hsettings, Except.toOption, Option.bind_some, Option.some.injEq] at h
      simp only [hsettings, h]

/-- **A run without settings** touches nothing. -/
theorem tree_of_settings?_eq_none (h : settings? environment words w.tree = none) :
    (run environment words w).tree = w.tree := by
  unfold settings? at h
  unfold run
  cases hparse : CommandLine.parse environment words with
  | error stop => cases stop <;> rfl
  | ok arguments =>
    cases hsettings : Settings.ofArguments w.tree arguments with
    | error e => simp only [hsettings]
    | ok s => simp [hparse, hsettings, Except.toOption] at h

/-! ### Opening -/

/-- Making the store takes nothing away, whether or not it can be made. -/
theorem keptIn_openStore (s : Settings) (tree : FileTree) :
    tree.KeptIn (openStore s tree).2.1 := by
  unfold openStore
  cases s.scriptDir with
  | none => exact .refl tree
  | some dir =>
    have hkept := FileTree.keptIn_createDirectories tree dir
    rw [← Store.tree_create] at hkept
    dsimp only
    generalize Store.create dir tree = made at hkept ⊢
    obtain ⟨_ | _, t, log⟩ := made <;> exact hkept

/-- The file for the answers is emptied if there is one already. -/
theorem openOutput_of_find {tree : FileTree} (ho : s.output = some output)
    (h : tree.find output = .ok (place, .file content isExecutable)) :
    openOutput s tree = .ok (tree.put place (.file [] isExecutable), some place) := by
  unfold openOutput
  simp only [ho, FileTree.createFile_of_find h]

/-- Without its input a session does nothing. -/
theorem runSession_of_find_eq_error {tree : FileTree} {fault : IoFault} (bytes : Bytes)
    (session : Session) (hi : s.input = some input) (h : tree.find input = .error fault) :
    runSession s bytes session tree = ⟨[], tree, [], .error (.io fault)⟩ := by
  unfold runSession openInput
  simp only [hi, h]

/-! ### Runs without input -/

section ClosedInput

variable (hi : s.input = some input) (ho : s.output = some output)
  (hfile : w.tree.find output = .ok (place, .file content isExecutable))
  (hclosed : ∃ fault, (openStore s w.tree).2.1.find input = .error fault)

include hi ho hfile hclosed

/-- **What a run touches** if its input cannot be opened: the directories of the store are made as
far as they can be, and once all of them are there the file for the answers is emptied. -/
theorem session_of_closed_input :
    (session s w).result.isOk = false ∧
      (session s w).tree =
        if (openStore s w.tree).1.isOk then
          (openStore s w.tree).2.1.put place (.file [] isExecutable)
        else (openStore s w.tree).2.1 := by
  have hout := (keptIn_openStore s w.tree).find_file hfile
  unfold session
  rcases hstore : openStore s w.tree with ⟨e | store, opened, log⟩
  · exact ⟨rfl, rfl⟩
  · rw [hstore] at hout hclosed
    -- The output is a file where one was, so no path leads anywhere that it did not lead before.
    have hshape : (opened.put place (.file [] isExecutable)).ShapeIn opened :=
      (FileTree.shapeIn_put_file (FileTree.get?_of_find hout)).2
    obtain ⟨fault, hfault⟩ := hshape.exists_find_eq_error hclosed
    simp only [openOutput_of_find ho hout, runSession_of_find_eq_error _ _ hi hfault]
    exact ⟨rfl, rfl⟩

/-- **What such a run leaves**: all files as they were, except that the file for the answers is
empty if the store could be made. -/
theorem get?_of_closed_input {p : FilePlace} {bytes : Bytes} {b : Bool}
    (hget : w.tree.get? p = some (.file bytes b)) :
    (session s w).tree.get? p =
      some (.file (if (openStore s w.tree).1.isOk ∧ p = place then [] else bytes) b) := by
  rw [(session_of_closed_input hi ho hfile hclosed).2]
  have hkept := (keptIn_openStore s w.tree).get?_eq_some hget
  by_cases hmade : (openStore s w.tree).1.isOk
  · rw [if_pos hmade]
    by_cases hp : p = place
    · subst hp
      rw [FileTree.get?_of_find hfile] at hget
      cases hget
      have hne : p ≠ [] := FileTree.ne_nil_of_get? (by rw [hkept]; simp)
      rw [if_pos ⟨hmade, rfl⟩, FileTree.get?_put_self hne]
    · rw [if_neg fun h => hp h.2, FileTree.get?_put_of_ne hp, hkept]
  · rw [if_neg hmade, if_neg fun h => hmade h.1, hkept]

end ClosedInput

/-- **A run without input** fails, and empties the file for the answers on the way.

Let the settings of a run name an input that cannot be opened when the run comes to it, and for the
answers a file that is there already. The run leaves the exit code one. Every file is there as it
was, but for one: if there is no store to be made, or it could be made, the file for the answers is
empty. So nothing is lost just if the store could not be made or there was nothing in that file. -/
theorem run_of_closed_input (hs : settings? environment words w.tree = some s)
    (hi : s.input = some input) (ho : s.output = some output)
    (hfile : w.tree.find output = .ok (place, .file content isExecutable))
    (hclosed : ∃ fault, (openStore s w.tree).2.1.find input = .error fault) :
    let after := run environment words w
    let made := (openStore s w.tree).1.isOk
    after.exitCode = 1 ∧
    (∀ p bytes b, w.tree.get? p = some (.file bytes b) →
      after.tree.get? p = some (.file (if made ∧ p = place then [] else bytes) b)) ∧
    ((∀ p bytes b, w.tree.get? p = some (.file bytes b) →
      after.tree.get? p = some (.file bytes b)) ↔ made = false ∨ content = []) := by
  intro after made
  have hrun : after = runWith s w := run_of_settings? hs
  have hleft : ∀ p bytes b, w.tree.get? p = some (.file bytes b) →
      after.tree.get? p = some (.file (if made ∧ p = place then [] else bytes) b) := by
    intro p bytes b hget
    rw [hrun]
    exact get?_of_closed_input hi ho hfile hclosed hget
  refine ⟨?_, hleft, fun h => ?_, fun h p bytes b hget => ?_⟩
  · rw [hrun, runWith]
    simp only [(session_of_closed_input hi ho hfile hclosed).1, Bool.false_eq_true, if_false]
  · have hget := FileTree.get?_of_find hfile
    have hsame := (hleft _ _ _ hget).symm.trans (h _ _ _ hget)
    cases hmade : made with
    | false => exact Or.inl rfl
    | true =>
      simp only [hmade, and_self, if_true, Option.some.injEq, FileNode.file.injEq,
        and_true] at hsame
      exact Or.inr hsame.symm
  · rw [hleft p bytes b hget]
    split_ifs with hp
    · obtain ⟨hmade, rfl⟩ := hp
      obtain rfl := h.resolve_left (by simp [hmade])
      rw [FileTree.get?_of_find hfile] at hget
      cases hget
      rfl
    · rfl

/-- A directory with the answers of an earlier run. -/
def answered : World where
  now := ⟨0, 0⟩
  input := []
  tree := { nodes := [(["out.txt"], .file (Bytes.ascii "old") false)], current := [] }

/-- A command line with an input that is missing. -/
def missingInput : List String := ["--input", "missing.jsonl", "--output", "out.txt"]

theorem run_of_missing_input :
    (run none missingInput answered).exitCode = 1 ∧
      (run none missingInput answered).tree.get? ["out.txt"] = some (.file [] false) := by
  have h := @run_of_closed_input none missingInput answered
    { input := some "missing.jsonl", output := some "out.txt" } "missing.jsonl" "out.txt"
    ["out.txt"] (Bytes.ascii "old") false (by decide +kernel) rfl rfl (by decide +kernel)
    ⟨.notFound, by decide +kernel⟩
  have hget := h.2.1 ["out.txt"] (Bytes.ascii "old") false (by decide +kernel)
  rw [if_pos ⟨rfl, rfl⟩] at hget
  exact ⟨h.1, hget⟩

/-- **Answers that are lost**: the run fails for want of an input, and what an earlier run left is
gone. -/
theorem answers_lost_without_input :
    answered.tree.find "missing.jsonl" = .error .notFound ∧
      answered.tree.get? ["out.txt"] = some (.file (Bytes.ascii "old") false) ∧
      (run none missingInput answered).exitCode = 1 ∧
      (run none missingInput answered).tree.get? ["out.txt"] = some (.file [] false) := by
  decide +kernel

end Program

end HttpReplay
