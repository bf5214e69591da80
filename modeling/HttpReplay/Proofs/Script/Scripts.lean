import HttpReplay.Proofs.Dispatch.Requests
import HttpReplay.Proofs.Script.Calls

/-!
# What a script does

A script is read line by line. Ten lines are its preamble, in which the recorded host stands in a
comment and nowhere else; behind them is one line for each request, in order, and each is a call
that makes its request. Nothing in a request, a host or a body can add a line or change another:
whatever they hold, they are written in characters that are seen, so no line ends within them.

`HttpReplay.Script.replays_ofRequests` is the theorem, for any list of requests and so for those of
a stream.
-/

namespace HttpReplay

namespace Script

open Literal

/-! ### Lines -/

/-- The characters of a line: none of them ends it. -/
def IsLine (line : List Char) : Prop := ∀ c ∈ line, c ≠ '\n' ∧ c ≠ '\r'

instance (line : List Char) : Decidable (IsLine line) := inferInstanceAs (Decidable (∀ _ ∈ _, _))

theorem isLine_of_isVisible {line : List Char} (h : ∀ c ∈ line, isVisible c = true) :
    IsLine line := by
  intro c hc
  have hraw := isRaw_of_isVisible (h c hc)
  simp only [Rules.ofText, Bool.and_eq_true, bne_iff_ne] at hraw
  exact hraw.1

theorem IsLine.append {before after : List Char} (hb : IsLine before) (ha : IsLine after) :
    IsLine (before ++ after) := by
  intro c hc
  rcases List.mem_append.mp hc with hc | hc
  · exact hb c hc
  · exact ha c hc

theorem linesFrom_of_isLine {line : List Char} (h : IsLine line) (current rest : List Char) :
    linesFrom current (line ++ '\n' :: rest) = (current.reverse ++ line) :: linesFrom [] rest := by
  induction line generalizing current with
  | nil =>
    rw [List.nil_append, linesFrom, if_pos (Or.inl rfl), List.append_nil]
    intro _ hr
    cases hr
  | cons c line ih =>
    obtain ⟨⟨hn, hr⟩, hline⟩ := List.forall_mem_cons.mp h
    rw [List.cons_append, linesFrom, if_neg (by simp [hn, hr]), ih hline, List.reverse_cons,
      List.append_assoc, List.singleton_append]
    -- A line feed behind it would only matter to a carriage return.
    intro _ hreturn
    exact absurd hreturn hr

/-- **Lines that are written one after the other** are the lines that are read. -/
theorem lines_flatMap {written : List (List Char)} (h : ∀ line ∈ written, IsLine line) :
    lines (written.flatMap (· ++ ['\n'])) = written := by
  induction written with
  | nil => rfl
  | cons line written ih =>
    obtain ⟨hline, hwritten⟩ := List.forall_mem_cons.mp h
    rw [List.flatMap_cons, List.append_assoc, List.singleton_append, lines,
      linesFrom_of_isLine hline, ← lines, ih hwritten]
    rfl

end Script

/-! ### The lines of requests -/

namespace HostTemplate

theorem isVisible_of_mem_around {t : HostTemplate} {d : Char} (h : d ∈ t.around placeholder) :
    Literal.isVisible d = true := by
  have hplaceholder : ∀ d ∈ placeholder, Literal.isVisible d = true := by decide
  rw [around, List.mem_append] at h
  rcases h with h | h
  · cases hkind : t.kind with
    | plain =>
      rw [hkind] at h
      exact hplaceholder d h
    | ipv6 =>
      rw [hkind] at h
      have hbrackets : ∀ d ∈ '[' :: placeholder ++ [']'], Literal.isVisible d = true := by decide
      exact hbrackets d h
  · split at h
    · rcases List.mem_cons.mp h with rfl | h
      · decide
      · exact Literal.isVisible_of_mem_toDigits (by decide) (by decide) h
    · cases h

end HostTemplate

namespace Request

open Literal Script

variable {r : Request} {host : HostTemplate} {cs : List Char} {d : Char}

theorem isVisible_of_mem_function {method : String}
    (h : d ∈ (CallForm.ofMethod method).function) : isVisible d = true := by
  have hshorthands : ∀ name ∈ CallForm.shorthands, ∀ d ∈ name.toList, isVisible d = true := by
    decide
  have hgeneric : ∀ d ∈ "request".toList, isVisible d = true := by decide
  rcases CallForm.ofMethod_cases method with ⟨name, hname, -, hform⟩ | ⟨-, hform⟩
  · rw [hform] at h
    exact hshorthands name hname d h
  · rw [hform] at h
    exact hgeneric d h

theorem isVisible_of_mem_urlArgument (h : d ∈ (r.urlArgument host).1) : isVisible d = true := by
  have hscheme : ∀ d ∈ scheme, isVisible d = true := by decide
  rw [urlArgument, List.mem_cons, List.mem_cons, List.mem_append, urlInner, List.mem_append,
    List.mem_append, List.mem_singleton] at h
  rcases h with rfl | rfl | ((h | h) | h) | rfl
  · decide
  · decide
  · exact hscheme d h
  · exact HostTemplate.isVisible_of_mem_around h
  · exact isVisible_of_mem_template h
  · decide

theorem isVisible_of_mem_positional (hcs : cs ∈ (r.positionalArguments host).map (·.1))
    (h : d ∈ cs) : isVisible d = true := by
  rw [positionalArguments, List.map_append, List.mem_append, List.map_singleton,
    List.mem_singleton] at hcs
  rcases hcs with hcs | rfl
  · cases hform : CallForm.ofMethod r.method with
    | shorthand name =>
      rw [hform] at hcs
      cases hcs
    | generic method =>
      rw [hform] at hcs
      rw [List.mem_singleton.mp hcs] at h
      exact isVisible_of_mem_textChars h
  · exact isVisible_of_mem_urlArgument h

theorem isVisible_of_mem_keywords (hcs : cs ∈ r.keywordArguments.map (·.1)) (h : d ∈ cs) :
    isVisible d = true := by
  have hheaders : ∀ d ∈ "headers".toList, isVisible d = true := by decide
  have hdata : ∀ d ∈ "data".toList, isVisible d = true := by decide
  rw [keywordArguments, List.map_append, List.mem_append] at hcs
  rcases hcs with hcs | hcs
  · split at hcs
    · cases hcs
    · rw [List.mem_singleton.mp hcs] at h
      simp only [List.mem_append, List.mem_cons] at h
      rcases h with h | rfl | h
      · exact hheaders d h
      · decide
      · exact isVisible_of_mem_dict h
  · split at hcs
    · cases hcs
    · rw [List.mem_singleton.mp hcs] at h
      simp only [List.mem_append, List.mem_cons] at h
      rcases h with h | rfl | h
      · exact hdata d h
      · decide
      · exact isVisible_of_mem_byteChars h

/-- **A line is written in characters that are seen**, so it is one line. -/
theorem isLine_line (r : Request) (host : HostTemplate) : IsLine (r.line host) := by
  have hfront : ∀ d ∈ Call.front, isVisible d = true := by decide
  refine isLine_of_isVisible fun d hd => ?_
  rw [line, List.mem_append, List.mem_append, List.mem_cons, List.mem_append,
    List.mem_singleton] at hd
  rcases hd with (hd | hd) | rfl | hd | rfl
  · exact hfront d hd
  · exact isVisible_of_mem_function hd
  · decide
  · refine isVisible_of_mem_separated ?_ hd
    intro cs hcs e he
    rcases List.mem_append.mp hcs with hcs | hcs
    · exact isVisible_of_mem_positional hcs he
    · exact isVisible_of_mem_keywords hcs he
  · decide

end Request

/-! ### The preamble -/

namespace Script

open Literal

/-- The preamble of a script, line by line: the recorded host is there as a literal in a comment,
and the number of the stream in another. -/
def preambleLines (id : Nat) (literal : List Char) : List (List Char) :=
  ["#!/usr/bin/env python3".toList, "import requests".toList, "import sys".toList, [],
    "IP = sys.argv[1]".toList, "# IP = ".toList ++ literal, [],
    "# Generated from stream ".toList ++ Numeral.decimal id, "s = requests.Session()".toList, []]

theorem toList_preamble (m : Metadata) :
    (preamble m).toList =
      (preambleLines m.id (textChars m.serverHost.toList)).flatMap (· ++ ['\n']) := by
  have hhost : (Literal.text m.serverHost).toList = textChars m.serverHost.toList :=
    String.toList_ofList
  have hid : (toString m.id).toList = Numeral.decimal m.id := by
    rw [Nat.toString_eq_repr, Nat.toList_repr]
    rfl
  -- The parts that are written in full are computed, and so are kept apart from the other two.
  unfold preamble preambleLines Request.session
  simp only [String.toList_append, hhost, hid]
  generalize textChars m.serverHost.toList = literal
  generalize Numeral.decimal m.id = digits
  simp

theorem isLine_of_mem_preambleLines (id : Nat) (cs : List Char) :
    ∀ line ∈ preambleLines id (textChars cs), IsLine line := by
  have hliteral : IsLine (textChars cs) := isLine_of_isVisible fun _ hd =>
    isVisible_of_mem_textChars hd
  have hdigits : IsLine (Numeral.decimal id) := isLine_of_isVisible fun _ hd =>
    isVisible_of_mem_toDigits (by decide) (by decide) hd
  intro line hline
  -- All but two of the lines are written in full.
  simp only [preambleLines, List.mem_cons, List.not_mem_nil, or_false] at hline
  rcases hline with rfl | rfl | rfl | rfl | rfl | rfl | rfl | rfl | rfl | rfl
  · decide
  · decide
  · decide
  · decide
  · decide
  · exact IsLine.append (by decide) hliteral
  · decide
  · exact IsLine.append (by decide) hdigits
  · decide
  · decide

/-! ### Whole scripts -/

theorem toList_push (s : Script) (r : Request) :
    (s.push r).text.toList = s.text.toList ++ (r.line s.host ++ ['\n']) := by
  rw [push, String.toList_append, Request.toList_render]

theorem toList_foldl_push (s : Script) (requests : List Request) :
    (requests.foldl push s).text.toList =
      s.text.toList ++ (requests.map (·.line s.host)).flatMap (· ++ ['\n']) := by
  induction requests generalizing s with
  | nil => simp
  | cons r requests ih =>
    rw [List.foldl_cons, ih, toList_push, List.map_cons, List.flatMap_cons, List.append_assoc]
    rfl

/-- **The lines of a script** are those of its preamble and those of its requests. -/
theorem lines_ofRequests (m : Metadata) (requests : List Request) :
    lines (ofRequests m requests).text.toList =
      preambleLines m.id (textChars m.serverHost.toList) ++
        requests.map (·.line (HostTemplate.ofHost m.serverHost m.serverPort)) := by
  have htext : (ofRequests m requests).text.toList =
      (preambleLines m.id (textChars m.serverHost.toList) ++
        requests.map (·.line (HostTemplate.ofHost m.serverHost m.serverPort))).flatMap
          (· ++ ['\n']) := by
    rw [ofRequests, toList_foldl_push, List.flatMap_append, ← toList_preamble]
    rfl
  rw [htext]
  refine lines_flatMap fun line hline => ?_
  rcases List.mem_append.mp hline with hline | hline
  · exact isLine_of_mem_preambleLines _ _ line hline
  · obtain ⟨r, -, rfl⟩ := List.mem_map.mp hline
    exact r.isLine_line _

/-- **A script replays requests** against a recorded server. -/
structure Replays (m : Metadata) (requests : List Request) (script : List Char) : Prop where
  /-- The first ten lines are the preamble, where the recorded host stands as a literal in a comment
  and nowhere else. -/
  preamble : ∃ literal, (lines script).take 10 = preambleLines m.id literal ∧
    isComment ("# IP = ".toList ++ literal) = true ∧
    readText literal = some (m.serverHost.toList, [])
  /-- Behind it there is one line for each request. -/
  length : (lines script).length = 10 + requests.length
  /-- The line of a request is a call, which makes the request, whatever the names that are used
  stand for. -/
  call : ∀ i r, requests[i]? = some r → ∃ line call, (lines script)[10 + i]? = some line ∧
    Call.ofLine? line = some call ∧ ∀ names, call.made names = r.madeAt m (names ['I', 'P'])

theorem replays_of_nodup (m : Metadata) {requests : List Request}
    (hn : ∀ r ∈ requests, r.headers.names.Nodup) :
    Replays m requests (ofRequests m requests).text.toList where
  preamble := by
    have hread := @readText_textChars m.serverHost.toList [] fun _ => by simp
    rw [List.append_nil] at hread
    refine ⟨_, ?_, ?_, hread⟩
    · rw [lines_ofRequests]
      rfl
    · rfl
  length := by
    rw [lines_ofRequests, List.length_append, List.length_map]
    rfl
  call := by
    intro i r hr
    obtain ⟨call, hcall, hmade⟩ := r.made_line m (hn r (List.mem_of_getElem? hr))
    refine ⟨_, call, ?_, hcall, hmade⟩
    -- The line stands as far behind the preamble as the request stands in the list.
    rw [lines_ofRequests, List.getElem?_append_right (Nat.le_add_right 10 i)]
    change (requests.map _)[10 + i - 10]? = _
    rw [Nat.add_sub_cancel_left, List.getElem?_map, hr]
    rfl

/-- **The script means the requests.** Ten lines are its preamble, in which the recorded host stands
in a comment. Behind it each request, in order, has one line, a call that makes the request. So it
is for any requests in which every name of a header field is there once, and the requests of a
stream are such. -/
theorem replays_ofRequests :
    (∀ (m : Metadata) (requests : List Request) (time : Instant),
      (∀ r ∈ requests, r.headers.names.Nodup) →
      Replays m requests ((ofRequests m requests).finish time).script.toList) ∧
    ∀ (stream : Stream) (now : Instant),
      Replays stream.metadata
        ((Http.Event.requestsIn (Http.dispatch stream).events).map (·.message))
        (stream.convert now).artifact.script.toList := by
  refine ⟨fun m requests time hn => replays_of_nodup m hn, fun stream now => ?_⟩
  rw [Stream.convert_artifact]
  refine replays_of_nodup stream.metadata fun r hr => ?_
  obtain ⟨t, ht, rfl⟩ := List.mem_map.mp hr
  exact Http.nodup_names_of_mem ((Http.reached_dispatch stream).inStep.taken.subset ht)

/-- A host that would leave its comment, and a request whose parts would leave their literals. -/
theorem replays_hostile :
    let m : Metadata := { id := 7, serverHost := "::1\nimport os", serverPort := 8080 }
    let r : Request :=
      { method := "brew\"", path := "/{IP}\"\\\r\n?\u2028", version := 1,
        headers := ⟨[("it's", "a \"value\"\x00"), ("It's", "")]⟩, body := [0x27, 0x22, 0x0a, 0xff] }
    (∀ r' ∈ [r, r], r'.headers.names.Nodup) ∧
      Replays m [r, r] ((ofRequests m [r, r]).finish Instant.epoch).script.toList :=
  ⟨by decide, replays_ofRequests.1 _ _ _ (by decide)⟩

end Script

end HttpReplay
