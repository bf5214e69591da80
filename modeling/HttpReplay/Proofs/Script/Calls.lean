import HttpReplay.Capture.Stream
import HttpReplay.Proofs.Http.Headers
import HttpReplay.Proofs.Script.Literals
import HttpReplay.Proofs.Text.Case
import HttpReplay.Script.Call.Reader

/-!
# Calls read back

The line of a request is read back as a call, and the call makes the request: the function is the
one for the method, and the arguments stand for the method, if it has no function of its own, the
URL, the header fields and the body.

* `HttpReplay.Script.Call.ofLine?_of_items` reads a line by its function and its arguments;
* `HttpReplay.Request.madeAt` is the call that a request should make, and
  `HttpReplay.Request.ofLine?_line` says that its line makes it.
-/

namespace HttpReplay.Script

open Literal

/-! ### Names -/

/-- A name, as the language of the script knows it. -/
structure IsName (cs : List Char) : Prop where
  chars : ∀ c ∈ cs, isNameChar c = true
  ne_nil : cs ≠ []
  front : cs.head?.any Char.isDigit = false

instance (cs : List Char) : Decidable (IsName cs) :=
  decidable_of_iff (_ ∧ _ ∧ _) ⟨fun ⟨h, h', h''⟩ => ⟨h, h', h''⟩, fun h => ⟨h.1, h.2, h.3⟩⟩

variable {c : Char} {cs key rest : List Char}

theorem name_of_isName (h : IsName cs) (hc : isNameChar c = false) (rest : List Char) :
    name (cs ++ c :: rest) = some (cs, c :: rest) := by
  obtain ⟨htake, hdrop⟩ := @split_name c cs rest h.chars hc
  have hhead : (cs ++ c :: rest).head? = cs.head? := by
    rw [List.head?_append, Option.or_of_isSome]
    exact List.isSome_head?.mpr h.ne_nil
  rw [name, htake, hdrop, hhead, if_neg]
  simp [h.ne_nil, h.front]

/-! ### Arguments -/

theorem isElement_text (cs : List Char) : IsElement ')' argument (textChars cs) (.text cs) where
  front := by
    obtain ⟨quote, more, hquote, hq⟩ := exists_quote_of_textChars cs
    refine ⟨quote, more, hquote, ?_⟩
    rcases hq with rfl | rfl <;> decide
  reads := by
    intro mark rest hmark
    have hne : mark ≠ single := by rcases hmark with rfl | rfl <;> decide
    have hread := readText_before cs hne rest
    obtain ⟨quote, more, hquote, hq⟩ := exists_quote_of_textChars cs
    rw [hquote] at hread ⊢
    rcases hq with rfl | rfl <;> exact congrArg (Option.map fun p => (Argument.text p.1, p.2)) hread

theorem isElement_bytes (data : Bytes) : IsElement ')' argument (byteChars data) (.bytes data) where
  front := ⟨'b', _, rfl, by decide⟩
  reads := by
    intro mark rest hmark
    have hne : mark ≠ single := by rcases hmark with rfl | rfl <;> decide
    have hread := @readBytes_byteChars data (mark :: rest) fun _ => by simp [hne]
    rw [argument, hread]
    rfl

theorem isElement_dict (pairs : List (String × String)) :
    IsElement ')' argument (dict pairs).toList
      (.dict (pairs.map fun pair => (pair.1.toList, pair.2.toList))) where
  front := ⟨'{', _, by rw [dict, String.toList_ofList, List.cons_append], by decide⟩
  reads := by
    intro mark rest _
    have hread := readDict_dict pairs (mark :: rest)
    have hhead : ((dict pairs).toList ++ mark :: rest).head? = some '{' := by
      rw [dict, String.toList_ofList]
      rfl
    rw [argument, hhead]
    simp only [hread]
    rfl

theorem isElement_template {inner : List Char} {ps : List Piece}
    (h : Reads (pieces double) inner ps) (hhead : inner.head? ≠ some double) (hne : inner ≠ []) :
    IsElement ')' argument ('f' :: double :: (inner ++ [double])) (.template ps) where
  front := ⟨'f', _, rfl, by decide⟩
  reads := by
    intro mark rest _
    have hread := readTemplate_of_reads h hhead hne (mark :: rest)
    rw [List.cons_append, List.cons_append, List.append_assoc, List.singleton_append, argument]
    simp only [List.head?_cons, hread]
    rfl

/-- An argument with its name. -/
theorem isElement_named {a : Argument} (h : IsElement ')' argument cs a) (hkey : IsName key) :
    IsElement ')' namedArgument (key ++ '=' :: cs) (some key, a) where
  front := by
    rcases key with _ | ⟨first, key⟩
    · exact absurd rfl hkey.ne_nil
    · have hfirst := hkey.chars first List.mem_cons_self
      refine ⟨first, _, rfl, ?_⟩
      constructor <;> rintro rfl <;> cases hfirst
  reads := by
    intro mark rest hmark
    obtain ⟨first, more, hfront, hspace, -⟩ := h.front
    have hskip : skipSpaces (cs ++ mark :: rest) = cs ++ mark :: rest := by
      rw [hfront]
      exact skipSpaces_of_ne hspace _
    have hkeyword : keyword? (key ++ '=' :: cs ++ mark :: rest) =
        some (key, cs ++ mark :: rest) := by
      rw [List.append_assoc, List.cons_append, keyword?,
        name_of_isName hkey (by decide)]
      simp only [Option.bind_eq_bind, Option.bind_some, behind?_self (show '=' ≠ ' ' by decide),
        hskip]
      rfl
    rw [namedArgument, hkeyword]
    simp only [h.reads mark rest hmark]
    rfl

/-- An argument by position. -/
theorem isElement_positional {a : Argument} (h : IsElement ')' argument cs a)
    (hnot : ∀ rest, keyword? (cs ++ rest) = none) : IsElement ')' namedArgument cs (none, a) where
  front := h.front
  reads := by
    intro mark rest hmark
    rw [namedArgument, hnot]
    simp only [h.reads mark rest hmark]
    rfl

theorem keyword?_textChars (cs rest : List Char) : keyword? (textChars cs ++ rest) = none := by
  obtain ⟨quote, more, hquote, hq⟩ := exists_quote_of_textChars cs
  rw [hquote]
  rcases hq with rfl | rfl <;> rfl

/-- The letter of a formatted string is no name of an argument. -/
theorem keyword?_template (cs rest : List Char) :
    keyword? ('f' :: double :: cs ++ rest) = none := by
  have hname := @name_of_isName double ['f'] (by decide) (by decide) (cs ++ rest)
  rw [List.cons_append, List.cons_append, keyword?]
  rw [List.singleton_append] at hname
  simp only [hname, Option.bind_eq_bind, Option.bind_some,
    behind?_of_ne (show double ≠ ' ' by decide) (show double ≠ '=' by decide), Option.bind_none]

/-! ### Calls -/

namespace Call

theorem divide_keywords (keywords : List (List Char × Argument)) :
    divide (keywords.map fun (key, a) => (some key, a)) = some ([], keywords) := by
  induction keywords with
  | nil => rfl
  | cons keyword keywords ih =>
    rw [List.map_cons, divide, ih]

theorem divide_append (positional : List Argument) (keywords : List (List Char × Argument)) :
    divide (positional.map (none, ·) ++ keywords.map fun (key, a) => (some key, a)) =
      some (positional, keywords) := by
  induction positional with
  | nil => exact divide_keywords keywords
  | cons a positional ih =>
    rw [List.map_cons, List.cons_append, divide, ih]
    rfl

/-- What every line begins with: the name of the result, and the session. -/
def front : List Char := "r = s.".toList

/-- **A line is read** by its function and its arguments. -/
theorem ofLine?_of_items {function : List Char} {positional : List (List Char × Argument)}
    {keywords : List (List Char × List Char × Argument)} (hf : IsName function)
    (hp : ∀ item ∈ positional, IsElement ')' namedArgument item.1 (none, item.2))
    (hk : ∀ item ∈ keywords, IsElement ')' namedArgument item.1 (some item.2.1, item.2.2)) :
    ofLine? (front ++ function ++
        '(' :: (separated (positional.map (·.1) ++ keywords.map (·.1)) ++ [')'])) =
      some ⟨['r'], ['s'], function, positional.map (·.2), keywords.map (·.2)⟩ := by
  obtain ⟨items, hdef⟩ : ∃ items : List (List Char × Option (List Char) × Argument),
      items = positional.map (fun item => (item.1, none, item.2)) ++
        keywords.map fun item => (item.1, some item.2.1, item.2.2) := ⟨_, rfl⟩
  have hitems : ∀ item ∈ items, IsElement ')' namedArgument item.1 item.2 := by
    intro item hitem
    rw [hdef] at hitem
    rcases List.mem_append.mp hitem with hitem | hitem
    · obtain ⟨i, hi, rfl⟩ := List.mem_map.mp hitem
      exact hp i hi
    · obtain ⟨i, hi, rfl⟩ := List.mem_map.mp hitem
      exact hk i hi
  have hchars : positional.map (·.1) ++ keywords.map (·.1) = items.map (·.1) := by
    rw [hdef, List.map_append, List.map_map, List.map_map]
    rfl
  have hvalues : items.map (·.2) = (positional.map (·.2)).map (none, ·) ++
      (keywords.map (·.2)).map fun (key, a) => (some key, a) := by
    rw [hdef, List.map_append, List.map_map, List.map_map, List.map_map, List.map_map]
    rfl
  have hlen := length_le_length_separated hitems
  have helements : elements ')' namedArgument ((separated (items.map (·.1)) ++ [')']).length + 1)
      (separated (items.map (·.1)) ++ [')']) = some (items.map (·.2), []) := by
    refine elements_separated (by decide) (by decide) hitems [] ?_
    rw [List.length_append]
    omega
  rw [hchars]
  generalize separated (items.map (·.1)) ++ [')'] = arguments at *
  have hline : front ++ function ++ '(' :: arguments =
      ['r'] ++ ' ' :: '=' :: ' ' :: (['s'] ++ '.' :: (function ++ '(' :: arguments)) := by
    rw [show front = ['r', ' ', '=', ' ', 's', '.'] by decide]
    simp
  -- Each name ends at the mark behind it.
  have hresult := @name_of_isName ' ' ['r'] (by decide) (by decide)
    ('=' :: ' ' :: (['s'] ++ '.' :: (function ++ '(' :: arguments)))
  have hequals : behind? '='
      (' ' :: '=' :: ' ' :: (['s'] ++ '.' :: (function ++ '(' :: arguments))) =
        some (' ' :: (['s'] ++ '.' :: (function ++ '(' :: arguments))) := rfl
  have hspace : skipSpaces (' ' :: (['s'] ++ '.' :: (function ++ '(' :: arguments))) =
      ['s'] ++ '.' :: (function ++ '(' :: arguments) := rfl
  have hobject := @name_of_isName '.' ['s'] (by decide) (by decide) (function ++ '(' :: arguments)
  have hfunction := name_of_isName hf (show isNameChar '(' = false by decide) arguments
  rw [hline, ofLine?]
  simp only [hresult, hequals, hspace, hobject, hfunction, helements, hvalues, divide_append,
    behind?_self (show '.' ≠ ' ' by decide), behind?_self (show '(' ≠ ' ' by decide),
    Option.bind_eq_bind, Option.bind_some]
  rfl

end Call

end HttpReplay.Script

namespace HttpReplay

open Script Literal

/-! ### Methods -/

namespace CallForm

/-- The function that is called. -/
def function : CallForm → List Char
  | shorthand name => name.toList
  | generic _ => "request".toList

/-- The arguments in front of the URL, as they are written. -/
def arguments : CallForm → List (List Char × Argument)
  | shorthand _ => []
  | generic method => [(textChars method.toList, .text method.toList)]

theorem isPlain_of_mem_shorthands : ∀ name ∈ shorthands, ∀ c ∈ name.toList,
    c.toNat < 128 ∧ c ≠ 'i' ∧ c ≠ 'k' ∧ c.toNat ≠ 0 := by
  decide

theorem isName_of_mem_shorthands : ∀ name ∈ shorthands, IsName name.toList := by
  decide

/-- **The form of a call**: a function of its own for the methods that differ from its name in the
case of letters of ASCII, and the general one for all others. -/
theorem ofMethod_cases (method : String) :
    (∃ name ∈ shorthands, method.toList.map Text.lower = name.toList ∧
      ofMethod method = .shorthand name) ∨
    method.toList.map Text.lower ∉ shorthands.map String.toList ∧
      ofMethod method = .generic method := by
  -- The names of the functions are plain, so lower case in all of Unicode comes to the same.
  have hiff : ∀ name ∈ shorthands, Text.lowercase method.toList = name.toList ↔
      method.toList.map Text.lower = name.toList :=
    fun name hname => Text.lowercase_eq_iff (isPlain_of_mem_shorthands name hname)
  rw [ofMethod]
  split
  · rename_i name hfind
    have hmem := List.mem_of_find?_eq_some hfind
    have heq := List.find?_some hfind
    rw [beq_iff_eq] at heq
    exact Or.inl ⟨name, hmem, (hiff name hmem).mp heq.symm, rfl⟩
  · rename_i hfind
    refine Or.inr ⟨fun hmem => ?_, rfl⟩
    obtain ⟨name, hname, heq⟩ := List.mem_map.mp hmem
    have hne := List.find?_eq_none.mp hfind name hname
    exact hne (beq_iff_eq.mpr ((hiff name hname).mpr heq.symm).symm)

end CallForm

/-! ### URLs -/

namespace HostTemplate

/-- The pieces of the host part: the address is a field, and all else are characters. -/
def hostPieces (t : HostTemplate) : List Piece :=
  (match t.kind with
    | .plain => [.field ['I', 'P']]
    | .ipv6 => .char '[' :: .field ['I', 'P'] :: [.char ']']) ++
  (if t.showsPort then ':' :: Numeral.decimal t.port else []).map .char

theorem reads_around (t : HostTemplate) :
    Reads (pieces double) (t.around placeholder) t.hostPieces := by
  have hfield : Reads (pieces double) placeholder [.field ['I', 'P']] :=
    @reads_field ['I', 'P'] (by decide) (by decide)
  have hport : ∀ c ∈ (if t.showsPort then ':' :: Numeral.decimal t.port else []), IsPlain c := by
    intro c hc
    split at hc
    · rcases List.mem_cons.mp hc with rfl | hc
      · decide
      · obtain ⟨d, hd, rfl⟩ := Numeral.exists_of_mem_toDigits (by decide) hc
        have hall : ∀ d < 10, IsPlain (Nat.digitChar d) := by decide
        exact hall d hd
    · cases hc
  rw [around, hostPieces]
  refine Reads.append ?_ (reads_plain hport)
  cases t.kind with
  | plain => exact hfield
  | ipv6 =>
    exact ((@reads_plain ['['] (by decide)).append hfield).append (@reads_plain [']'] (by decide))

/-- **The host part stands for itself** around the address. -/
theorem fill_hostPieces (t : HostTemplate) (names : List Char → List Char) :
    fill names t.hostPieces = t.around (names ['I', 'P']) := by
  rw [hostPieces, fill_append, fill_map_char, around]
  cases t.kind <;> simp [fill]

end HostTemplate

/-! ### Lines -/

namespace Request

/-- What every URL begins with. -/
def scheme : List Char := "http://".toList

/-- The URL between its quotes. -/
def urlInner (r : Request) (host : HostTemplate) : List Char :=
  scheme ++ host.around HostTemplate.placeholder ++ r.path.toList.flatMap templateChar

/-- The URL as an argument, as it is written. -/
def urlArgument (r : Request) (host : HostTemplate) : List Char × Argument :=
  ('f' :: double :: (r.urlInner host ++ [double]),
    .template (scheme.map .char ++ host.hostPieces ++ r.path.toList.map .char))

/-- The arguments by name, as they are written. -/
def keywordArguments (r : Request) : List (List Char × List Char × Argument) :=
  (if r.headers.isEmpty then []
    else [("headers".toList ++ '=' :: (dict r.headers.entries).toList, "headers".toList,
      .dict (r.headers.entries.map fun pair => (pair.1.toList, pair.2.toList)))]) ++
  (if r.body.isEmpty then []
    else [("data".toList ++ '=' :: byteChars r.body, "data".toList, .bytes r.body)])

/-- The arguments by position, as they are written. -/
def positionalArguments (r : Request) (host : HostTemplate) : List (List Char × Argument) :=
  (CallForm.ofMethod r.method).arguments ++ [r.urlArgument host]

/-- The line of a request without its end. -/
def line (r : Request) (host : HostTemplate) : List Char :=
  Call.front ++ (CallForm.ofMethod r.method).function ++
    '(' :: (separated ((r.positionalArguments host).map (·.1) ++ r.keywordArguments.map (·.1)) ++
      [')'])

theorem separated_cons (cs : List Char) (more : List (List Char)) :
    separated (cs :: more) = cs ++ more.flatMap fun ds => ',' :: ' ' :: ds := by
  induction more generalizing cs with
  | nil => simp [separated]
  | cons ds more ih =>
    change cs ++ ',' :: ' ' :: separated (ds :: more) = _
    rw [ih, List.flatMap_cons]
    rfl

theorem toList_opening_shorthand (name : String) :
    (opening (.shorthand name)).toList = Call.front ++ name.toList ++ ['('] := by
  change ("r = " ++ "s" ++ "." ++ name ++ "(").toList = _
  rw [String.toList_append, String.toList_append, String.toList_append, String.toList_append]
  rfl

theorem toList_opening_generic (method : String) :
    (opening (.generic method)).toList =
      Call.front ++ "request".toList ++ '(' :: (textChars method.toList ++ [',', ' ']) := by
  have htext : (text method).toList = textChars method.toList := String.toList_ofList
  change ("r = " ++ "s" ++ ".request(" ++ text method ++ ", ").toList = _
  rw [String.toList_append, String.toList_append, String.toList_append, String.toList_append, htext]
  generalize textChars method.toList = written
  rfl

theorem toList_url (r : Request) (host : HostTemplate) :
    (url r.path host).toList = (r.urlArgument host).1 := by
  have hhost : host.render.toList = host.around HostTemplate.placeholder := String.toList_ofList
  have hpath : (template r.path).toList = r.path.toList.flatMap templateChar := String.toList_ofList
  have hparts : (url r.path host).toList = 'f' :: double :: scheme ++
      host.around HostTemplate.placeholder ++ r.path.toList.flatMap templateChar ++ [double] := by
    rw [← hhost, ← hpath, url, String.toList_append, String.toList_append, String.toList_append]
    rfl
  refine hparts.trans ?_
  rw [urlArgument, urlInner]
  rfl

theorem toList_keywords (r : Request) :
    (headerArgument r.headers).toList ++ (bodyArgument r.body).toList =
      (r.keywordArguments.map (·.1)).flatMap fun ds => ',' :: ' ' :: ds := by
  rw [headerArgument, bodyArgument, keywordArguments]
  split <;> split <;> simp [bytes]

/-- **What is written for a request** is its line and the end of it. -/
theorem toList_render (r : Request) (host : HostTemplate) :
    (r.render host).toList = r.line host ++ ['\n'] := by
  have hparts : (r.render host).toList = (opening (CallForm.ofMethod r.method)).toList ++
      (r.urlArgument host).1 ++
        ((r.keywordArguments.map (·.1)).flatMap fun ds => ',' :: ' ' :: ds) ++ [')', '\n'] := by
    rw [render, String.toList_append, String.toList_append, String.toList_append,
      String.toList_append, toList_url, List.append_assoc _ (headerArgument _).toList,
      toList_keywords]
    rfl
  refine hparts.trans ?_
  -- Only the general function has an argument in front of the URL.
  unfold line positionalArguments
  cases CallForm.ofMethod r.method with
  | shorthand name =>
    have hopening := toList_opening_shorthand name
    unfold CallForm.function CallForm.arguments
    simp [hopening, separated_cons]
  | generic method =>
    have hopening := toList_opening_generic method
    unfold CallForm.function CallForm.arguments
    generalize "request".toList = function at *
    simp [hopening, separated_cons]

/-- **The URL between its quotes is read**: the address is a field, and all else are characters. -/
theorem reads_urlInner (r : Request) (host : HostTemplate) :
    Reads (pieces double) (r.urlInner host)
      (scheme.map .char ++ host.hostPieces ++ r.path.toList.map .char) := by
  have hscheme : Reads (pieces double) scheme (scheme.map .char) := reads_plain (by decide)
  exact (hscheme.append host.reads_around).append (reads_template r.path.toList)

theorem head?_urlInner (r : Request) (host : HostTemplate) :
    (r.urlInner host).head? = some 'h' :=
  rfl

theorem urlInner_ne_nil (r : Request) (host : HostTemplate) : r.urlInner host ≠ [] :=
  List.cons_ne_nil _ _

theorem isElement_urlArgument (r : Request) (host : HostTemplate) :
    IsElement ')' namedArgument (r.urlArgument host).1 (none, (r.urlArgument host).2) := by
  refine isElement_positional ?_ (keyword?_template _)
  refine isElement_template (r.reads_urlInner host) ?_ (r.urlInner_ne_nil host)
  rw [head?_urlInner]
  decide

theorem isElement_of_mem_positional {r : Request} {host : HostTemplate} :
    ∀ item ∈ r.positionalArguments host, IsElement ')' namedArgument item.1 (none, item.2) := by
  intro item hitem
  rcases List.mem_append.mp hitem with hitem | hitem
  · cases hform : CallForm.ofMethod r.method with
    | shorthand name =>
      rw [hform] at hitem
      cases hitem
    | generic method =>
      rw [hform] at hitem
      rw [List.mem_singleton.mp hitem]
      exact isElement_positional (isElement_text _) (keyword?_textChars _)
  · rw [List.mem_singleton.mp hitem]
    exact r.isElement_urlArgument host

theorem isElement_of_mem_keywords {r : Request} :
    ∀ item ∈ r.keywordArguments, IsElement ')' namedArgument item.1 (some item.2.1, item.2.2) := by
  intro item hitem
  rcases List.mem_append.mp hitem with hitem | hitem
  · split at hitem
    · cases hitem
    · rw [List.mem_singleton.mp hitem]
      exact isElement_named (isElement_dict _) (by decide)
  · split at hitem
    · cases hitem
    · rw [List.mem_singleton.mp hitem]
      exact isElement_named (isElement_bytes _) (by decide)

theorem isName_function (r : Request) : IsName (CallForm.ofMethod r.method).function := by
  rcases CallForm.ofMethod_cases r.method with ⟨name, hname, -, hform⟩ | ⟨-, hform⟩
  · rw [hform]
    exact CallForm.isName_of_mem_shorthands name hname
  · rw [hform]
    exact (by decide : IsName "request".toList)

/-- **The line of a request is read** as a call. -/
theorem ofLine?_line (r : Request) (host : HostTemplate) :
    Call.ofLine? (r.line host) =
      some ⟨['r'], ['s'], (CallForm.ofMethod r.method).function,
        (r.positionalArguments host).map (·.2), r.keywordArguments.map (·.2)⟩ :=
  Call.ofLine?_of_items r.isName_function isElement_of_mem_positional isElement_of_mem_keywords

/-! ### What a call makes -/

/-- Does a method differ from the name of a function in the case of letters of ASCII only? -/
def hasFunction (method : String) : Bool :=
  (CallForm.shorthands.map String.toList).contains (method.toList.map Text.lower)

/-- **The URL of a request** that is made to an address: the address stands in brackets if the
recorded host holds a colon, and the port is there unless it is 80. -/
def urlAt (m : Metadata) (address : List Char) (r : Request) : List Char :=
  scheme ++
    (if ':' ∈ m.serverHost.toList then '[' :: address ++ [']'] else address) ++
    (if m.serverPort = 80 then [] else ':' :: Numeral.decimal m.serverPort) ++ r.path.toList

/-- **The call that makes a request**: the function of the session for its method, or else the
general one with the method, on the URL, with the header fields and the body where there are
any. -/
def madeAt (m : Metadata) (address : List Char) (r : Request) : Made where
  object := "s".toList
  function := if hasFunction r.method then r.method.toList.map Text.lower else "request".toList
  positional :=
    (if hasFunction r.method then [] else [.text r.method.toList]) ++ [.text (r.urlAt m address)]
  keywords :=
    (if r.headers.entries = [] then [] else [("headers".toList, .dict r.headers)]) ++
      (if r.body = [] then [] else [("data".toList, .bytes r.body)])

/-- **The fields of the URL filled in** give the URL. -/
theorem fill_url (m : Metadata) (r : Request) (names : List Char → List Char) :
    fill names (scheme.map .char ++
        (HostTemplate.ofHost m.serverHost m.serverPort).hostPieces ++ r.path.toList.map .char) =
      r.urlAt m (names ['I', 'P']) := by
  have hhost : (HostTemplate.ofHost m.serverHost m.serverPort).around (names ['I', 'P']) =
      (if ':' ∈ m.serverHost.toList then '[' :: names ['I', 'P'] ++ [']'] else names ['I', 'P']) ++
        if m.serverPort = 80 then [] else ':' :: Numeral.decimal m.serverPort := by
    by_cases hcolon : ':' ∈ m.serverHost.toList <;> by_cases hport : m.serverPort = 80 <;>
      simp [HostTemplate.around, HostTemplate.ofHost, HostKind.ofHost, HostTemplate.showsPort,
        HostTemplate.defaultPort, hcolon, hport]
  rw [fill_append, fill_append, fill_map_char, fill_map_char, HostTemplate.fill_hostPieces, hhost,
    ← List.append_assoc, urlAt]

/-- The function and the arguments in front of the URL are those of the method. -/
theorem function_and_arguments (method : String) :
    (CallForm.ofMethod method).function =
        (if hasFunction method then method.toList.map Text.lower else "request".toList) ∧
      (CallForm.ofMethod method).arguments.map (·.2) =
        if hasFunction method then [] else [.text method.toList] := by
  rcases CallForm.ofMethod_cases method with ⟨name, hname, heq, hform⟩ | ⟨hnot, hform⟩
  · have hhas : hasFunction method = true := by
      rw [hasFunction, List.contains_iff_mem, heq]
      exact List.mem_map_of_mem hname
    rw [hform, hhas, heq]
    exact ⟨rfl, rfl⟩
  · have hhas : hasFunction method = false := by
      rw [hasFunction, List.contains_eq_mem, decide_eq_false hnot]
    rw [hform, hhas]
    exact ⟨rfl, rfl⟩

/-- The arguments by name stand for the header fields, where every name is there once, and for the
body. -/
theorem values_keywordArguments {r : Request} (hn : r.headers.names.Nodup)
    (names : List Char → List Char) :
    (r.keywordArguments.map (·.2)).map (fun (key, a) => (key, a.value names)) =
      (if r.headers.entries = [] then [] else [("headers".toList, .dict r.headers)]) ++
        if r.body = [] then [] else [("data".toList, .bytes r.body)] := by
  have hpairs : (r.headers.entries.map fun pair => (pair.1.toList, pair.2.toList)).map
      (fun entry => (String.ofList entry.1, String.ofList entry.2)) = r.headers.entries := by
    rw [List.map_map]
    refine (List.map_congr_left fun pair _ => ?_).trans r.headers.entries.map_id
    simp
  have hdict := Headers.ofList_of_nodup hn
  rw [keywordArguments, List.map_append, List.map_append]
  -- Either argument is there or not.
  by_cases hh : r.headers.entries = [] <;> by_cases hb : r.body = [] <;>
    simp [Headers.isEmpty, hh, hb, Argument.value, hpairs, hdict]

/-- **The line of a request makes the request**, whatever the names stand for. -/
theorem made_line (m : Metadata) {r : Request} (hn : r.headers.names.Nodup) :
    ∃ call, Call.ofLine? (r.line (HostTemplate.ofHost m.serverHost m.serverPort)) = some call ∧
      ∀ names, call.made names = r.madeAt m (names ['I', 'P']) := by
  refine ⟨_, r.ofLine?_line _, fun names => ?_⟩
  obtain ⟨hfunction, harguments⟩ := function_and_arguments r.method
  have hurl : (r.urlArgument (HostTemplate.ofHost m.serverHost m.serverPort)).2.value names =
      .text (r.urlAt m (names ['I', 'P'])) := congrArg Value.text (fill_url m r names)
  have hpositional : ((r.positionalArguments
      (HostTemplate.ofHost m.serverHost m.serverPort)).map (·.2)).map (Argument.value names) =
        (if hasFunction r.method then [] else [.text r.method.toList]) ++
          [.text (r.urlAt m (names ['I', 'P']))] := by
    rw [positionalArguments, List.map_append, List.map_append, harguments, List.map_singleton,
      List.map_singleton, hurl]
    split <;> rfl
  rw [Call.made, madeAt, hfunction, hpositional, values_keywordArguments hn]
  rfl

end Request

end HttpReplay
