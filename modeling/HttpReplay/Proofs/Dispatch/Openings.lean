import HttpReplay.Proofs.Dispatch.Conversation
import HttpReplay.Proofs.Dispatch.Truncation
import HttpReplay.Proofs.Http.FirstLines
import HttpReplay.Proofs.Http.Tails

/-!
# How the bytes of a client begin

What a run dispatches is decided by the client's bytes (`HttpReplay.Http.dispatches`), so two
streams can be compared by comparing how their bytes begin.

Two streams whose first requests begin with the same line agree in what the line says, but for one
thing: bytes beyond ASCII in the target are taken for UTF-8 where the strict rules read the head,
and one by one where only the lenient rules do. So what comes behind the line shows in the path
(`HttpReplay.Http.words_of_firstLine`).

Empty lines in front of a request change nothing if the strict rules read its head. If only the
lenient rules do, nothing is dispatched any more: they take the empty line for the first line of the
head, and refuse it (`HttpReplay.Http.dispatches_behind_emptyLines`).
-/

namespace HttpReplay.Http

open Event Scan

/-! ### The requests that a stream dispatches -/

/-- **A stream dispatches requests**: those that its run takes are the first of them, all of them
unless the server switches the protocol, and each is taken once its last byte is there. -/
structure Dispatches (stream : Stream) (requests : List (Taken Request)) : Prop where
  taken : requestsIn (dispatch stream).events <+: requests
  all : (dispatch stream).events.any switches = false →
    requestsIn (dispatch stream).events = requests
  early : ∀ n k t, n ≤ stream.chunks.length →
    (stage stream n).events.any switches = false → requests[k]? = some t → ¬ t.IsCut →
    (wireOfFirst (k + 1) requests).length ≤ (stream.bytesBefore .clientToServer n).length →
    (requestsIn (stage stream n).events)[k]? = some t

/-- **A stream dispatches the requests in its client's bytes.** -/
theorem dispatches (stream : Stream) :
    Dispatches stream (requestsOf (stream.bytes .clientToServer)) where
  taken := (reached_dispatch stream).inStep.taken
  all := requestsIn_of_not_switches
  early := by
    intro n k t hn hno hk hcut hend
    have hi := (reached_stage hn).inStep
    cases hg : (stage stream n).client.gaveUp with
    | true =>
      -- The direction was given up, so there are no other requests.
      rw [(hi.stopped hg).resolve_right (by simp [hno])]
      exact hk
    | false =>
      have hwaits := (isClientSettled_stage hn).resolve_left (by simp [hg])
      exact getElem?_requestsIn hi.taken hk (lt_of_waits hn hg hwaits hk hcut hend)

theorem dispatches_of_bytes {stream : Stream} {bytes : Bytes}
    (h : stream.bytes .clientToServer = bytes) : Dispatches stream (requestsOf bytes) :=
  h ▸ dispatches stream

/-- The first request that a run takes is the first one in the client's bytes. -/
theorem exists_requestsOf_of_head? {stream : Stream} {bytes : Bytes} {t : Taken Request}
    (hb : stream.bytes .clientToServer = bytes)
    (h : (requestsIn (dispatch stream).events).head? = some t) :
    ∃ more, requestsOf bytes = t :: more := by
  obtain ⟨later, hlater⟩ := (dispatches_of_bytes hb).taken
  obtain ⟨first, hfirst⟩ := List.head?_eq_some_iff.mp h
  exact ⟨first ++ later, by rw [← hlater, hfirst, List.cons_append]⟩

/-! ### Heads in place of others -/

section Heads

variable {head other rest : Bytes} {parsed : RequestHead} {t : Taken Request}
  {more : List (Taken Request)}

/-- **A head and the body that it announces** are the first request. -/
theorem requestsOf_of_head_body {framing : Framing} {body decoded : Bytes}
    (h : anyRequestHead (head ++ (body ++ rest)) = .done parsed (body ++ rest))
    (hf : requestFraming? parsed.fields = some framing)
    (hb : readBody framing true (body ++ rest) = .complete body.length decoded) :
    requestsOf (head ++ (body ++ rest)) =
      ⟨head, body, parsed.withBody decoded⟩ :: requestsOf rest := by
  have hp : parseRequest true (head ++ (body ++ rest)) =
      .complete head.length body.length (parsed.withBody decoded) := by
    rw [parseRequest_eq, parseBy_of_done h, List.length_append, Nat.add_sub_cancel]
    exact parseBody_eq_complete.mpr ⟨framing, decoded, hf, hb, rfl, rfl⟩
  have hne : head ++ (body ++ rest) ≠ [] := by
    intro hnil
    rw [hnil, parseRequest_nil] at hp
    cases hp
  rw [requestsOf_of_complete hne hp, ← List.drop_drop]
  simp only [List.take_left, List.drop_left]

/-- **A head in place of another one** that says the same makes no difference to the bytes behind
it. -/
theorem requestsOf_of_head (h : anyRequestHead (head ++ rest) = .done parsed rest)
    (hother : anyRequestHead (other ++ rest) = .done parsed rest)
    (ht : requestsOf (head ++ rest) = t :: more) :
    t.head = head ∧ requestsOf (other ++ rest) = { t with head := other } :: more := by
  obtain ⟨n, b, m, hp, -, -, -, -, -⟩ := exists_of_requestsOf_cons ht
  rw [parseRequest_eq, parseBy_of_done h] at hp
  obtain ⟨f, decoded, hf, hb, -, -⟩ := parseBody_eq_complete.mp hp
  -- The body of the request is the body that either head asks for.
  have hlen : (rest.take b).length = b :=
    List.length_take_of_le (length_le_of_readBody hb)
  rw [← List.take_append_drop b rest] at h hother ht ⊢
  have hb' : readBody f true (rest.take b ++ rest.drop b) =
      .complete (rest.take b).length decoded := by
    rw [List.take_append_drop, hlen, hb]
  rw [requestsOf_of_head_body h hf hb'] at ht
  cases ht
  exact ⟨rfl, requestsOf_of_head_body hother hf hb'⟩

/-- The head of the first request. -/
theorem exists_head_of_requestsOf {bytes : Bytes} (ht : requestsOf bytes = t :: more) :
    ∃ parsed rest decoded, anyRequestHead bytes = .done parsed rest ∧
      t.message = parsed.withBody decoded := by
  obtain ⟨n, b, m, hp, -, rfl, -, -, -⟩ := exists_of_requestsOf_cons ht
  rw [parseRequest_eq] at hp
  obtain ⟨parsed, rest, f, decoded, hd, -, -, -, rfl⟩ := parseBy_eq_complete.mp hp
  exact ⟨parsed, rest, decoded, hd, rfl⟩

end Heads

/-! ### Streams with the same first line -/

/-- What the first line of a stream says is what its first request has. -/
theorem words_of_requestsOf {bytes line rest : Bytes} {t : Taken Request}
    {more : List (Taken Request)} (hline : Lenient.line? bytes = some (line, rest))
    (hne : line ≠ []) (ht : requestsOf bytes = t :: more) :
    ∃ method target, Lenient.requestLine? line = some (method, target, t.message.version) ∧
      t.message.method = Bytes.latin1 method ∧
      pathOf (readsStrictly bytes) target = some t.message.path := by
  obtain ⟨parsed, left, decoded, hd, hm⟩ := exists_head_of_requestsOf ht
  rw [hm]
  exact words_of_anyRequestHead hline hne hd

/-- The paths that one target stands for by two readings. -/
theorem pathOf_eq_iff {strict strict' : Bool} {target : Bytes} {path path' : String}
    (h : pathOf strict target = some path) (h' : pathOf strict' target = some path') :
    path = path' ↔ strict = strict' ∨ ∀ b ∈ target, b < 128 := by
  have hascii : Bytes.text? target = some (Bytes.latin1 target) ↔ ∀ b ∈ target, b < 128 :=
    Bytes.text?_eq_latin1_iff
  cases strict <;> cases strict' <;>
    simp only [pathOf, if_true, Bool.false_eq_true, if_false, Option.some.injEq] at h h'
  · simp [← h, ← h']
  · rw [← hascii, h', h, Option.some.injEq]
    simp [eq_comm]
  · rw [← hascii, h, h', Option.some.injEq]
    simp
  · simp [Option.some.inj (h.symm.trans h')]

/-- **What the first line decides.** Let the client's bytes of two streams begin with the same first
line, which is not empty, and let a request be dispatched in both. The first requests then have the
same method and the same version, and their paths stand for the same target: its text in UTF-8 if
the strict rules read the head, and byte for byte if only the lenient rules do. So the paths are the
same exactly if both heads are read by the same rules or the target is ASCII. -/
theorem words_of_firstLine {stream other : Stream} {line rest rest' : Bytes}
    {t t' : Taken Request} (hlf : Byte.lf ∉ line) (hne : Lenient.dropCr line ≠ [])
    (hb : stream.bytes .clientToServer = line ++ Byte.lf :: rest)
    (hb' : other.bytes .clientToServer = line ++ Byte.lf :: rest')
    (ht : (requestsIn (dispatch stream).events).head? = some t)
    (ht' : (requestsIn (dispatch other).events).head? = some t') :
    t.message.method = t'.message.method ∧ t.message.version = t'.message.version ∧
    ∃ method target,
      Lenient.requestLine? (Lenient.dropCr line) = some (method, target, t.message.version) ∧
      pathOf (readsStrictly (line ++ Byte.lf :: rest)) target = some t.message.path ∧
      pathOf (readsStrictly (line ++ Byte.lf :: rest')) target = some t'.message.path ∧
      (t.message.path = t'.message.path ↔
        readsStrictly (line ++ Byte.lf :: rest) = readsStrictly (line ++ Byte.lf :: rest') ∨
          ∀ b ∈ target, b < 128) := by
  have hline : ∀ r : Bytes, Lenient.line? (line ++ Byte.lf :: r) =
      some (Lenient.dropCr line, r) := fun r => Lenient.line?_eq_some.mpr ⟨line, rfl, hlf, rfl⟩
  obtain ⟨more, hall⟩ := exists_requestsOf_of_head? hb ht
  obtain ⟨more', hall'⟩ := exists_requestsOf_of_head? hb' ht'
  obtain ⟨method, target, hwords, hmethod, hpath⟩ := words_of_requestsOf (hline rest) hne hall
  obtain ⟨method', target', hwords', hmethod', hpath'⟩ :=
    words_of_requestsOf (hline rest') hne hall'
  -- Both streams read the same words.
  have hsame := Option.some.inj (hwords.symm.trans hwords')
  simp only [Prod.mk.injEq] at hsame
  obtain ⟨rfl, rfl, hversion⟩ := hsame
  exact ⟨hmethod.trans hmethod'.symm, hversion, method, target, hwords, hpath, hpath',
    pathOf_eq_iff hpath hpath'⟩

/-- A request for a path with one field, whose value has a gap between two words. -/
def spaced (path gap : String) : String :=
  "GET " ++ path ++ " HTTP/1.1\r\nX: a" ++ gap ++ "b\r\n\r\n"

theorem words_of_spaced :
    ∃ t t', (requestsIn (dispatch (unanswered [spaced "/x" " "])).events).head? = some t ∧
      (requestsIn (dispatch (unanswered [spaced "/x" "\r\n "])).events).head? = some t' ∧
      t.message.method = t'.message.method ∧ t.message.version = t'.message.version ∧
      t.message.path = t'.message.path := by
  have hsome : ∀ gap ∈ [" ", "\r\n "],
      (requestsIn (dispatch (unanswered [spaced "/x" gap])).events).head?.isSome := by
    decide +kernel
  obtain ⟨t, ht⟩ := Option.isSome_iff_exists.mp (hsome " " (by decide))
  obtain ⟨t', ht'⟩ := Option.isSome_iff_exists.mp (hsome "\r\n " (by decide))
  obtain ⟨hmethod, hversion, method, target, hwords, -, -, hpath⟩ :=
    @words_of_firstLine (unanswered [spaced "/x" " "]) (unanswered [spaced "/x" "\r\n "])
      (Bytes.ascii "GET /x HTTP/1.1\r") (Bytes.ascii "X: a b\r\n\r\n")
      (Bytes.ascii "X: a\r\n b\r\n\r\n") t t' (by decide) (by decide) (by decide +kernel)
      (by decide +kernel) ht ht'
  -- The target is ASCII, so it does not matter that one head is folded.
  have hline : Lenient.requestLine? (Lenient.dropCr (Bytes.ascii "GET /x HTTP/1.1\r")) =
      some (Bytes.ascii "GET", Bytes.ascii "/x", 1) := by decide
  have htarget : Bytes.ascii "/x" = target :=
    congrArg (·.2.1) (Option.some.inj (hline.symm.trans hwords))
  exact ⟨t, t', ht, ht', hmethod, hversion,
    hpath.mpr (Or.inr (htarget ▸ show ∀ b ∈ Bytes.ascii "/x", b < 128 by decide +kernel))⟩

/-- **One target, two paths**: the two streams begin with the same line, and still the paths of
their requests differ. -/
theorem paths_of_spaced :
    let plain := unanswered [spaced "/\u00c3\u00a9" " "]
    let folded := unanswered [spaced "/\u00c3\u00a9" "\r\n "]
    let line := Bytes.ascii "GET /\u00c3\u00a9 HTTP/1.1\r\n"
    line <+: plain.bytes .clientToServer ∧ line <+: folded.bytes .clientToServer ∧
      (requestsIn (dispatch plain).events).map (·.message.path) = ["/\u00e9"] ∧
      (requestsIn (dispatch folded).events).map (·.message.path) = ["/\u00c3\u00a9"] := by
  decide +kernel

/-! ### Empty lines in front -/

/-- So many empty lines. -/
def emptyLinesOf (n : Nat) : Bytes := (List.replicate n [Byte.cr, Byte.lf]).flatten

theorem emptyLinesOf_succ (n : Nat) :
    emptyLinesOf (n + 1) = Byte.cr :: Byte.lf :: emptyLinesOf n := rfl

/-- The strict rules skip empty lines. -/
theorem requestHeadWidening_emptyLinesOf (n : Nat) (bytes : Bytes) :
    requestHeadWidening (emptyLinesOf n ++ bytes) = requestHeadWidening bytes := by
  have hskip : emptyLines (emptyLinesOf n ++ bytes) = emptyLines bytes := by
    induction n with
    | zero => rfl
    | succ n ih => rw [emptyLinesOf_succ, List.cons_append, List.cons_append, emptyLines_crlf, ih]
  rw [requestHeadWidening_eq, requestHeadWidening_eq, requestHead_eq, requestHead_eq, hskip]

/-- The lenient rules take an empty line for the first line of a head, and refuse it. -/
theorem Lenient.requestHead_emptyLinesOf {n : Nat} (hn : 0 < n) (why : Refusal) (bytes : Bytes) :
    Lenient.requestHead why (emptyLinesOf n ++ bytes) = .refused why := by
  obtain ⟨n, rfl⟩ : ∃ k, n = k + 1 := ⟨n - 1, by omega⟩
  exact Lenient.requestHead_of_nil rfl

/-- Behind empty lines a head is there as before, if the strict rules read it. -/
theorem anyRequestHead_emptyLinesOf {bytes rest : Bytes} {parsed : RequestHead}
    (h : anyRequestHead bytes = .done parsed rest) (hs : readsStrictly bytes = true) (n : Nat) :
    anyRequestHead (emptyLinesOf n ++ bytes) = .done parsed rest := by
  have hdone : ∀ why, requestHeadWidening bytes ≠ .refused why := by
    intro why hr
    simp [readsStrictly, hr] at hs
  rw [anyRequestHead_of_ne_refused (by rwa [requestHeadWidening_emptyLinesOf]),
    requestHeadWidening_emptyLinesOf, ← anyRequestHead_of_ne_refused hdone, h]

/-- Behind empty lines a head is refused, if only the lenient rules read it. -/
theorem anyRequestHead_emptyLinesOf_of_lenient {bytes rest : Bytes} {parsed : RequestHead}
    {n : Nat} (h : anyRequestHead bytes = .done parsed rest) (hs : readsStrictly bytes = false)
    (hn : 0 < n) : ∃ why, anyRequestHead (emptyLinesOf n ++ bytes) = .refused why := by
  cases hr : requestHeadWidening bytes with
  | done parsed' rest' => simp [readsStrictly, hr] at hs
  | more =>
    rw [anyRequestHead_of_ne_refused (by simp [hr]), hr] at h
    cases h
  | refused why =>
    have hr' := (requestHeadWidening_emptyLinesOf n bytes).trans hr
    refine ⟨why, ?_⟩
    rw [anyRequestHead_of_refused hr', Lenient.requestHead_emptyLinesOf hn, ite_self]

/-- **Empty lines in front of a request.** Let a stream dispatch a request first, and let another
one have the same bytes of the client behind some empty lines. If the strict rules read the head of
the request, the other stream dispatches the same requests, the first one with the empty lines in
front of its head. If only the lenient rules do, it dispatches none: its bytes are refused. -/
theorem dispatches_behind_emptyLines {stream other : Stream} {n : Nat} {t : Taken Request}
    (hb : other.bytes .clientToServer = emptyLinesOf n ++ stream.bytes .clientToServer)
    (ht : (requestsIn (dispatch stream).events).head? = some t) :
    ∃ more, Dispatches stream (t :: more) ∧
      (readsStrictly (stream.bytes .clientToServer) = true →
        Dispatches other ({ t with head := emptyLinesOf n ++ t.head } :: more)) ∧
      (readsStrictly (stream.bytes .clientToServer) = false → 0 < n →
        requestsIn (dispatch other).events = [] ∧
        ∃ why, ∀ atEnd,
          parseRequest atEnd (other.bytes .clientToServer) = .invalid (.head why)) := by
  obtain ⟨more, hall⟩ := exists_requestsOf_of_head? rfl ht
  obtain ⟨parsed, rest, -, hd, -⟩ := exists_head_of_requestsOf hall
  refine ⟨more, hall ▸ dispatches stream, fun hs => ?_, fun hs hn => ?_⟩
  · -- The head is what stands in front of the bytes that are left.
    obtain ⟨head, hhead⟩ := leavesTail_anyRequestHead _ _ _ hd
    have hd' := anyRequestHead_emptyLinesOf hd hs n
    rw [← hhead] at hb hd hd' hall
    rw [← List.append_assoc] at hb hd'
    obtain ⟨rfl, hother⟩ := requestsOf_of_head hd hd' hall
    exact hother ▸ dispatches_of_bytes hb
  · obtain ⟨why, hr⟩ := anyRequestHead_emptyLinesOf_of_lenient hd hs hn
    have hp : ∀ atEnd,
        parseRequest atEnd (other.bytes .clientToServer) = .invalid (.head why) := by
      intro atEnd
      rw [parseRequest_eq, hb, parseBy_of_refused hr]
    have hnone : requestsOf (other.bytes .clientToServer) = [] :=
      requestsOf_of_ne_complete (by simp [hp true])
    exact ⟨List.prefix_nil.mp (hnone ▸ (dispatches other).taken), why, hp⟩

/-- Two requests behind some bytes, the first one with a gap in its field. -/
def twoBehind (front gap : String) : Stream :=
  unanswered [front ++ spaced "/" gap, spaced "/next" " "]

theorem dispatches_behind_crlf :
    (∃ t more, Dispatches (twoBehind "" " ") (t :: more) ∧
      Dispatches (twoBehind "\r\n" " ") ({ t with head := emptyLinesOf 1 ++ t.head } :: more)) ∧
    ∃ why, ∀ atEnd, parseRequest atEnd
      ((twoBehind "\r\n" "\r\n ").bytes .clientToServer) = .invalid (.head why) := by
  have hsome : ∀ gap ∈ [" ", "\r\n "],
      (requestsIn (dispatch (twoBehind "" gap)).events).head?.isSome := by decide +kernel
  obtain ⟨t, ht⟩ := Option.isSome_iff_exists.mp (hsome " " (by decide))
  obtain ⟨t', ht'⟩ := Option.isSome_iff_exists.mp (hsome "\r\n " (by decide))
  obtain ⟨more, hplain, hstray, -⟩ := @dispatches_behind_emptyLines (twoBehind "" " ")
    (twoBehind "\r\n" " ") 1 t (by decide +kernel) ht
  obtain ⟨-, -, -, hrefused⟩ := @dispatches_behind_emptyLines (twoBehind "" "\r\n ")
    (twoBehind "\r\n" "\r\n ") 1 t' (by decide +kernel) ht'
  exact ⟨⟨t, more, hplain, hstray (by decide +kernel)⟩,
    (hrefused (by decide +kernel) Nat.one_pos).2⟩

/-- **One empty line too many**: in front of a folded head it takes all requests away. -/
theorem requests_lost_behind_crlf :
    let folded := twoBehind "" "\r\n "
    let stray := twoBehind "\r\n" "\r\n "
    stray.bytes .clientToServer = emptyLinesOf 1 ++ folded.bytes .clientToServer ∧
      (requestsIn (dispatch folded).events).map (·.message.path) = ["/", "/next"] ∧
      requestsIn (dispatch stray).events = [] ∧ (dispatch stray).leftOver = [0, 1] := by
  decide +kernel

end HttpReplay.Http
