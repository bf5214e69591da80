import HttpReplay.Proofs.Dispatch.Openings
import HttpReplay.Proofs.Http.Folding

/-!
# Dispatching folded requests

Folding the lines of a head changes nothing about a request but the bytes of its head: it is
dispatched with the same message and the same body, and so are the requests in front of it and
behind it (`HttpReplay.Http.dispatches_folded`).
-/

namespace HttpReplay.Http

/-- **A folded request is dispatched like the request.** In the client's bytes of a stream let a
request stand behind others. Its head is one that the strict rules read, without empty lines in
front and with a target in ASCII, and its body is the one that the head asks for. Another stream has
a folding of the head in its place. Both streams dispatch the same requests, with the same messages
and the same bodies; only the bytes of the one head are those of the folding. -/
theorem dispatches_folded {stream other : Stream} {before head folded body rest decoded : Bytes}
    {parsed : RequestHead} {framing : Framing} {early more : List (Taken Request)}
    (hd : requestHeadWidening head = .done parsed [])
    (hstart : head.head? ≠ some Byte.lf ∧ head.head? ≠ some Byte.cr)
    (hascii : ∀ b ∈ Bytes.ofText parsed.path, b < 128)
    (hframing : requestFraming? parsed.fields = some framing)
    (hbody : readBody framing true (body ++ rest) = .complete body.length decoded)
    (hfolds : Folds head folded)
    (hb : stream.bytes .clientToServer = before ++ (head ++ (body ++ rest)))
    (hb' : other.bytes .clientToServer = before ++ (folded ++ (body ++ rest)))
    (hall : requestsOf (stream.bytes .clientToServer) = early ++ more)
    (hearly : early.flatMap Taken.wire = before) :
    Dispatches stream (early ++ ⟨head, body, parsed.withBody decoded⟩ :: requestsOf rest) ∧
      Dispatches other (early ++ ⟨folded, body, parsed.withBody decoded⟩ :: requestsOf rest) := by
  have hread : anyRequestHead (head ++ (body ++ rest)) = .done parsed (body ++ rest) :=
    anyRequestHead_of_folds hd hstart hascii (folds_self hd hstart) _
  have hread' : anyRequestHead (folded ++ (body ++ rest)) = .done parsed (body ++ rest) :=
    anyRequestHead_of_folds hd hstart hascii hfolds _
  have hne : head ++ (body ++ rest) ≠ [] := by
    rintro hnil
    rw [(List.append_eq_nil_iff.mp hnil).1] at hd
    cases hd
  rw [hb] at hall
  have hbehind := (requestsOf_behind hall hearly hne).2
  refine ⟨?_, ?_⟩
  · rw [← requestsOf_of_head_body hread hframing hbody, ← hbehind, ← hb]
    exact dispatches stream
  · rw [← requestsOf_of_head_body hread' hframing hbody, ← hbehind, ← hb']
    exact dispatches other

/-- The head of an upload. -/
def uploadHead : Bytes :=
  Bytes.ascii "POST /up HTTP/1.1\r\nX: a b c\r\nTransfer-Encoding: gzip, chunked\r\n\r\n"

/-- A folding of it at three places, each in a way of its own. -/
def foldedUploadHead : Bytes :=
  Bytes.ascii
    "POST /up HTTP/1.1\r\nX: a\n\tb\r\n  c\r\nTransfer-Encoding: gzip,\r\n chunked\r\n\r\n"

theorem folds_uploadHead : Folds uploadHead foldedUploadHead := by
  have hlf : IsFold [Byte.lf, Byte.tab] :=
    ⟨[Byte.lf], [Byte.tab], Or.inl rfl, by decide, by decide +kernel, rfl⟩
  have hcrlf : ∀ blanks : Bytes, blanks ≠ [] → (∀ b ∈ blanks, Byte.isBlank b) →
      IsFold ([Byte.cr, Byte.lf] ++ blanks) := fun blanks hne hblanks =>
    ⟨_, blanks, Or.inr rfl, hne, hblanks, rfl⟩
  -- `a b c` with both spaces replaced, and `gzip, chunked` with its space replaced.
  have hfield : FoldsText ([Byte.sp] ++ 97 :: Byte.sp :: 98 :: Byte.sp :: [99])
      ([Byte.sp] ++ 97 :: ([Byte.lf, Byte.tab] ++
        98 :: ([Byte.cr, Byte.lf] ++ [Byte.sp, Byte.sp] ++ [99]))) :=
    .append_left (.fold rfl rfl hlf
      (.fold rfl rfl (hcrlf _ (by decide) (by decide +kernel)) (.refl _))) _
  have hcoding : FoldsText (Bytes.ascii " gzip" ++ 44 :: Byte.sp :: 99 :: Bytes.ascii "hunked")
      (Bytes.ascii " gzip" ++ 44 :: ([Byte.cr, Byte.lf] ++ [Byte.sp] ++
        99 :: Bytes.ascii "hunked")) :=
    .append_left (.fold rfl rfl (hcrlf _ (by decide) (by decide +kernel)) (.refl _)) _
  have hlines := @FoldsLines.line (Bytes.ascii "X") _ _ _ _ _ (by decide +kernel)
    (by decide +kernel) (by decide +kernel) hfield (Or.inr rfl)
    (@FoldsLines.line (Bytes.ascii "Transfer-Encoding") _ _ _ _ _ (by decide +kernel)
      (by decide +kernel) (by decide +kernel) hcoding (Or.inr rfl) (.empty (Or.inr rfl)))
  exact ⟨Bytes.ascii "POST /up HTTP/1.1\r", _, _, by decide +kernel, hlines, by decide +kernel,
    by decide +kernel⟩

/-- The upload with a given head, and a request on either side of it. -/
def uploadStream (head : Bytes) : Stream where
  metadata := { id := 1, serverHost := "192.0.2.1", serverPort := 80 }
  chunks := [
    ⟨.clientToServer, Bytes.ascii "GET / HTTP/1.1\r\n\r\n" ++ head, ⟨0, 0⟩⟩,
    ⟨.clientToServer, Bytes.ascii "2\r\nok\r\n0\r\n\r\nGET /next HTTP/1.1\r\n\r\n", ⟨1, 0⟩⟩]

theorem dispatches_foldedUpload :
    ∃ first next message,
      Dispatches (uploadStream uploadHead)
        [first, ⟨uploadHead, Bytes.ascii "2\r\nok\r\n0\r\n\r\n", message⟩, next] ∧
      Dispatches (uploadStream foldedUploadHead)
        [first, ⟨foldedUploadHead, Bytes.ascii "2\r\nok\r\n0\r\n\r\n", message⟩, next] ∧
      message.headers.get? "X" = some "a b c" := by
  obtain ⟨next, hnext⟩ := List.length_eq_one_iff.mp
    (show (requestsOf (Bytes.ascii "GET /next HTTP/1.1\r\n\r\n")).length = 1 by decide +kernel)
  have h := @dispatches_folded (uploadStream uploadHead) (uploadStream foldedUploadHead)
    (Bytes.ascii "GET / HTTP/1.1\r\n\r\n") uploadHead foldedUploadHead
    (Bytes.ascii "2\r\nok\r\n0\r\n\r\n") (Bytes.ascii "GET /next HTTP/1.1\r\n\r\n")
    (Bytes.ascii "ok")
    ⟨"POST", "/up", 1, [⟨Bytes.ascii "X", Bytes.ascii "a b c"⟩,
      ⟨Bytes.ascii "Transfer-Encoding", Bytes.ascii "gzip, chunked"⟩]⟩ .chunked
    [⟨Bytes.ascii "GET / HTTP/1.1\r\n\r\n", [], { method := "GET", path := "/" }⟩]
    (requestsOf ((uploadStream uploadHead).bytes .clientToServer)).tail
    (by decide +kernel) (by decide +kernel) (by decide +kernel) (by decide +kernel)
    (by decide +kernel) folds_uploadHead (by decide +kernel) (by decide +kernel)
    (by decide +kernel) (by decide +kernel)
  rw [hnext] at h
  exact ⟨_, next, _, h.1, h.2, by decide +kernel⟩

end HttpReplay.Http
