import HttpReplay.Proofs.Script.Boundaries

/-!
# URLs read back

The URL of a request is a formatted string, and it is read back as one: it ends with its own closing
quote whatever follows, its only field is the one for the address, and filled in it is the URL that
was captured, at the address that is put there. A path is all characters, so nothing in it opens a
field or closes the string, and two paths never give the same URL
(`HttpReplay.Request.readTemplate_url`).
-/

namespace HttpReplay

/-! ### Fields -/

namespace Literal

/-- The names of the fields of a formatted string. -/
def fieldNames (pieces : List Piece) : List (List Char) :=
  pieces.filterMap fun
    | .char _ => none
    | .field name => some name

@[simp] theorem fieldNames_append (before after : List Piece) :
    fieldNames (before ++ after) = fieldNames before ++ fieldNames after :=
  List.filterMap_append

@[simp] theorem fieldNames_map_char (cs : List Char) : fieldNames (cs.map .char) = [] := by
  rw [fieldNames, List.filterMap_map]
  exact List.filterMap_eq_nil_iff.mpr fun _ _ => rfl

theorem map_char_injective : Function.Injective (List.map Piece.char) :=
  List.map_injective_iff.mpr fun _ _ h => Piece.char.inj h

/-- The inside of a formatted string is read up to the closing quote. -/
theorem pieces_template (cs rest : List Char) :
    pieces double (cs.flatMap templateChar ++ double :: rest) = some (cs.map .char, rest) := by
  rw [reads_template cs, pieces_quote, Option.map_some]
  simp only [List.append_nil]

/-- **The inside of a formatted string tells its text.** -/
theorem template_inj {value other : String} : template other = template value ↔ other = value := by
  refine ⟨fun h => ?_, fun h => h ▸ rfl⟩
  have hchars : other.toList.flatMap templateChar = value.toList.flatMap templateChar :=
    String.ofList_injective h
  have hsame := pieces_template other.toList []
  rw [hchars, pieces_template, Option.some.injEq, Prod.mk.injEq] at hsame
  exact String.toList_inj.mp (map_char_injective hsame.1).symm

end Literal

namespace HostTemplate

open Literal

/-- The address is the only field of the host part. -/
theorem fieldNames_hostPieces (t : HostTemplate) : fieldNames t.hostPieces = [['I', 'P']] := by
  rw [hostPieces, fieldNames_append, fieldNames_map_char, List.append_nil]
  cases t.kind <;> rfl

end HostTemplate

/-! ### URLs -/

namespace Request

open Literal

/-- **A URL is read** into the characters of the scheme, the pieces of the host part, and the
characters of the path. -/
theorem readTemplate_toList_url (path : String) (host : HostTemplate) (rest : List Char) :
    readTemplate ((url path host).toList ++ rest) =
      some (scheme.map .char ++ host.hostPieces ++ path.toList.map .char, rest) := by
  let r : Request := { method := "GET", path }
  have hurl : (url path host).toList ++ rest =
      'f' :: double :: (r.urlInner host ++ double :: rest) := by
    rw [show path = r.path from rfl, toList_url, urlArgument]
    simp
  have hhead : (r.urlInner host).head? ≠ some double := by
    rw [head?_urlInner]
    decide
  rw [hurl]
  exact readTemplate_of_reads (r.reads_urlInner host) hhead (r.urlInner_ne_nil host) rest

/-- **The URL tells the path.** -/
theorem url_inj {path other : String} {host : HostTemplate} :
    url other host = url path host ↔ other = path := by
  refine ⟨fun h => ?_, fun h => h ▸ rfl⟩
  have hsame := readTemplate_toList_url other host []
  rw [h, readTemplate_toList_url path host [], Option.some.injEq, Prod.mk.injEq] at hsame
  exact String.toList_inj.mp (map_char_injective (List.append_cancel_left hsame.1)).symm

theorem isVisible_of_mem_url {path : String} {host : HostTemplate} {d : Char}
    (h : d ∈ (url path host).toList) : isVisible d = true := by
  let r : Request := { method := "GET", path }
  rw [show path = r.path from rfl, toList_url] at h
  exact isVisible_of_mem_urlArgument h

/-- **The URL evaluates to what was captured.** Whatever host, port and path were captured, the URL
is a formatted string on one line, which ends where it ends whatever follows it. Its only field is
the address, and filled in it is the scheme, the address, in brackets if the host holds a colon, the
port unless it is 80, and the path. Different paths give different URLs. -/
theorem readTemplate_url (host : String) (port : Nat) (path : String) :
    (∃ ps, (∀ rest, readTemplate ((url path (HostTemplate.ofHost host port)).toList ++ rest) =
        some (ps, rest)) ∧
      fieldNames ps = [['I', 'P']] ∧
      ∀ names, fill names ps =
        "http://".toList ++
          (if ':' ∈ host.toList then '[' :: names ['I', 'P'] ++ [']'] else names ['I', 'P']) ++
          (if port = 80 then [] else ':' :: Numeral.decimal port) ++ path.toList) ∧
    StaysOnLine (url path (HostTemplate.ofHost host port)).toList ∧
    ∀ other, (url other (HostTemplate.ofHost host port) = url path (HostTemplate.ofHost host port) ↔
        other = path) ∧ (template other = template path ↔ other = path) := by
  refine ⟨⟨_, readTemplate_toList_url path _, ?_, fun names => ?_⟩, ?_,
    fun other => ⟨url_inj, template_inj⟩⟩
  · rw [fieldNames_append, fieldNames_append, fieldNames_map_char, fieldNames_map_char,
      HostTemplate.fieldNames_hostPieces]
    rfl
  · exact fill_url { id := 0, serverHost := host, serverPort := port } { method := "GET", path }
      names
  · refine staysOnLine_of_isVisible (fun _ hd => isVisible_of_mem_url hd) ?_
    intro hnil
    have hread := readTemplate_toList_url path (HostTemplate.ofHost host port) []
    rw [hnil] at hread
    cases hread

end Request

end HttpReplay
