import HttpReplay.Http.Folding
import HttpReplay.Http.Wire

/-!
# The grammar of request heads

What the head of a request looks like by the strict rules, said without reading it. Every field line
of a head is one field of what the head says, so that there are as many fields as there are lines.

* `HttpReplay.Http.IsRequestLine` is the grammar of the first line;
* `HttpReplay.Http.IsFieldLines` is the grammar of the field lines and of the empty line that ends
  them;
* `HttpReplay.Http.IsRequestHead` is the grammar of whole heads.
-/

namespace HttpReplay.Http

/-- **Bytes that are the first line of a request**, and the words of it: the method as it stands
there, the target as text, and the minor version. -/
inductive IsRequestLine : Bytes → Bytes × String × Nat → Prop
  | words {method target ending : Bytes} {path : String} {version : Nat} :
      method ≠ [] → (∀ b ∈ method, isToken b) →
      target ≠ [] → (∀ b ∈ target, isTarget b) → Bytes.text? target = some path →
      version ≤ 1 → IsLineEnd ending →
      IsRequestLine
        (method ++ Byte.sp :: (target ++ Byte.sp :: (versionWord version ++ ending)))
        (method, path, version)

/-- **Bytes that are field lines**, up to the empty line that ends the head, and their fields. -/
inductive IsFieldLines : Bytes → List Field → Prop
  /-- The empty line. -/
  | empty {ending : Bytes} : IsLineEnd ending → IsFieldLines ending []
  /-- The line of a field: its name, a colon, and the value with blanks around it. -/
  | line {name text ending lines : Bytes} {fields : List Field} :
      name ≠ [] → (∀ b ∈ name, isToken b) → (∀ b ∈ text, isFieldText b) → IsLineEnd ending →
      IsFieldLines lines fields →
      IsFieldLines (name ++ Byte.colon :: (text ++ (ending ++ lines)))
        (⟨name, Bytes.trimBy Byte.isBlank text⟩ :: fields)

/-- **Bytes that are the head of a request**, and what the head says. -/
inductive IsRequestHead : Bytes → RequestHead → Prop
  /-- The first line and the field lines. -/
  | lines {first lines method : Bytes} {path : String} {version : Nat} {fields : List Field} :
      IsRequestLine first (method, path, version) → IsFieldLines lines fields →
      IsRequestHead (first ++ lines) ⟨Bytes.latin1 method, path, version, fields⟩
  /-- An empty line in front. -/
  | behind {ending head : Bytes} {parsed : RequestHead} :
      IsLineEnd ending → IsRequestHead head parsed → IsRequestHead (ending ++ head) parsed

end HttpReplay.Http
