import HttpReplay.Text.Numeral

/-!
# Hosts in the script

The script takes the address of its server from the command line, so a URL names no host
but the variable that holds the address. What the recorded host decides is the form: the
address of a host that was recorded as an IPv6 literal stands in brackets. The port is
written unless it is the port that a URL without one means.
-/

namespace HttpReplay

/-- The shape of a recorded host. -/
inductive HostKind
  /-- An IPv4 address or a name. -/
  | plain
  /-- An IPv6 address. -/
  | ipv6
  deriving Repr, DecidableEq

/-- A host with a colon counts as an IPv6 address. -/
def HostKind.ofHost (host : String) : HostKind :=
  if host.toList.contains ':' then .ipv6 else .plain

/-- The host part of every URL of a script. -/
structure HostTemplate where
  kind : HostKind
  port : Nat
  deriving Repr, DecidableEq

namespace HostTemplate

/-- The port of a URL that names none. -/
def defaultPort : Nat := 80

/-- The field of a formatted string that stands for the address. -/
def placeholder : List Char := ['{', 'I', 'P', '}']

/-- The template for a recorded host and port. -/
def ofHost (host : String) (port : Nat) : HostTemplate := ⟨HostKind.ofHost host, port⟩

/-- Is the port written? -/
def showsPort (t : HostTemplate) : Bool := t.port != defaultPort

/-- The host part around an address. -/
def around (t : HostTemplate) (address : List Char) : List Char :=
  (match t.kind with
    | .plain => address
    | .ipv6 => '[' :: address ++ [']']) ++
  (if t.showsPort then ':' :: Numeral.decimal t.port else [])

/-- **The host part** as it is written in the script. -/
def render (t : HostTemplate) : String := String.ofList (t.around placeholder)

end HostTemplate

end HttpReplay
