import HttpReplay.Text.Numeral
import HttpReplay.Text.Quoted

/-!
# Values found in the wrong place

Where a value of one kind should be and one of another kind is, the message names what was
found. JSON and the settings file word this alike.
-/

namespace HttpReplay

/-- **A value found** where one of another kind should be. -/
inductive Found
  | null
  | bool (value : Bool)
  | integer (value : Int)
  /-- An integer that takes more than 64 bits, with its sign if it is `signed`. -/
  | wideInteger (value : Int) (signed : Bool)
  /-- A number with a fraction or an exponent, or too large to be an integer, as it is
  shown. -/
  | real (shown : String)
  | text (value : String)
  | list
  | object
  deriving Repr, DecidableEq

namespace Found

/-- A word in backticks. -/
def marked (word : String) : String := "\x60" ++ word ++ "\x60"

/-- The wording of a found value. -/
def message : Found → String
  | null => "null"
  | bool true => "boolean " ++ marked "true"
  | bool false => "boolean " ++ marked "false"
  | integer n => "integer " ++ marked (String.ofList (Numeral.signed n))
  | wideInteger n signed =>
    "integer " ++ marked (String.ofList (Numeral.signed n)) ++
      (if signed then " as i128" else " as u128")
  | real shown => "floating point " ++ marked shown
  | text value => "string " ++ Text.quoted value
  | list => "sequence"
  | object => "map"

/-- The refusal of a found value, by what was expected. -/
def refusal (found : Found) (expected : String) : String :=
  "invalid type: " ++ found.message ++ ", expected " ++ expected

end Found

end HttpReplay
