/-!
# Faults of reading and writing

Files, the input and the output can fail. The library tells such faults apart by their cause;
those that come from the operating system are worded with its error number.
-/

namespace HttpReplay

/-- **Why reading or writing failed.** -/
inductive IoFault
  | notFound
  | exists
  | notDirectory
  | isDirectory
  | nameTooLong
  /-- A path with a zero character. -/
  | zeroInPath
  /-- Bytes that are not UTF-8 where text was asked for. -/
  | invalidText
  /-- Any other cause, in its own words. -/
  | other (message : String)
  deriving Repr, DecidableEq

namespace IoFault

/-- The wording of a fault of the operating system. -/
def numbered (text : String) (number : Nat) : String := s!"{text} (os error {number})"

/-- The wording of a fault. -/
def message : IoFault → String
  | notFound => numbered "No such file or directory" 2
  | «exists» => numbered "File exists" 17
  | notDirectory => numbered "Not a directory" 20
  | isDirectory => numbered "Is a directory" 21
  | nameTooLong => numbered "File name too long" 36
  | zeroInPath => "file name contained an unexpected NUL byte"
  | invalidText => "stream did not contain valid UTF-8"
  | other message => message

end IoFault

end HttpReplay
