import HttpReplay.Files.Fault
import HttpReplay.Toml.Snippet

/-!
# Errors in settings

Settings come from a file and from the command line. The file may be unreadable, may not be a
TOML document, or may hold something else than settings; and the word for the verbosity may be
none.
-/

namespace HttpReplay

/-- **What is wrong with settings.** -/
inductive SettingsError
  /-- The file could not be read. -/
  | io (fault : IoFault)
  /-- The file is not a TOML document. -/
  | document
  /-- A part of the file is not what it should be. -/
  | entry (source : String) (span : Toml.Span) (message : String)
  /-- A word that names no verbosity. -/
  | verbosity (word : String)
  deriving Repr, DecidableEq

namespace SettingsError

/-- The wording of an error. -/
def message : SettingsError → String
  | io fault => s!"IO error: {fault.message}"
  | document => "TOML parsing error: not a TOML document"
  | entry source span message => s!"TOML parsing error: {span.message source message}"
  | verbosity word => s!"Invalid configuration value: unknown log level '{word}'"

end SettingsError

end HttpReplay
