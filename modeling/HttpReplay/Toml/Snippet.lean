import HttpReplay.Text.Space
import HttpReplay.Toml.Table

/-!
# Messages with a snippet

A message about a part of a document names its line and column, shows the line, and marks the
part below it. Of a part that runs over several lines, only what is on the first is marked.
-/

namespace HttpReplay.Toml

/-- Where a stretch begins, and the line it begins on. -/
structure Place where
  /-- The number of the line, counted from one. -/
  line : Nat
  /-- How many characters stand before the stretch on its line. -/
  column : Nat
  /-- The text of the line. -/
  content : List Char
  /-- The text of the stretch. -/
  stretch : List Char
  deriving Repr

/-- The place of a stretch in a document. -/
def Span.place (source : List Char) (span : Span) : Place :=
  let before := source.take (source.length - span.before)
  let behind := source.drop (source.length - span.before)
  let left := (before.reverse.takeWhile (· != '\n')).reverse
  { line := before.count '\n' + 1
    column := left.length
    content := left ++ behind.takeWhile (· != '\n')
    stretch := behind.take (span.before - span.after) }

/-- How many marks a place gets: one for each byte of the stretch, as far as there are bytes on
the line, and one at least. -/
def Place.marks (p : Place) : Nat :=
  max 1 (min (Text.byteLength p.stretch) (Text.byteLength p.content - p.column))

/-- **A message** about a stretch of a document. -/
def Span.message (source : String) (span : Span) (message : String) : String :=
  let p := span.place source.toList
  let gutter := String.ofList (List.replicate ((toString p.line).length + 1) ' ')
  let marks := String.ofList (List.replicate (p.column + 1) ' ' ++ List.replicate p.marks '^')
  s!"TOML parse error at line {p.line}, column {p.column + 1}\n" ++
    gutter ++ "|\n" ++
    s!"{p.line} | " ++ String.ofList p.content ++ "\n" ++
    gutter ++ "|" ++ marks ++ "\n" ++
    message ++ "\n"

end HttpReplay.Toml
