import HttpReplay.Files.Tree

/-!
# Reading a file while it changes

A file is not read all at once but in blocks. A block is fetched when the bytes of the one before
are used up, and what is fetched then is what the file holds at that time. So whatever is written
to a file that is being read is read too, unless it stands in front of what was fetched.

* `HttpReplay.FileInput.ahead` is what would be read if the file stayed as it is;
* `HttpReplay.FileInput.advance` uses up some of it.
-/

namespace HttpReplay

/-- **A file that is being read.** -/
structure FileInput where
  place : FilePlace
  /-- What was fetched and not used up. -/
  held : Bytes := []
  /-- How many bytes were fetched so far. -/
  offset : Nat := 0
  deriving Repr, DecidableEq

namespace FileInput

/-- How many bytes a block has. -/
def blockSize : Nat := 8192

/-- What was not fetched yet. -/
def unfetched (i : FileInput) (t : FileTree) : Bytes :=
  match t.get? i.place with
  | some (.file content _) => content.drop i.offset
  | _ => []

/-- **What is ahead**, if the file stays as it is. -/
def ahead (i : FileInput) (t : FileTree) : Bytes := i.held ++ i.unfetched t

/-- **Use up** so many of the bytes ahead. As many blocks are fetched as are needed. -/
def advance (i : FileInput) (t : FileTree) (count : Nat) : FileInput :=
  if count ≤ i.held.length then { i with held := i.held.drop count }
  else
    let missing := count - i.held.length
    let blocks := (missing + blockSize - 1) / blockSize
    let fetched := (i.unfetched t).take (blocks * blockSize)
    { i with held := fetched.drop missing, offset := i.offset + fetched.length }

end FileInput

end HttpReplay
