import ContentGrammar.Datum.Shape
import ContentGrammar.Files.Tree

/-!
# Listings of files

A file tree may be listed as data: a record for each file, link or directory, with its path and
with the text or the bytes of the file or the target of the link. The directories on the way to a
path need not be listed.
-/

namespace ContentGrammar

open Datum (Read expected given ifGiven asText asCount)

/-- The bytes of a list of numbers below 256. -/
def bytesOfDatum (d : Datum) : Read ByteArray := do
  let numbers ← (← d.items).mapM fun v => asCount v.1
  if numbers.any (256 ≤ ·) then expected "bytes"
  else return ⟨(numbers.map UInt8.ofNat).toArray⟩

/-- The tree with one more record of a listing. -/
def FileTree.putDatum (t : FileTree) (d : Datum) : Read FileTree := do
  let [path, text, bytes, link] ← d.fields ⟨["path", "text", "bytes", "link"], none⟩
    | expected "a record of a listing"
  let path ← given asText (path.map (·.1))
  match text, bytes, link with
  | some text, none, none => return t.put (.ofText path) (.file (← text.1.asText).toUTF8)
  | none, some bytes, none => return t.put (.ofText path) (.file (← bytesOfDatum bytes.1))
  | none, none, some link => return t.put (.ofText path) (.link (.ofText (← link.1.asText)))
  | none, none, none => return t.putDirectory (.ofText path)
  | _, _, _ => expected "one content"

/-- The tree with all records of a listing. -/
def FileTree.putListing (t : FileTree) (records : List Datum) : Read FileTree :=
  records.foldlM putDatum t

end ContentGrammar
