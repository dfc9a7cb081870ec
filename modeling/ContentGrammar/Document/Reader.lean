import ContentGrammar.Datum.Format
import ContentGrammar.Document.Markup

/-!
# Reading documents

A document is read from a text in either format. In a document a YAML word is what it denotes: a
number is no text.
-/

namespace ContentGrammar

/-- The top-level nodes of the document that a text denotes. -/
def Markup.read (f : Format) (source : String) : Except ReadError (List Markup) := do
  forestOfDatum (← f.read source).settle

end ContentGrammar
