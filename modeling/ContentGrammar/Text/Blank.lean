/-!
# White space

Two classes of white space occur. `isBlank` is the Unicode property `White_Space`, around which
selectors and names are trimmed. `isSpace` is the white space of HTML: text made of it alone
separates elements without being content, and it separates the words of a `class` attribute.
-/

namespace ContentGrammar

/-- The Unicode property `White_Space`. -/
def isBlank (c : Char) : Bool :=
  let n := c.toNat
  (0x09 ≤ n && n ≤ 0x0D) || n == 0x20 || n == 0x85 || n == 0xA0 || n == 0x1680
    || (0x2000 ≤ n && n ≤ 0x200A) || n == 0x2028 || n == 0x2029 || n == 0x202F || n == 0x205F
    || n == 0x3000

/-- The white space of HTML: space, tab, line feed, form feed and carriage return. -/
def isSpace (c : Char) : Bool :=
  c == ' ' || c == '\t' || c == '\n' || c == '\x0C' || c == '\r'

/-- The characters `cs` without the blank characters at its start. -/
def trimStart (cs : List Char) : List Char := cs.dropWhile isBlank

/-- The characters `cs` without the blank characters at its two ends. -/
def trim (cs : List Char) : List Char :=
  ((trimStart cs).reverse.dropWhile isBlank).reverse

/-- The text `s` without the blank characters at its two ends. -/
def trimmed (s : String) : String := String.ofList (trim s.toList)

theorem length_trimStart_le (cs : List Char) : (trimStart cs).length ≤ cs.length :=
  (List.dropWhile_suffix isBlank).length_le

theorem length_trim_le (cs : List Char) : (trim cs).length ≤ cs.length := by
  have := (List.dropWhile_suffix (l := (trimStart cs).reverse) isBlank).length_le
  have := length_trimStart_le cs
  simp only [trim, List.length_reverse] at *
  omega

/-- The maximal runs of characters other than HTML white space, in order. -/
def words (s : String) : List String :=
  ((s.toList.splitBy fun a b => isSpace a == isSpace b).filter fun run => !run.all isSpace).map
    String.ofList

end ContentGrammar
