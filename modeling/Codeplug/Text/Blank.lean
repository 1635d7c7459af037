/-!
# Blank characters

The characters with the Unicode property White_Space, and what text handling needs of them: cutting
them off both ends, cutting a text into words, and joining the words by single spaces.
-/

namespace Codeplug.Text

/-- The 25 characters with the property White_Space. -/
def isBlank (c : Char) : Bool :=
  let n := c.toNat
  (0x09 ≤ n && n ≤ 0x0d) || n == 0x20 || n == 0x85 || n == 0xa0 || n == 0x1680 ||
    (0x2000 ≤ n && n ≤ 0x200a) || n == 0x2028 || n == 0x2029 || n == 0x202f || n == 0x205f ||
    n == 0x3000

/-- The four blanks that separate the parts of tags and of JSON documents. -/
def isSpace (c : Char) : Bool :=
  c == ' ' || c == '\t' || c == '\r' || c == '\n'

/-- The text without the blanks in front. -/
def trimStart (cs : List Char) : List Char :=
  cs.dropWhile isBlank

/-- The text without the blanks at its end. -/
def trimEnd (cs : List Char) : List Char :=
  (cs.reverse.dropWhile isBlank).reverse

/-- The text without the blanks around it. -/
def trim (cs : List Char) : List Char :=
  trimEnd (trimStart cs)

/-- Whether a text holds nothing but blanks. -/
def allBlank (cs : List Char) : Bool :=
  cs.all isBlank

/-- The maximal blank-free pieces of a text, in order. -/
def words (cs : List Char) : List (List Char) :=
  match _h : trimStart cs with
  | [] => []
  | c :: rest =>
    (c :: rest).takeWhile (!isBlank ·) :: words ((c :: rest).dropWhile (!isBlank ·))
termination_by cs.length
decreasing_by
  have hc : isBlank c = false := by
    have := List.head?_dropWhile_not isBlank cs
    simp only [trimStart] at _h
    simpa [_h] using this
  have hle : (trimStart cs).length ≤ cs.length := (List.dropWhile_sublist isBlank).length_le
  have hrest : (rest.dropWhile (!isBlank ·)).length ≤ rest.length :=
    (List.dropWhile_sublist _).length_le
  simp only [_h, List.length_cons] at hle
  simp only [List.dropWhile_cons, hc, Bool.not_false, if_true]
  omega

/-- The words of a text joined by single spaces. -/
def simplify (cs : List Char) : List Char :=
  [' '].intercalate (words cs)

end Codeplug.Text
