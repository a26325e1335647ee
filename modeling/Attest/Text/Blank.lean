/-! Blank characters, trimming, and the lines of a text. -/

namespace Attest.Text

/-- A blank of any script: the Unicode white space and the four information separators. -/
def isBlank (c : Char) : Bool :=
  let n := c.toNat
  (0x09 ≤ n && n ≤ 0x0d) || (0x1c ≤ n && n ≤ 0x20) || n == 0x85 || n == 0xa0 || n == 0x1680 ||
    (0x2000 ≤ n && n ≤ 0x200a) || n == 0x2028 || n == 0x2029 || n == 0x202f || n == 0x205f ||
    n == 0x3000

/-- The six blanks of ASCII that typewriters know. -/
def isAsciiBlank (c : Char) : Bool :=
  c == ' ' || (0x09 ≤ c.toNat && c.toNat ≤ 0x0d)

def dropRightWhile (p : Char → Bool) (cs : List Char) : List Char :=
  (cs.reverse.dropWhile p).reverse

/-- Without the characters of the class at either end. -/
def trimBy (p : Char → Bool) (cs : List Char) : List Char :=
  dropRightWhile p (cs.dropWhile p)

def trim (s : String) : String :=
  String.ofList (trimBy isBlank s.toList)

def trimRight (s : String) : String :=
  String.ofList (dropRightWhile isBlank s.toList)

/-- The characters that end a line; a carriage return and the line feed after it end one line. -/
def isLineEnd (c : Char) : Bool :=
  let n := c.toNat
  (0x0a ≤ n && n ≤ 0x0d) || (0x1c ≤ n && n ≤ 0x1e) || n == 0x85 || n == 0x2028 || n == 0x2029

/-- The lines from a point on, given the current one so far in reverse. A text that ends with a
line end has no further empty line. -/
def linesFrom : List Char → List Char → List (List Char)
  | [], [] => []
  | current, [] => [current.reverse]
  | current, '\r' :: '\n' :: rest => current.reverse :: linesFrom [] rest
  | current, c :: rest =>
      if isLineEnd c then current.reverse :: linesFrom [] rest else linesFrom (c :: current) rest

def lines (s : String) : List String :=
  (linesFrom [] s.toList).map String.ofList

/-- Text files are read with every carriage return, and the line feed after one, as a line feed. -/
def unifyNewlines : List Char → List Char
  | [] => []
  | '\r' :: '\n' :: rest => '\n' :: unifyNewlines rest
  | c :: rest => (if c = '\r' then '\n' else c) :: unifyNewlines rest

example : lines "a\r\nb\x0bc\n" = ["a", "b", "c"] := by decide +kernel

end Attest.Text
