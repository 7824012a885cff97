/-! # Operations on texts

`trim`, `split`, `split_once` and `trim_matches` of strings; `String.toLower`
and `String.toUpper` change ASCII letters only, as `to_ascii_lowercase` and
`to_ascii_uppercase` do. -/

namespace AmlReal.Foundations.Text

/-- The Unicode property `White_Space`. -/
def isWhitespace (c : Char) : Bool :=
  (9 ≤ c.val ∧ c.val ≤ 13) ∨ c.val = 0x20 ∨ c.val = 0x85 ∨ c.val = 0xA0 ∨ c.val = 0x1680 ∨
    (0x2000 ≤ c.val ∧ c.val ≤ 0x200A) ∨ c.val = 0x2028 ∨ c.val = 0x2029 ∨ c.val = 0x202F ∨
    c.val = 0x205F ∨ c.val = 0x3000

/-- Without the characters at both ends that satisfy `p`. -/
def trimMatches (p : Char → Bool) (s : String) : String :=
  String.ofList ((s.toList.dropWhile p).reverse.dropWhile p).reverse

def trim (s : String) : String := trimMatches isWhitespace s

/-- The parts between the occurrences of a character. -/
def splitChars (separator : Char) : List Char → List (List Char)
  | [] => [[]]
  | c :: cs =>
    if c = separator then [] :: splitChars separator cs
    else match splitChars separator cs with
      | [] => [[c]]
      | part :: parts => (c :: part) :: parts

def split (separator : Char) (s : String) : List String :=
  (splitChars separator s.toList).map String.ofList

/-- What stands before and after the first occurrence of a character. -/
def splitOnce (separator : Char) (s : String) : Option (String × String) :=
  match s.toList.span (· ≠ separator) with
  | (_, []) => none
  | (before, _ :: after) => some (String.ofList before, String.ofList after)

def isAsciiLowercase (c : Char) : Bool := 'a' ≤ c ∧ c ≤ 'z'

def isAsciiAlphanumeric (c : Char) : Bool :=
  isAsciiLowercase c ∨ ('A' ≤ c ∧ c ≤ 'Z') ∨ ('0' ≤ c ∧ c ≤ '9')

end AmlReal.Foundations.Text
