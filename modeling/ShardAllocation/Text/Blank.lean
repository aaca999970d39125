/-
White space, trimming and names.

`isBlank` is the Unicode property White_Space, which is larger than the ASCII blanks;
`trim` removes blanks at both ends of a text; `isNameChar` is the class of plain names.
-/

namespace ShardAllocation

namespace Text

/-- The characters of the Unicode property White_Space. -/
def isBlank (c : Char) : Bool :=
  let n := c.toNat
  (0x9 ≤ n && n ≤ 0xD) || n == 0x20 || n == 0x85 || n == 0xA0 || n == 0x1680 ||
    (0x2000 ≤ n && n ≤ 0x200A) || n == 0x2028 || n == 0x2029 || n == 0x202F ||
    n == 0x205F || n == 0x3000

/-- The characters of a name that needs no quotes. -/
def isNameChar (c : Char) : Bool := c.isAlphanum || c == '_' || c == '-'

/-- Drops the blanks at both ends. -/
def trim (cs : List Char) : List Char :=
  ((cs.dropWhile isBlank).reverse.dropWhile isBlank).reverse

/-- Maps ASCII capitals to small letters and keeps every other character. -/
def lower (cs : List Char) : List Char := cs.map Char.toLower

/-- Joins texts with a separator between neighbours. -/
def join (separator : String) (texts : List String) : String := separator.intercalate texts

/-- Whether `t` begins with `p`; gives what follows. -/
def afterStart? : List Char → List Char → Option (List Char)
  | [], t => some t
  | _ :: _, [] => none
  | a :: p, b :: t => if a = b then afterStart? p t else none

/-- Splits a text at every occurrence of a character. -/
def splitAt (separator : Char) : List Char → List (List Char)
  | [] => [[]]
  | c :: rest =>
    if c = separator then [] :: splitAt separator rest
    else
      match splitAt separator rest with
      | [] => [[c]]
      | part :: parts => (c :: part) :: parts

end Text

end ShardAllocation
