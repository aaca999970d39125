/-
The smallest parts of a TOML text: blanks, comments, quoted texts and keys.

A carriage return stands only before a line feed, and no other control character than
the tabulator stands anywhere outside an escape.

* `skipFiller`, `endOfLine?` — what may stand between the parts;
* `readQuoted` — texts in quotes of the four kinds;
* `readKey` — keys, whose parts are separated by points.
-/
import ShardAllocation.Datum.Json

namespace ShardAllocation

namespace Toml

/-- A blank within a line. -/
def isSpace (c : Char) : Bool := c == ' ' || c == '\t'

/-- Drops blanks within a line. -/
def skipSpaces (cs : List Char) : List Char := cs.dropWhile isSpace

/-- Whether a character may stand in a text of one line and in a comment. -/
def isPlain (c : Char) : Bool := c == '\t' || (0x20 ≤ c.toNat && c.toNat != 0x7F)

/-- Drops a comment.  What follows has to be the end of its line. -/
def skipComment : List Char → List Char
  | '#' :: rest => rest.dropWhile isPlain
  | cs => cs

/-- Drops a line end. -/
def skipLineEnd? : List Char → Option (List Char)
  | '\n' :: rest => some rest
  | '\r' :: '\n' :: rest => some rest
  | _ => none

/-- Drops blanks, comments and line ends in a bounded number of lines. -/
def skipLines : Nat → List Char → List Char
  | 0, cs => cs
  | lines + 1, cs =>
    let rest := skipComment (skipSpaces cs)
    match skipLineEnd? rest with
    | some more => skipLines lines more
    | none => rest

/-- Drops what may stand between the parts of a list. -/
def skipFiller (cs : List Char) : List Char := skipLines (cs.length + 1) cs

/-- The end of a statement: blanks, a comment and the end of the line. -/
def endOfLine? (cs : List Char) : Option (List Char) :=
  match skipComment (skipSpaces cs) with
  | [] => some []
  | rest => skipLineEnd? rest

/-! ### Quoted texts -/

/-- The character of an escape with its code in hexadecimal digits. -/
def codeEscape? (digits : Nat) (cs : List Char) : Option (Char × List Char) :=
  if (cs.take digits).length = digits then do
    let n ← Json.hexValue? (cs.take digits)
    if n < 0xD800 ∨ (0xDFFF < n ∧ n ≤ 0x10FFFF) then pure (Char.ofNat n, cs.drop digits)
    else none
  else none

/-- The character of an escape after its backslash. -/
def escape? : List Char → Option (Char × List Char)
  | 'b' :: rest => some ('\x08', rest)
  | 't' :: rest => some ('\t', rest)
  | 'n' :: rest => some ('\n', rest)
  | 'f' :: rest => some ('\x0c', rest)
  | 'r' :: rest => some ('\r', rest)
  | 'e' :: rest => some ('\x1b', rest)
  | '"' :: rest => some ('"', rest)
  | '\\' :: rest => some ('\\', rest)
  | 'x' :: rest => codeEscape? 2 rest
  | 'u' :: rest => codeEscape? 4 rest
  | 'U' :: rest => codeEscape? 8 rest
  | _ => none

/-- Reads the rest of a text in double quotes; `seen` holds its characters, the last one
first. -/
def readBasic : Nat → List Char → List Char → Option (String × List Char)
  | 0, _, _ => none
  | _, _, [] => none
  | _, seen, '"' :: rest => some (String.ofList seen.reverse, rest)
  | steps + 1, seen, '\\' :: rest => do
    let (c, rest) ← escape? rest
    readBasic steps (c :: seen) rest
  | steps + 1, seen, c :: rest => if isPlain c then readBasic steps (c :: seen) rest else none

/-- Reads the rest of a text in single quotes. -/
def readLiteral (cs : List Char) : Option (String × List Char) :=
  let body := cs.takeWhile fun c => c != '\''
  match cs.drop body.length with
  | '\'' :: rest => if body.all isPlain then some (String.ofList body, rest) else none
  | _ => none

/-- Drops blanks and line ends. -/
def skipBreaks : List Char → List Char
  | ' ' :: rest => skipBreaks rest
  | '\t' :: rest => skipBreaks rest
  | '\n' :: rest => skipBreaks rest
  | '\r' :: '\n' :: rest => skipBreaks rest
  | cs => cs

/-- Reads the rest of a text in three double quotes. -/
def readLongBasic : Nat → List Char → List Char → Option (String × List Char)
  | 0, _, _ => none
  | _, _, [] => none
  | _, seen, '"' :: '"' :: '"' :: rest =>
    let extra := (rest.takeWhile (· == '"')).take 2
    some (String.ofList (seen.reverse ++ extra), rest.drop extra.length)
  | steps + 1, seen, '\\' :: rest =>
    match skipLineEnd? (skipSpaces rest) with
    | some more => readLongBasic steps seen (skipBreaks more)
    | none => do
      let (c, rest) ← escape? rest
      readLongBasic steps (c :: seen) rest
  | steps + 1, seen, '\r' :: '\n' :: rest => readLongBasic steps ('\n' :: '\r' :: seen) rest
  | steps + 1, seen, c :: rest =>
    if isPlain c || c == '\n' then readLongBasic steps (c :: seen) rest else none

/-- Reads the rest of a text in three single quotes. -/
def readLongLiteral : Nat → List Char → List Char → Option (String × List Char)
  | 0, _, _ => none
  | _, _, [] => none
  | _, seen, '\'' :: '\'' :: '\'' :: rest =>
    let extra := (rest.takeWhile (· == '\'')).take 2
    some (String.ofList (seen.reverse ++ extra), rest.drop extra.length)
  | steps + 1, seen, '\r' :: '\n' :: rest => readLongLiteral steps ('\n' :: '\r' :: seen) rest
  | steps + 1, seen, c :: rest =>
    if isPlain c || c == '\n' then readLongLiteral steps (c :: seen) rest else none

/-- Drops the line end that may follow the opening quotes of a long text. -/
def skipFirstLineEnd (cs : List Char) : List Char := (skipLineEnd? cs).getD cs

/-- Reads a text in quotes of any kind. -/
def readQuoted (cs : List Char) : Option (String × List Char) :=
  match cs with
  | '"' :: '"' :: '"' :: rest => readLongBasic (rest.length + 1) [] (skipFirstLineEnd rest)
  | '\'' :: '\'' :: '\'' :: rest => readLongLiteral (rest.length + 1) [] (skipFirstLineEnd rest)
  | '"' :: rest => readBasic (rest.length + 1) [] rest
  | '\'' :: rest => readLiteral rest
  | _ => none

/-! ### Keys -/

/-- Reads one part of a key. -/
def readKeyPart (cs : List Char) : Option (String × List Char) :=
  match cs with
  | '"' :: rest => readBasic (rest.length + 1) [] rest
  | '\'' :: rest => readLiteral rest
  | _ =>
    let part := cs.takeWhile Text.isNameChar
    if part.isEmpty then none else some (String.ofList part, cs.drop part.length)

/-- How many parts a key may have. -/
def maxKeyParts : Nat := 80

/-- Reads a key of a bounded number of parts. -/
def readKeyParts : Nat → List Char → Option (List String × List Char)
  | 0, _ => none
  | parts + 1, cs => do
    let (part, rest) ← readKeyPart (skipSpaces cs)
    match skipSpaces rest with
    | '.' :: more =>
      let (others, rest) ← readKeyParts parts more
      pure (part :: others, rest)
    | rest => pure ([part], rest)

/-- Reads a key and the blanks after it. -/
def readKey (cs : List Char) : Option (List String × List Char) := readKeyParts maxKeyParts cs

end Toml

end ShardAllocation
