import WeightedTransducer.Text.Pieces

/-!
# Blank characters

`isBlank` is the Unicode property White_Space.  Texts are cut at blanks in four ways: `trimStart`,
`trim`, `words` (the runs without a blank) and `splitAtBlank?` (the first run and what follows its
first blank).
-/

namespace WeightedTransducer.Text

/-- Whether a character is white space. -/
def isBlank (c : Char) : Bool :=
  let code := c.toNat
  (0x09 ≤ code && code ≤ 0x0d) || code == 0x20 || code == 0x85 || code == 0xa0 || code == 0x1680
    || (0x2000 ≤ code && code ≤ 0x200a) || code == 0x2028 || code == 0x2029 || code == 0x202f
    || code == 0x205f || code == 0x3000

/-- The text without the blanks in front. -/
def trimStart (text : List Char) : List Char :=
  text.dropWhile isBlank

/-- The text without the blanks at its end. -/
def trimEnd (text : List Char) : List Char :=
  (text.reverse.dropWhile isBlank).reverse

/-- The text without the blanks at either end. -/
def trim (text : List Char) : List Char :=
  trimEnd (trimStart text)

/-- The runs of characters between blanks, in order; none of them is empty. -/
def words (text : List Char) : List (List Char) :=
  (pieces isBlank text).filter (!·.isEmpty)

/-- The text before its first blank and the text after that blank, if there is one. -/
def splitAtBlank? (text : List Char) : Option (List Char × List Char) :=
  match text.dropWhile (!isBlank ·) with
  | [] => none
  | _ :: rest => some (text.takeWhile (!isBlank ·), rest)

end WeightedTransducer.Text
