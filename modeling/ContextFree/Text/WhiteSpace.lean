import ContextFree.Text.Basic

/-!
# White space

The Unicode property `White_Space`, and the trimming and division of texts at it.
-/

namespace ContextFree

/-- The property `White_Space`: twenty-five code points, six of them ASCII. -/
def isWhiteSpace (c : Char) : Bool :=
  let n := c.toNat
  (0x09 ≤ n && n ≤ 0x0D) || n == 0x20 || n == 0x85 || n == 0xA0 || n == 0x1680 ||
    (0x2000 ≤ n && n ≤ 0x200A) || n == 0x2028 || n == 0x2029 || n == 0x202F || n == 0x205F ||
      n == 0x3000

namespace Text

def trim (t : Text) : Text :=
  ((t.dropWhile isWhiteSpace).reverse.dropWhile isWhiteSpace).reverse

/-- The maximal runs of characters that are not white space. -/
def chunks (t : Text) : List Text :=
  (t.splitOnP isWhiteSpace).filter (· ≠ [])

end Text

end ContextFree
