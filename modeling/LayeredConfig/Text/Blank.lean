/-!
# Blank characters

The characters with the Unicode property `White_Space`, and trimming them from
the ends of a text. Nothing else counts as blank: a zero-width space does not.
-/

set_option autoImplicit false

namespace LayeredConfig.Text

/-- The property `White_Space`: 25 characters in ten runs. -/
def isBlank (c : Char) : Bool :=
  let n := c.toNat
  (9 ≤ n && n ≤ 13) || n == 0x20 || n == 0x85 || n == 0xA0 || n == 0x1680 ||
    (0x2000 ≤ n && n ≤ 0x200A) || n == 0x2028 || n == 0x2029 || n == 0x202F ||
    n == 0x205F || n == 0x3000

def trimStartBy (p : Char → Bool) (s : String) : String :=
  String.ofList (s.toList.dropWhile p)

def trimEndBy (p : Char → Bool) (s : String) : String :=
  String.ofList (s.toList.reverse.dropWhile p).reverse

def trimBy (p : Char → Bool) (s : String) : String :=
  trimEndBy p (trimStartBy p s)

def trim (s : String) : String := trimBy isBlank s

example : isBlank '\u00a0' = true ∧ isBlank '\u200b' = false := by decide

end LayeredConfig.Text
