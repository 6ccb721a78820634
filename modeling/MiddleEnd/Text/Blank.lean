/-!
# Blank characters

The characters with the Unicode property White_Space, and texts without them at the ends.
-/

namespace MiddleEnd

def blankRanges : List (Nat × Nat) :=
  [(0x9, 0xD), (0x20, 0x20), (0x85, 0x85), (0xA0, 0xA0), (0x1680, 0x1680), (0x2000, 0x200A),
    (0x2028, 0x2029), (0x202F, 0x202F), (0x205F, 0x205F), (0x3000, 0x3000)]

def isBlank (c : Char) : Bool :=
  blankRanges.any fun (first, last) => first ≤ c.toNat && c.toNat ≤ last

def stripBlanks (s : String) : String :=
  let rest := s.toList.dropWhile isBlank
  String.ofList (rest.reverse.dropWhile isBlank).reverse

end MiddleEnd
