/-!
# Blank characters

A blank is a character with the Unicode property White_Space. Core knows no such property, so a
table lists its code points.
-/
namespace LoxLexer

/-- The code points with the property White_Space, as closed ranges in rising order. -/
def blankRanges : List (Nat × Nat) :=
  [(0x09, 0x0D), (0x20, 0x20), (0x85, 0x85), (0xA0, 0xA0), (0x1680, 0x1680), (0x2000, 0x200A),
    (0x2028, 0x2029), (0x202F, 0x202F), (0x205F, 0x205F), (0x3000, 0x3000)]

def isBlank (c : Char) : Bool :=
  blankRanges.any fun r => r.1 ≤ c.toNat && c.toNat ≤ r.2

theorem isBlank_newline : isBlank '\n' = true := rfl

end LoxLexer
