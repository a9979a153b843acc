namespace LetStack.Text

/-- The code points with the Unicode property White_Space, as inclusive ranges. -/
def blankRanges : List (Nat × Nat) :=
  [(0x09, 0x0d), (0x20, 0x20), (0x85, 0x85), (0xa0, 0xa0), (0x1680, 0x1680), (0x2000, 0x200a),
    (0x2028, 0x2029), (0x202f, 0x202f), (0x205f, 0x205f), (0x3000, 0x3000)]

def isBlank (c : Char) : Bool :=
  blankRanges.any fun (lo, hi) => lo ≤ c.toNat && c.toNat ≤ hi

def trimEnd (s : String) : String :=
  String.ofList (s.toList.reverse.dropWhile isBlank).reverse

end LetStack.Text
