namespace LetStack

/-- Numbers of the language and cells of the machine: 32 bits, two's complement, wrapping. -/
abbrev Word := Int32

namespace Word

def ofBool (b : Bool) : Word := if b then 1 else 0

/-- An address or frame pointer stored in a cell keeps its low 32 bits. -/
def ofAddress (a : Nat) : Word := Int32.ofNat a

def text (w : Word) : String := toString w.toInt

/-- The greatest number that can be written in a program. -/
def greatest : Nat := 2147483647

end Word

end LetStack
