namespace LetStack.Text

/-- The number that a run of digits spells. -/
def decimal (digits : List Char) : Nat :=
  digits.foldl (fun n d => 10 * n + (d.toNat - '0'.toNat)) 0

/-- Reads an unsigned number of 64 bits, with or without a plus sign. -/
def unsigned64? (s : String) : Option Nat :=
  let digits := match s.toList with
    | '+' :: rest => rest
    | cs => cs
  if digits ≠ [] ∧ digits.all Char.isDigit ∧ decimal digits < 18446744073709551616 then
    some (decimal digits)
  else
    none

end LetStack.Text
