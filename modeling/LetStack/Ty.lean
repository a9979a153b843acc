namespace LetStack

inductive Ty where
  | num
  | bool
deriving DecidableEq, Repr

namespace Ty

def keyword : Ty → String
  | num => "num"
  | bool => "bool"

def ofKeyword? (s : String) : Option Ty :=
  [num, bool].find? fun t => t.keyword == s

instance : ToString Ty := ⟨keyword⟩

end Ty

end LetStack
