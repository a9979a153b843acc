import LetStack.Word

namespace LetStack

/-- The cells of a machine, all of them zero at first. A stack fills them from the last one down, so
`filled` holds the last cell first, and the cells that it does not reach are still zero. -/
structure Memory where
  size : Nat
  filled : Array Word := #[]
deriving Repr

namespace Memory

def zeros (size : Nat) : Memory := { size }

/-- Where a cell is kept. -/
def place (m : Memory) (address : Nat) : Nat := m.size - 1 - address

def getD (m : Memory) (address : Nat) (w : Word) : Word :=
  if address < m.size then m.filled.getD (m.place address) 0 else w

instance : GetElem? Memory Nat Word fun m address => address < m.size where
  getElem m address _ := m.filled.getD (m.place address) 0
  getElem? m address := if address < m.size then some (m.filled.getD (m.place address) 0) else none

/-- Writes to a place, with zeros in front of it where nothing was kept before. -/
def fill (filled : Array Word) (place : Nat) (w : Word) : Array Word :=
  (filled ++ Array.replicate (place + 1 - filled.size) 0).setIfInBounds place w

/-- There is no cell outside memory to write to. -/
def set (m : Memory) (address : Nat) (w : Word) : Memory :=
  if address < m.size then { m with filled := fill m.filled (m.place address) w } else m

end Memory

end LetStack
