import LetStack.Program

namespace LetStack

/-- A variable's cell, counted from the frame pointer. -/
structure Slot where
  offset : Int
  ty : Ty
deriving DecidableEq, Repr

/-- The cells in sight while one function is compiled, the newest first: locals, then parameters. -/
structure Frame where
  params : List (String × Slot) := []
  locals : List (String × Slot) := []
  returnOffset? : Option Int := none
deriving DecidableEq, Repr

namespace Frame

/-- The saved frame pointer and the return address lie between the frame and its parameters. -/
def firstParam : Int := 2

def forMain : Frame := {}

def paramSlots : Int → List Param → List (String × Slot)
  | _, [] => []
  | offset, p :: ps => paramSlots (offset + 1) ps ++ [(p.name, ⟨offset, p.ty⟩)]

/-- The cell for the result lies behind the parameters. -/
def returnOffset (ps : List Param) : Int := firstParam + ps.length

def forFunction (ps : List Param) : Frame :=
  { params := paramSlots firstParam ps, returnOffset? := some (returnOffset ps) }

def declare (f : Frame) (name : String) (ty : Ty) (offset : Int) : Frame :=
  { f with locals := (name, ⟨offset, ty⟩) :: f.locals }

/-- Forgets the newest local, if there is one. -/
def release (f : Frame) : Frame := { f with locals := f.locals.tail }

def get? (f : Frame) (name : String) : Option Slot := (f.locals ++ f.params).lookup name

end Frame

end LetStack
