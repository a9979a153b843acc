import LetStack.Code.Frame
import LetStack.Table

namespace LetStack

abbrev Slots := Table Slot

/-- The cells in sight as one table. A local overwrites the cell of its name and remembers what
stood there, so that its release can put that back. -/
structure SlotTable where
  slots : Slots := []
  /-- The names of the locals and the cells that they hid, the newest first. -/
  locals : List (String × Option Slot) := []
  returnOffset? : Option Int := none
deriving DecidableEq, Repr

namespace SlotTable

def forMain : SlotTable := {}

/-- Places the parameters one behind the other. Of several with one name the last is seen. -/
def placeParams : Int → List Param → Slots → Slots
  | _, [], slots => slots
  | offset, p :: ps, slots => placeParams (offset + 1) ps (slots.put p.name ⟨offset, p.ty⟩)

def forFunction (ps : List Param) : SlotTable :=
  { slots := placeParams Frame.firstParam ps [], returnOffset? := some (Frame.returnOffset ps) }

def get? (t : SlotTable) (name : String) : Option Slot := t.slots.lookup name

def declare (t : SlotTable) (name : String) (ty : Ty) (offset : Int) : SlotTable :=
  { t with slots := t.slots.put name ⟨offset, ty⟩, locals := (name, t.get? name) :: t.locals }

/-- Puts back what the newest local hid. Without a local nothing happens. -/
def release (t : SlotTable) : SlotTable :=
  match t.locals with
  | [] => t
  | (name, some slot) :: locals => { t with slots := t.slots.put name slot, locals }
  | (name, none) :: locals => { t with slots := t.slots.remove name, locals }

end SlotTable

end LetStack
