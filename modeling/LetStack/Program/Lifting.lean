import LetStack.Expr.FreeVars
import LetStack.Fault
import LetStack.Program
import LetStack.Text.Numbered

namespace LetStack

/-- What lifting has produced: the functions so far, inner ones first, and the names given out. -/
structure Lifter where
  functions : List Function := []
  used : List String := []
  counters : Text.Counters := []

namespace Lifter

/-- The top-level name of a function in sight and the variables its calls pass on. -/
structure Entry where
  name : String
  captures : FreeVars
deriving DecidableEq, Repr

/-- The functions in sight, innermost first. -/
abbrev Scope := List (String × Entry)

def capturesOf (scope : Scope) (callee : String) : FreeVars :=
  ((scope.lookup callee).map Entry.captures).getD []

def fresh (base : String) (l : Lifter) : String × Lifter :=
  let k := Text.nextFree l.used base (l.counters.count base)
  let name := Text.numbered base k
  (name, { l with used := name :: l.used, counters := l.counters.set base (k + 1) })

def captureParam (v : FreeVar) : Except Fault Param :=
  match v.ty with
  | some ty => .ok ⟨v.name, v.display, ty⟩
  | none => .error (.untypedCapture v.display)

/-- A captured variable, passed on at the place of the call. -/
def captureArg (span : Span) (v : FreeVar) : Expr := .var ⟨span, v.ty⟩ ⟨v.name, v.display⟩

mutual

/-- Moves every function to the top level, with its captures as further parameters, and passes
them in every call. -/
def walk (scope : Scope) : Expr → Lifter → Except Fault (Expr × Lifter)
  | .letFun i f x paramTy resultTy body rest, l => do
    let captures := body.freeVars (capturesOf scope) [f.id, x.id]
    let (name, l) := fresh f.id l
    let params ← captures.mapM captureParam
    -- In sight of the body as well, for the function's calls of itself.
    let scope := (f.id, ⟨name, captures⟩) :: scope
    let (body, l) ← walk scope body l
    let function := ⟨name, ⟨x.id, x.display, paramTy⟩ :: params, resultTy, body, i.span⟩
    walk scope rest { l with functions := l.functions ++ [function] }
  | .apply i f arg, l =>
    match scope.lookup f.id with
    | none => .error (.unliftedFunction f.display)
    | some entry => do
      let (arg, l) ← walk scope arg l
      return (.call i entry.name (arg :: entry.captures.map (captureArg i.span)), l)
  | .letIn i x value body, l => do
    let (value, l) ← walk scope value l
    let (body, l) ← walk scope body l
    return (.letIn i x value body, l)
  | .call i f args, l => do
    let (args, l) ← walkAll scope args l
    return (.call i f args, l)
  | .seq i first second, l => do
    let (first, l) ← walk scope first l
    let (second, l) ← walk scope second l
    return (.seq i first second, l)
  | .binary i op left right, l => do
    let (left, l) ← walk scope left l
    let (right, l) ← walk scope right l
    return (.binary i op left right, l)
  | .var i x, l => return (.var i x, l)
  | .num i n, l => return (.num i n, l)
  | .bool i b, l => return (.bool i b, l)

def walkAll (scope : Scope) : List Expr → Lifter → Except Fault (List Expr × Lifter)
  | [], l => return ([], l)
  | e :: es, l => do
    let (e, l) ← walk scope e l
    let (es, l) ← walkAll scope es l
    return (e :: es, l)

end

end Lifter

def Expr.lift (e : Expr) : Except Fault Program := do
  let (main, l) ← Lifter.walk [] e {}
  return ⟨l.functions, main⟩

end LetStack
