import LetStack.Code.Generation
import LetStack.Code.Linking
import LetStack.Evaluation
import LetStack.Expr.Parser
import LetStack.Expr.Renaming
import LetStack.Machine.Run
import LetStack.Program.Lifting
import LetStack.Typing.Check

namespace LetStack

/-- The part of the work that an error belongs to. -/
inductive Phase where
  | parsing
  | typing
  | internals
  | evaluation
  | execution
deriving DecidableEq, Repr

inductive Error where
  | parse (error : ParseError)
  | type (error : TypeError)
  | fault (fault : Fault)
  | eval (stop : Stop)
  | machine (error : MachineError)
deriving DecidableEq, Repr

namespace Error

def phase : Error → Phase
  | parse _ => .parsing
  | type _ => .typing
  | fault _ => .internals
  | eval _ => .evaluation
  | machine _ => .execution

def message : Error → String
  | parse e => e.message
  | type e => e.message
  | fault f => f.message
  | eval (.failed e) => e.message
  | eval .tooDeep => "calls are nested too deeply"
  | machine e => e.message

end Error

/-- A compiled expression, with the results of the stages in between if they were asked for. -/
structure Build where
  ty : Ty
  checked : Option Expr
  program : Program
  unlinked : Option Module
  module : Module

/-- Renames, checks, lifts, generates and links. -/
def compile (e : Expr) (keepStages : Bool := false) : Except Error Build := do
  let checked := e.resolve.typecheck
  let ty ← checked.outcome.mapError .type
  let program ← checked.item.lift.mapError .fault
  let unlinked ← program.generate.mapError .fault
  let (module, outcome) := unlinked.link
  let _ ← outcome.mapError .fault
  return {
    ty
    checked := if keepStages then some checked.item else none
    program
    unlinked := if keepStages then some unlinked else none
    module }

def compileSource (source : String) (keepStages : Bool := false) : Except Error Build := do
  let e ← (parse source).mapError .parse
  compile e keepStages

def runSource (source : String) : Except Error Word := do
  let build ← compileSource source
  build.module.execute.mapError .machine

def evaluateSource (source : String) : Except Error Value := do
  let e ← (parse source).mapError .parse
  e.evaluate.mapError .eval

end LetStack
