import LetStack.Expr.Printer
import LetStack.Program

namespace LetStack

def Param.shown (mode : NameMode) (p : Param) : String :=
  match mode with
  | .resolved => p.name
  | .display => p.display

def Function.render (mode : NameMode) (f : Function) : String :=
  let params := f.params.map fun p => " " ++ p.shown mode
  s!"let {f.name}" ++ String.join params ++ " = " ++ f.body.wrap 1 (f.body.render mode)

/-- One line for each function, then the main expression. -/
def Program.render (mode : NameMode) (p : Program) : String :=
  String.join (p.functions.map fun f => f.render mode ++ "\n") ++ p.main.render mode

end LetStack
