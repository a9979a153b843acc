import LetStack.Expr

namespace LetStack

/-- A later stage met something that the stages before it never leave behind. -/
inductive Fault where
  | unliftedFunction (name : String)
  | unresolvedLabel (label : String)
  | duplicateLabel (label : String)
  | unexpectedForm (form : Form)
  | unboundOffset (name : String)
  | untypedCapture (name : String)
  | untypedNode (form : Form) (span : Span)
deriving DecidableEq, Repr

def Fault.message : Fault → String
  | unliftedFunction name => s!"internal error: call to '{name}' has no lifted function"
  | unresolvedLabel label => s!"internal error: unresolved label '{label}'"
  | duplicateLabel label => s!"internal error: duplicate label '{label}'"
  | unexpectedForm form => s!"internal error: unexpected {form} node during code generation"
  | unboundOffset name => s!"internal error: no frame offset for '{name}'"
  | untypedCapture name => s!"internal error: missing type for captured variable '{name}'"
  | untypedNode form span => s!"internal error: missing type for {form} at {span}"

end LetStack
