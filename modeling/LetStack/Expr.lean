import LetStack.BinOp
import LetStack.Span
import LetStack.Ty
import LetStack.Word

namespace LetStack

/-- A name as the program refers to it (`id`) and as its author wrote it (`display`). -/
structure Name where
  id : String
  display : String
deriving DecidableEq, Repr

def Name.plain (s : String) : Name := ⟨s, s⟩

/-- What every node carries: its place in the text and, once checked, its type. -/
structure Info where
  span : Span
  ty : Option Ty
deriving DecidableEq, Repr

def Info.untyped (span : Span) : Info := ⟨span, none⟩

def Info.typed (i : Info) (ty : Ty) : Info := { i with ty := some ty }

/-- Trees of the language. `letFun` binds a function of one parameter, visible in its own body and
in `rest`, and `apply` calls one; `call` calls a function of a lifted program with all arguments. -/
inductive Expr where
  | letIn (info : Info) (name : Name) (value body : Expr)
  | letFun (info : Info) (name param : Name) (paramTy resultTy : Ty) (body rest : Expr)
  | apply (info : Info) (callee : Name) (arg : Expr)
  | call (info : Info) (callee : String) (args : List Expr)
  | seq (info : Info) (first second : Expr)
  | binary (info : Info) (op : BinOp) (left right : Expr)
  | var (info : Info) (name : Name)
  | num (info : Info) (value : Word)
  | bool (info : Info) (value : Bool)

inductive Form where
  | letIn
  | letFun
  | apply
  | call
  | seq
  | binary
  | var
  | num
  | bool
deriving DecidableEq, Repr

def Form.name : Form → String
  | letIn => "let"
  | letFun => "let rec"
  | apply => "application"
  | call => "lifted call"
  | seq => "sequence"
  | binary => "binary operation"
  | var => "variable"
  | num => "number"
  | bool => "boolean"

instance : ToString Form := ⟨Form.name⟩

namespace Expr

def info : Expr → Info
  | letIn i .. | letFun i .. | apply i .. | call i .. | seq i .. | binary i .. | var i .. | num i ..
  | bool i .. => i

def span (e : Expr) : Span := e.info.span

def ty (e : Expr) : Option Ty := e.info.ty

def form : Expr → Form
  | letIn .. => .letIn
  | letFun .. => .letFun
  | apply .. => .apply
  | call .. => .call
  | seq .. => .seq
  | binary .. => .binary
  | var .. => .var
  | num .. => .num
  | bool .. => .bool

mutual

/-- The nodes of a tree, each in front of its parts, the parts in the order of evaluation. -/
def nodes : Expr → List Expr
  | e@(letIn _ _ a b) => e :: (a.nodes ++ b.nodes)
  | e@(letFun _ _ _ _ _ a b) => e :: (a.nodes ++ b.nodes)
  | e@(apply _ _ a) => e :: a.nodes
  | e@(call _ _ args) => e :: nodesOf args
  | e@(seq _ a b) => e :: (a.nodes ++ b.nodes)
  | e@(binary _ _ a b) => e :: (a.nodes ++ b.nodes)
  | e@(var ..) => [e]
  | e@(num ..) => [e]
  | e@(bool ..) => [e]

def nodesOf : List Expr → List Expr
  | [] => []
  | e :: es => e.nodes ++ nodesOf es

end

def any (p : Expr → Bool) (e : Expr) : Bool := e.nodes.any p

end Expr

end LetStack
