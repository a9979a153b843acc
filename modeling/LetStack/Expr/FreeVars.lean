import LetStack.Expr

namespace LetStack

/-- A variable that a piece of program uses and does not bind. -/
structure FreeVar where
  name : String
  display : String
  ty : Option Ty
deriving DecidableEq, Repr

/-- Free variables in order of first occurrence, one for each name. -/
abbrev FreeVars := List FreeVar

namespace FreeVars

def names (s : FreeVars) : List String := s.map FreeVar.name

def has (s : FreeVars) (name : String) : Bool := s.any fun v => v.name == name

/-- The first occurrence of a name is the one that is kept. -/
def add (s : FreeVars) (v : FreeVar) : FreeVars := if s.has v.name then s else s ++ [v]

def addUnbound (bound : List String) (s : FreeVars) (v : FreeVar) : FreeVars :=
  if v.name ∈ bound then s else s.add v

end FreeVars

namespace Expr

mutual

/-- Adds the free variables of a tree to those found before it. A call also uses what `captures`
says of its callee. -/
def collectFree (captures : String → List FreeVar) (bound : List String) (s : FreeVars) :
    Expr → FreeVars
  | letIn _ x value body =>
    body.collectFree captures (x.id :: bound) (value.collectFree captures bound s)
  | letFun _ f x _ _ body rest =>
    rest.collectFree captures (f.id :: bound)
      (body.collectFree captures (x.id :: f.id :: bound) s)
  | apply _ f arg =>
    arg.collectFree captures bound ((captures f.id).foldl (FreeVars.addUnbound bound) s)
  | call _ _ args => collectFreeOf captures bound s args
  | seq _ a b | binary _ _ a b => b.collectFree captures bound (a.collectFree captures bound s)
  | var i x => s.addUnbound bound ⟨x.id, x.display, i.ty⟩
  | num .. | bool .. => s

def collectFreeOf (captures : String → List FreeVar) (bound : List String) (s : FreeVars) :
    List Expr → FreeVars
  | [] => s
  | e :: es => collectFreeOf captures bound (e.collectFree captures bound s) es

end

def freeVars (captures : String → List FreeVar) (bound : List String) (e : Expr) : FreeVars :=
  e.collectFree captures bound []

end Expr

end LetStack
