import LetStack.Expr.FreeVars
import LetStack.Table

namespace LetStack

/-- A search for free variables on its way: how many binders bind each name at the moment, and what
was found so far. A name that nothing binds has no count. -/
structure Analyzer where
  counts : Table Nat := []
  free : FreeVars := []
deriving DecidableEq, Repr

namespace Analyzer

def binds (a : Analyzer) (name : String) : Bool := (a.counts.lookup name).isSome

def bind (a : Analyzer) (name : String) : Analyzer :=
  { a with counts := a.counts.put name ((a.counts.lookup name).getD 0 + 1) }

/-- Takes one binder back. The count of a name goes with its last binder. -/
def unbind (a : Analyzer) (name : String) : Analyzer :=
  match a.counts.lookup name with
  | none => a
  | some n =>
    { a with
      counts := if n - 1 = 0 then a.counts.remove name else a.counts.put name (n - 1) }

def see (a : Analyzer) (v : FreeVar) : Analyzer :=
  if a.binds v.name then a else { a with free := a.free.add v }

def withBound (names : List String) : Analyzer := names.foldl bind {}

mutual

def visit (captures : String → List FreeVar) : Expr → Analyzer → Analyzer
  | .letIn _ x value body, a =>
    let a := (visit captures value a).bind x.id
    (visit captures body a).unbind x.id
  | .letFun _ f x _ _ body rest, a =>
    let a := (a.bind f.id).bind x.id
    let a := (visit captures body a).unbind x.id
    (visit captures rest a).unbind f.id
  | .apply _ f arg, a => visit captures arg ((captures f.id).foldl see a)
  | .call _ _ args, a => visitAll captures args a
  | .seq _ x y, a | .binary _ _ x y, a => visit captures y (visit captures x a)
  | .var i x, a => a.see ⟨x.id, x.display, i.ty⟩
  | .num .., a | .bool .., a => a

def visitAll (captures : String → List FreeVar) : List Expr → Analyzer → Analyzer
  | [], a => a
  | e :: es, a => visitAll captures es (visit captures e a)

end

/-- The names are bound throughout. A call also uses what `captures` says of its callee. -/
def analyze (captures : String → List FreeVar) (bound : List String) (e : Expr) : FreeVars :=
  (visit captures e (withBound bound)).free

end Analyzer

end LetStack
