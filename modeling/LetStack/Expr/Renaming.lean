import LetStack.Expr
import LetStack.Text.Numbered

namespace LetStack

namespace Expr

mutual

/-- The spellings of all binders, as written. -/
def binders : Expr → List String
  | letIn _ x value body => x.display :: (value.binders ++ body.binders)
  | letFun _ f x _ _ body rest => f.display :: x.display :: (body.binders ++ rest.binders)
  | apply _ _ arg => arg.binders
  | call _ _ args => bindersOf args
  | seq _ a b | binary _ _ a b => a.binders ++ b.binders
  | var .. | num .. | bool .. => []

def bindersOf : List Expr → List String
  | [] => []
  | e :: es => e.binders ++ bindersOf es

end

end Expr

/-- Gives each binder a spelling of its own: the first binder of a spelling keeps it, the next ones
are numbered, and numbers that spell a reserved name are passed over. -/
structure Renaming where
  counters : Text.Counters := []
  reserved : List String := []
  renamed : Nat := 0
deriving Repr

namespace Renaming

/-- The binders in sight, innermost first: their spelling as written and the one they were given. -/
abbrev Scope := List (String × String)

def fresh (base : String) (r : Renaming) : String × Renaming :=
  match r.counters.count base with
  -- A spelling that is reserved is still free for the first binder of it.
  | 0 => (base, { r with counters := r.counters.set base 1 })
  | k + 1 =>
    let k := Text.nextFree r.reserved base (k + 1)
    (Text.numbered base k, { r with counters := r.counters.set base (k + 1) })

def bind (x : Name) (r : Renaming) : Name × Renaming :=
  let (id, r) := r.fresh x.display
  ({ x with id }, if id = x.display then r else { r with renamed := r.renamed + 1 })

/-- A use takes the spelling of the nearest binder in sight; without one it stays as it is. -/
def use (scope : Scope) (x : Name) : Name :=
  { x with id := (scope.lookup x.display).getD x.id }

def see (x : Name) (scope : Scope) : Scope := (x.display, x.id) :: scope

mutual

def walk (scope : Scope) : Expr → Renaming → Expr × Renaming
  | .letIn i x value body, r =>
    let (value, r) := walk scope value r
    let (x, r) := bind x r
    let (body, r) := walk (see x scope) body r
    (.letIn i x value body, r)
  | .letFun i f x paramTy resultTy body rest, r =>
    let (f, r) := bind f r
    let (x, r) := bind x r
    let (body, r) := walk (see x (see f scope)) body r
    let (rest, r) := walk (see f scope) rest r
    (.letFun i f x paramTy resultTy body rest, r)
  | .apply i f arg, r =>
    let (arg, r) := walk scope arg r
    (.apply i (use scope f) arg, r)
  | .call i f args, r =>
    let (args, r) := walkAll scope args r
    (.call i f args, r)
  | .seq i first second, r =>
    let (first, r) := walk scope first r
    let (second, r) := walk scope second r
    (.seq i first second, r)
  | .binary i op left right, r =>
    let (left, r) := walk scope left r
    let (right, r) := walk scope right r
    (.binary i op left right, r)
  | .var i x, r => (.var i (use scope x), r)
  | .num i n, r => (.num i n, r)
  | .bool i b, r => (.bool i b, r)

def walkAll (scope : Scope) : List Expr → Renaming → List Expr × Renaming
  | [], r => ([], r)
  | e :: es, r =>
    let (e, r) := walk scope e r
    let (es, r) := walkAll scope es r
    (e :: es, r)

end

/-- Renames a tree. Spellings reserved and numbers given out earlier stay taken. -/
def resolve (r : Renaming) (e : Expr) : Expr × Renaming :=
  walk [] e { r with reserved := e.binders ++ r.reserved }

end Renaming

def Expr.resolve (e : Expr) : Expr := (Renaming.resolve {} e).1

end LetStack
