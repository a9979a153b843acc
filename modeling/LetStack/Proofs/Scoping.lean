import LetStack.Proofs.ParsedTrees
import LetStack.Proofs.Renaming
import LetStack.Proofs.Typing

namespace LetStack

namespace Renaming

inductive BinderKind where
  | value
  | function
deriving DecidableEq, Repr

structure Binder where
  kind : BinderKind
  display : String
  id : String
deriving DecidableEq, Repr

def nearest (scope : List Binder) (x : String) : Option Binder := scope.find? (·.display == x)

def ids (scope : List Binder) : List String := scope.map Binder.id

theorem nearest_cons_self (scope : List Binder) (b : Binder) :
    nearest (b :: scope) b.display = some b := by
  simp [nearest]

theorem nearest_cons_of_ne (scope : List Binder) {b : Binder} {x : String} (h : b.display ≠ x) :
    nearest (b :: scope) x = nearest scope x := by
  simp [nearest, h]

theorem mem_of_nearest {scope : List Binder} {x : String} {b : Binder}
    (h : nearest scope x = some b) : b ∈ scope :=
  List.mem_of_find?_eq_some h

theorem display_of_nearest {scope : List Binder} {x : String} {b : Binder}
    (h : nearest scope x = some b) : b.display = x := by
  simpa using List.find?_some h

theorem nearest_eq_none_iff {scope : List Binder} {x : String} :
    nearest scope x = none ↔ ∀ b ∈ scope, b.display ≠ x := by
  simp [nearest]

def spellings (scope : List Binder) : Scope := scope.map fun b => (b.display, b.id)

theorem lookup_spellings (scope : List Binder) (x : String) :
    (spellings scope).lookup x = (nearest scope x).map Binder.id := by
  induction scope with
  | nil => rfl
  | cons b scope ih =>
    by_cases hb : b.display = x
    · subst hb
      simp [spellings, nearest_cons_self]
    · rw [nearest_cons_of_ne scope hb, ← ih]
      exact lookup_cons_of_ne (Ne.symm hb)

/-- An occurrence of a variable, or of a function that is called, with the binders around it,
innermost first. -/
structure Use where
  kind : BinderKind
  name : Name
  span : Span
  around : List Binder
deriving DecidableEq, Repr

namespace Use

def Unbound (u : Use) : Prop := ∀ b ∈ u.around, b.display ≠ u.name.display

/-- A binder around has the spelling and binds what the use is of. -/
def Owned (u : Use) : Prop := ∃ b ∈ u.around, b.kind = u.kind ∧ b.display = u.name.display

def Seen (u : Use) : Prop := ∃ b ∈ u.around, b.kind = u.kind ∧ b.id = u.name.id

/-- The nearest binder of the spelling binds something else than the use is of. -/
def Astray (u : Use) : Prop :=
  ∃ b ∈ nearest u.around u.name.display, b.kind ≠ u.kind

instance (u : Use) : Decidable u.Unbound := inferInstanceAs (Decidable (∀ b ∈ u.around, _))

instance (u : Use) : Decidable u.Owned := inferInstanceAs (Decidable (∃ b ∈ u.around, _))

instance (u : Use) : Decidable u.Astray :=
  inferInstanceAs (Decidable (∃ b ∈ nearest u.around u.name.display, _))

end Use

end Renaming

open Renaming

def Name.binder (kind : BinderKind) (x : Name) : Binder := ⟨kind, x.display, x.id⟩

def Name.writtenIn (bound : List String) (x : Name) : Name :=
  if x.display ∈ bound then .plain x.display else x

@[simp] theorem Name.display_writtenIn (bound : List String) (x : Name) :
    (x.writtenIn bound).display = x.display := by
  unfold writtenIn
  split <;> rfl

namespace Expr

mutual

/-- The uses of names in a tree. The value of a `let` is outside of its binding; a function is in
sight in its body and behind it, a parameter in the body only. -/
def uses (around : List Binder) : Expr → List Use
  | letIn _ x value body => value.uses around ++ body.uses (x.binder .value :: around)
  | letFun _ f x _ _ body rest =>
    body.uses (x.binder .value :: f.binder .function :: around) ++
      rest.uses (f.binder .function :: around)
  | apply i f arg => ⟨.function, f, i.span, around⟩ :: arg.uses around
  | call _ _ args => usesOf around args
  | seq _ a b | binary _ _ a b => a.uses around ++ b.uses around
  | var i x => [⟨.value, x, i.span, around⟩]
  | num .. | bool .. => []

def usesOf (around : List Binder) : List Expr → List Use
  | [] => []
  | e :: es => e.uses around ++ usesOf around es

end

mutual

/-- The tree with its binders, and the uses that have one, named as they are written. -/
def asWritten (bound : List String) : Expr → Expr
  | letIn i x value body =>
    letIn i (.plain x.display) (value.asWritten bound) (body.asWritten (x.display :: bound))
  | letFun i f x paramTy resultTy body rest =>
    letFun i (.plain f.display) (.plain x.display) paramTy resultTy
      (body.asWritten (x.display :: f.display :: bound)) (rest.asWritten (f.display :: bound))
  | apply i f arg => apply i (f.writtenIn bound) (arg.asWritten bound)
  | call i f args => call i f (asWrittenAll bound args)
  | seq i a b => seq i (a.asWritten bound) (b.asWritten bound)
  | binary i op a b => binary i op (a.asWritten bound) (b.asWritten bound)
  | var i x => var i (x.writtenIn bound)
  | num i n => num i n
  | bool i b => bool i b

def asWrittenAll (bound : List String) : List Expr → List Expr
  | [] => []
  | e :: es => e.asWritten bound :: asWrittenAll bound es

end

theorem mem_usesOf {around : List Binder} {es : List Expr} {u : Use} :
    u ∈ usesOf around es ↔ ∃ e ∈ es, u ∈ e.uses around := by
  induction es with
  | nil => simp [usesOf]
  | cons e es ih => simp [usesOf, ih]

end Expr

namespace Renaming

def Binder.asWritten (b : Binder) : Binder := ⟨b.kind, b.display, b.display⟩

def Use.asWritten (u : Use) : Use :=
  ⟨u.kind, u.name.writtenIn (u.around.map Binder.display), u.span, u.around.map Binder.asWritten⟩

theorem nearest_asWritten (around : List Binder) (x : String) :
    nearest (around.map Binder.asWritten) x = (nearest around x).map Binder.asWritten :=
  List.find?_map ..

namespace Use

@[simp] theorem asWritten_unbound (u : Use) : u.asWritten.Unbound ↔ u.Unbound := by
  simp [Unbound, asWritten, Binder.asWritten]

@[simp] theorem asWritten_owned (u : Use) : u.asWritten.Owned ↔ u.Owned := by
  simp only [Owned, asWritten, List.mem_map, Name.display_writtenIn]
  constructor
  · rintro ⟨_, ⟨b, hb, rfl⟩, hkind, hdisplay⟩
    exact ⟨b, hb, hkind, hdisplay⟩
  · rintro ⟨b, hb, hkind, hdisplay⟩
    exact ⟨b.asWritten, ⟨b, hb, rfl⟩, hkind, hdisplay⟩

@[simp] theorem asWritten_astray (u : Use) : u.asWritten.Astray ↔ u.Astray := by
  simp only [Astray, asWritten, nearest_asWritten, Option.mem_def, Option.map_eq_some_iff,
    Name.display_writtenIn]
  constructor
  · rintro ⟨_, ⟨b, hb, rfl⟩, hkind⟩
    exact ⟨b, hb, hkind⟩
  · rintro ⟨b, hb, hkind⟩
    exact ⟨b.asWritten, ⟨b, hb, rfl⟩, hkind⟩

end Use

end Renaming

namespace Expr

theorem usesOf_asWrittenAll {around : List Binder} {es : List Expr}
    (h : ∀ e ∈ es, (e.asWritten (around.map Binder.display)).uses (around.map Binder.asWritten) =
      (e.uses around).map Use.asWritten) :
    usesOf (around.map Binder.asWritten) (asWrittenAll (around.map Binder.display) es) =
      (usesOf around es).map Use.asWritten := by
  induction es with
  | nil => rfl
  | cons e es ih =>
    simp only [asWrittenAll, usesOf, List.map_append, h e (by simp), ih fun a ha =>
      h a (by simp [ha])]

/-- The uses of a tree as written are the uses of the tree, as written. -/
theorem uses_asWritten (e : Expr) (around : List Binder) :
    (e.asWritten (around.map Binder.display)).uses (around.map Binder.asWritten) =
      (e.uses around).map Use.asWritten := by
  induction e generalizing around with
  | letIn i x value body ihv ihb =>
    simp only [asWritten, uses, List.map_append, ihv]
    exact congrArg _ (ihb (x.binder .value :: around))
  | letFun i f x paramTy resultTy body rest ihb ihr =>
    have hbody := ihb (x.binder .value :: f.binder .function :: around)
    have hrest := ihr (f.binder .function :: around)
    rw [uses, List.map_append, ← hbody, ← hrest]
    rfl
  | apply i f arg ih =>
    simp only [asWritten, uses, List.map_cons, ih]
    rfl
  | call i f args ih => exact usesOf_asWrittenAll fun a ha => ih a ha around
  | seq i a b iha ihb | binary i op a b iha ihb =>
    simp only [asWritten, uses, List.map_append, iha, ihb]
  | var i x => rfl
  | num | bool => rfl

end Expr

namespace Renaming

theorem writtenIn_use (scope : Scope) (x : Name) :
    (use scope x).writtenIn (scope.map Prod.fst) = x.writtenIn (scope.map Prod.fst) := by
  by_cases hx : x.display ∈ scope.map Prod.fst
  · simp [Name.writtenIn, use, hx]
  · have hlookup : scope.lookup x.display = none := by
      rw [List.lookup_eq_none_iff]
      intro p hp
      simpa using fun heq => hx (List.mem_map.mpr ⟨p, hp, heq.symm⟩)
    simp [use, hlookup]

theorem walkAll_asWritten {es : List Expr} {scope : Scope} {r : Renaming}
    (hwalk : ∀ e ∈ es, ∀ r : Renaming, (walk scope e r).1.asWritten (scope.map Prod.fst) =
      e.asWritten (scope.map Prod.fst)) :
    Expr.asWrittenAll (scope.map Prod.fst) (walkAll scope es r).1 =
      Expr.asWrittenAll (scope.map Prod.fst) es := by
  induction es generalizing r with
  | nil => rfl
  | cons e es ih =>
    simp only [walkAll, Expr.asWrittenAll, hwalk e (by simp), ih fun a ha => hwalk a (by simp [ha])]

/-- Renaming changes nothing but the names of binders and of their uses. -/
theorem walk_asWritten (e : Expr) (scope : Scope) (r : Renaming) :
    (walk scope e r).1.asWritten (scope.map Prod.fst) = e.asWritten (scope.map Prod.fst) := by
  induction e generalizing scope r with
  | letIn i x value body ihv ihb =>
    simp only [walk, Expr.asWritten, ihv]
    exact congrArg _ (ihb (see (bind x (walk scope value r).2).1 scope) _)
  | letFun i f x paramTy resultTy body rest ihb ihr =>
    let g := (bind f r).1
    let y := (bind x (bind f r).2).1
    have hbody (r : Renaming) := ihb (see y (see g scope)) r
    have hrest (r : Renaming) := ihr (see g scope) r
    simp only [see, List.map_cons] at hbody hrest
    simp only [walk, Expr.asWritten]
    exact congr (congrArg _ (hbody _)) (hrest _)
  | apply i f arg ih => simp only [walk, Expr.asWritten, ih, writtenIn_use]
  | call i f args ih =>
    simp only [walk, Expr.asWritten, walkAll_asWritten fun a ha => ih a ha scope]
  | seq i a b iha ihb | binary i op a b iha ihb => simp only [walk, Expr.asWritten, iha, ihb]
  | var i x => simp only [walk, Expr.asWritten, writtenIn_use]
  | num | bool => rfl

theorem use_id_of_nearest (scope : List Binder) (x : Name) :
    ∀ b ∈ nearest scope x.display, (use (spellings scope) x).id = b.id := by
  intro b hb
  simp [use, lookup_spellings, Option.mem_def.mp hb]

/-- A use that has a binder takes the name of the nearest one. -/
theorem walk_uses (e : Expr) (scope : List Binder) (r : Renaming) :
    ∀ u ∈ (walk (spellings scope) e r).1.uses scope,
      ∀ b ∈ nearest u.around u.name.display, u.name.id = b.id := by
  induction e generalizing scope r with
  | letIn i x value body ihv ihb =>
    simp only [walk, Expr.uses, List.forall_mem_append]
    let y := (bind x (walk (spellings scope) value r).2).1
    exact ⟨ihv scope r, ihb (y.binder .value :: scope) _⟩
  | letFun i f x paramTy resultTy body rest ihb ihr =>
    simp only [walk, Expr.uses, List.forall_mem_append]
    let g := (bind f r).1
    let y := (bind x (bind f r).2).1
    exact ⟨ihb (y.binder .value :: g.binder .function :: scope) _,
      ihr (g.binder .function :: scope) _⟩
  | apply i f arg ih =>
    simp only [walk, Expr.uses, List.forall_mem_cons]
    exact ⟨use_id_of_nearest scope f, ih scope r⟩
  | call i f args ih =>
    intro u hu
    obtain ⟨a', ha', hu⟩ := Expr.mem_usesOf.mp hu
    obtain ⟨a, ha, r', -, rfl⟩ := mem_walkAll ha'
    exact ih a ha scope r' u hu
  | seq i a b iha ihb | binary i op a b iha ihb =>
    simp only [walk, Expr.uses, List.forall_mem_append]
    exact ⟨iha scope r, ihb scope _⟩
  | var i x =>
    simp only [walk, Expr.uses, List.forall_mem_singleton]
    exact use_id_of_nearest scope x
  | num | bool => simp [walk, Expr.uses]

def after (history : List Expr) : Renaming := history.foldl (fun r e => (r.resolve e).2) {}

/-- Whatever was renamed before, all binders of a renamed tree get different names, each use with a
binder of its spelling around it has the name of the nearest one, and all else stays as it is: with
the bound names put back as they are written, the tree before and after is one and the same. -/
theorem resolve_alpha_renames (history : List Expr) (e : Expr) :
    let e' := ((after history).resolve e).1
    e'.binderIds.Nodup ∧
      (∀ u ∈ e'.uses [], ∀ b ∈ nearest u.around u.name.display, u.name.id = b.id) ∧
      e'.asWritten [] = e.asWritten [] :=
  ⟨resolve_binderIds_nodup _ e, walk_uses e [] _, walk_asWritten e [] _⟩

/-- A binder is renamed by its spelling alone. -/
theorem bind_plain (x : Name) (r : Renaming) : bind (.plain x.display) r = bind x r := rfl

theorem use_writtenIn (scope : Scope) (x : Name) :
    use scope (x.writtenIn (scope.map Prod.fst)) = use scope x := by
  by_cases hx : x.display ∈ scope.map Prod.fst
  · obtain ⟨id, hid⟩ : ∃ id, scope.lookup x.display = some id := by
      rw [← Option.isSome_iff_exists, Option.isSome_iff_ne_none, ne_eq, List.lookup_eq_none_iff]
      obtain ⟨p, hp, hdisplay⟩ := List.mem_map.mp hx
      exact fun hnone => by simpa [hdisplay] using hnone p hp
    simp [Name.writtenIn, hx, use, Name.plain, hid]
  · simp [Name.writtenIn, hx]

theorem walkAll_of_asWritten {es : List Expr} {scope : Scope} {r : Renaming}
    (hwalk : ∀ e ∈ es, ∀ r : Renaming, walk scope (e.asWritten (scope.map Prod.fst)) r =
      walk scope e r) :
    walkAll scope (Expr.asWrittenAll (scope.map Prod.fst) es) r = walkAll scope es r := by
  induction es generalizing r with
  | nil => rfl
  | cons e es ih =>
    simp only [Expr.asWrittenAll, walkAll, hwalk e (by simp), ih fun a ha => hwalk a (by simp [ha])]

/-- Renaming sees no more of a tree than how its bound names are written. -/
theorem walk_of_asWritten (e : Expr) (scope : Scope) (r : Renaming) :
    walk scope (e.asWritten (scope.map Prod.fst)) r = walk scope e r := by
  induction e generalizing scope r with
  | letIn i x value body ihv ihb =>
    let y := (bind x (walk scope value r).2).1
    have hbody : walk (see y scope) (body.asWritten (x.display :: scope.map Prod.fst)) =
      walk (see y scope) body := funext (ihb (see y scope))
    simp only [Expr.asWritten, walk, ihv, bind_plain]
    rw [hbody]
  | letFun i f x paramTy resultTy body rest ihb ihr =>
    let g := (bind f r).1
    let y := (bind x (bind f r).2).1
    have hbody : walk (see y (see g scope))
        (body.asWritten (x.display :: f.display :: scope.map Prod.fst)) =
      walk (see y (see g scope)) body := funext (ihb (see y (see g scope)))
    have hrest : walk (see g scope) (rest.asWritten (f.display :: scope.map Prod.fst)) =
      walk (see g scope) rest := funext (ihr (see g scope))
    simp only [Expr.asWritten, walk, bind_plain]
    rw [hbody, hrest]
  | apply i f arg ih => simp only [Expr.asWritten, walk, ih, use_writtenIn]
  | call i f args ih =>
    simp only [Expr.asWritten, walk, walkAll_of_asWritten fun a ha => ih a ha scope]
  | seq i a b iha ihb | binary i op a b iha ihb => simp only [Expr.asWritten, walk, iha, ihb]
  | var i x => simp only [Expr.asWritten, walk, use_writtenIn]
  | num | bool => rfl

theorem bindersOf_asWrittenAll {es : List Expr} {bound : List String}
    (h : ∀ e ∈ es, (e.asWritten bound).binders = e.binders) :
    Expr.bindersOf (Expr.asWrittenAll bound es) = Expr.bindersOf es := by
  induction es with
  | nil => rfl
  | cons e es ih =>
    simp only [Expr.asWrittenAll, Expr.bindersOf, h e (by simp), ih fun a ha => h a (by simp [ha])]

theorem binders_asWritten (e : Expr) (bound : List String) :
    (e.asWritten bound).binders = e.binders := by
  induction e generalizing bound with
  | letIn i x value body ihv ihb => simp only [Expr.asWritten, Expr.binders, ihv, ihb, Name.plain]
  | letFun i f x paramTy resultTy body rest ihb ihr =>
    simp only [Expr.asWritten, Expr.binders, ihb, ihr, Name.plain]
  | apply i f arg ih => simp only [Expr.asWritten, Expr.binders, ih]
  | call i f args ih =>
    simp only [Expr.asWritten, Expr.binders, bindersOf_asWrittenAll fun a ha => ih a ha bound]
  | seq i a b iha ihb | binary i op a b iha ihb => simp only [Expr.asWritten, Expr.binders, iha, ihb]
  | var | num | bool => rfl

theorem resolve_of_asWritten (r : Renaming) (e : Expr) :
    r.resolve (e.asWritten []) = r.resolve e := by
  rw [resolve, binders_asWritten]
  exact walk_of_asWritten e [] _

/-- A renaming forgets what an earlier one has made of a tree. -/
theorem resolve_resolve (r s : Renaming) (e : Expr) : r.resolve (s.resolve e).1 = r.resolve e := by
  rw [← resolve_of_asWritten, ← resolve_of_asWritten r e]
  exact congrArg r.resolve (walk_asWritten e [] _)

/-- Renaming is idempotent. A renamed tree is renamed to itself, and more than that: whatever two
renamings have been through before, the second makes the same of a tree that the first has renamed
as of the tree itself, and is left in the same state. -/
theorem resolve_idempotent (e : Expr) :
    e.resolve.resolve = e.resolve ∧ ∀ r s : Renaming, r.resolve (s.resolve e).1 = r.resolve e :=
  ⟨congrArg Prod.fst (resolve_resolve {} {} e), fun r s => resolve_resolve r s e⟩

end Renaming

namespace Expr

theorem usesOf_unmarkAll {around : List Binder} {es : List Expr}
    (h : ∀ e ∈ es, e.unmark.uses around = e.uses around) :
    usesOf around (unmarkAll es) = usesOf around es := by
  induction es with
  | nil => rfl
  | cons e es ih => simp only [unmarkAll, usesOf, h e (by simp), ih fun a ha => h a (by simp [ha])]

theorem uses_unmark (e : Expr) (around : List Binder) : e.unmark.uses around = e.uses around := by
  induction e generalizing around with
  | letIn i x a b iha ihb => simp only [unmark, uses, iha, ihb]
  | letFun i f x _ _ a b iha ihb => simp only [unmark, uses, iha, ihb]
  | apply i f arg ih =>
    simp only [unmark, uses, ih]
    rfl
  | call i f args ih => exact usesOf_unmarkAll fun a ha => ih a ha around
  | seq i a b iha ihb => simp only [unmark, uses, iha, ihb]
  | binary i op a b iha ihb => simp only [unmark, uses, iha, ihb]
  | var | num | bool => rfl

/-- Where no binder hides another, those around a use all have different names. -/
theorem NoShadow.nodup_around {e : Expr} {around : List Binder} (h : e.NoShadow (ids around))
    (hnodup : (ids around).Nodup) : ∀ u ∈ e.uses around, (ids u.around).Nodup := by
  induction e generalizing around with
  | letIn i x value body ihv ihb =>
    obtain ⟨hvalue, hx, hbody⟩ := h
    simp only [uses, List.forall_mem_append]
    exact ⟨ihv hvalue hnodup, ihb hbody (List.nodup_cons.mpr ⟨hx, hnodup⟩)⟩
  | letFun i f x paramTy resultTy body rest ihb ihr =>
    obtain ⟨hf, hx, hbody, hrest⟩ := h
    have hnodupF := List.nodup_cons.mpr ⟨hf, hnodup⟩
    simp only [uses, List.forall_mem_append]
    exact ⟨ihb hbody (List.nodup_cons.mpr ⟨hx, hnodupF⟩), ihr hrest hnodupF⟩
  | apply i f arg ih =>
    simp only [uses, List.forall_mem_cons]
    exact ⟨hnodup, ih h hnodup⟩
  | call i f args ih =>
    intro u hu
    obtain ⟨a, ha, hu⟩ := mem_usesOf.mp hu
    exact ih a ha (noShadowOf_iff.mp h a ha) hnodup u hu
  | seq i a b iha ihb | binary i op a b iha ihb =>
    simp only [uses, List.forall_mem_append]
    exact ⟨iha h.1 hnodup, ihb h.2 hnodup⟩
  | var i x =>
    simp only [uses, List.forall_mem_singleton]
    exact hnodup
  | num | bool => simp [uses]

theorem Plain.asWritten_eq {e : Expr} (h : e.Plain) (bound : List String) :
    e.asWritten bound = e := by
  have hname {x : Name} (hx : x.id = x.display) : Name.plain x.display = x := by
    obtain ⟨s, rfl⟩ := Name.eq_plain hx
    rfl
  have hwritten {x : Name} (hx : x.id = x.display) (bound : List String) :
      x.writtenIn bound = x := by
    rw [Name.writtenIn, hname hx, ite_self]
  induction e generalizing bound with
  | letIn i x value body ihv ihb =>
    rw [asWritten, hname h.1, ihv h.2.1, ihb h.2.2]
  | letFun i f x paramTy resultTy body rest ihb ihr =>
    rw [asWritten, hname h.1, hname h.2.1, ihb h.2.2.1, ihr h.2.2.2]
  | apply i f arg ih => rw [asWritten, hwritten h.1, ih h.2]
  | call => exact h.elim
  | seq i a b iha ihb | binary i op a b iha ihb => rw [asWritten, iha h.1, ihb h.2]
  | var i x => rw [asWritten, hwritten h]
  | num | bool => rfl

/-- The uses in a plain tree are those of the renamed tree, as written. -/
theorem Plain.uses_eq {e : Expr} (h : e.Plain) :
    e.uses [] = (e.resolve.uses []).map Use.asWritten := by
  have hresolve : e.resolve.asWritten [] = e.asWritten [] := walk_asWritten e [] _
  calc e.uses [] = (e.resolve.asWritten []).uses [] := by rw [hresolve, h.asWritten_eq]
    _ = (e.resolve.uses []).map Use.asWritten := uses_asWritten e.resolve []

theorem Plain.asWritten_mem {e : Expr} {u : Use} (h : e.Plain) (hu : u ∈ e.resolve.uses []) :
    u.asWritten ∈ e.uses [] := by
  rw [h.uses_eq]
  exact List.mem_map_of_mem hu

structure Sees (around : List Binder) (s : Scopes) : Prop where
  vars : ∀ x ∈ s.vars.map Prod.fst, ∃ b ∈ around, b.kind = .value ∧ b.id = x
  funs : ∀ f ∈ s.funs.map Prod.fst, ∃ b ∈ around, b.kind = .function ∧ b.id = f

namespace Sees

variable {around : List Binder} {s : Scopes}

theorem var (h : Sees around s) (x : Name) (t : Ty) :
    Sees (x.binder .value :: around) (s.var x.id t) := by
  constructor
  · intro y hy
    rcases List.mem_cons.mp hy with rfl | hy
    · exact ⟨_, List.mem_cons_self, rfl, rfl⟩
    · obtain ⟨b, hb, hkind⟩ := h.vars y hy
      exact ⟨b, List.mem_cons_of_mem _ hb, hkind⟩
  · intro f hf
    obtain ⟨b, hb, hkind⟩ := h.funs f hf
    exact ⟨b, List.mem_cons_of_mem _ hb, hkind⟩

theorem arrow (h : Sees around s) (f : Name) (a : Arrow) :
    Sees (f.binder .function :: around) (s.arrow f.id a) := by
  constructor
  · intro x hx
    obtain ⟨b, hb, hkind⟩ := h.vars x hx
    exact ⟨b, List.mem_cons_of_mem _ hb, hkind⟩
  · intro g hg
    rcases List.mem_cons.mp hg with rfl | hg
    · exact ⟨_, List.mem_cons_self, rfl, rfl⟩
    · obtain ⟨b, hb, hkind⟩ := h.funs g hg
      exact ⟨b, List.mem_cons_of_mem _ hb, hkind⟩

end Sees

theorem Typed.uses_seen {around : List Binder} {s : Scopes} {e : Expr} {t : Ty}
    (h : Typed s e t) (hs : Sees around s) : ∀ u ∈ e.uses around, u.Seen := by
  induction e generalizing around s t with
  | letIn i x value body ihv ihb =>
    cases h with
    | letIn _ hv hb =>
      simp only [uses, List.forall_mem_append]
      exact ⟨ihv hv hs, ihb hb (hs.var _ _)⟩
  | letFun i f x paramTy resultTy body rest ihb ihr =>
    cases h with
    | letFun _ hb hr =>
      simp only [uses, List.forall_mem_append]
      -- The body sees the function itself below its parameter; `rest` sees the function only.
      exact ⟨ihb hb ((hs.arrow _ _).var _ _), ihr hr (hs.arrow _ _)⟩
  | apply i f arg ih =>
    cases h with
    | apply _ hf ha =>
      simp only [uses, List.forall_mem_cons]
      exact ⟨hs.funs _ (mem_keys_of_lookup hf), ih ha hs⟩
  | call i f args ih =>
    cases h with
    | call _ _ hargs =>
      intro u hu
      obtain ⟨a, ha, hu⟩ := mem_usesOf.mp hu
      obtain ⟨t, ht⟩ := hargs.exists_of_mem ha
      exact ih a ha ht hs u hu
  | seq i a b iha ihb =>
    cases h with
    | seq _ ha hb =>
      simp only [uses, List.forall_mem_append]
      exact ⟨iha ha hs, ihb hb hs⟩
  | binary i op a b iha ihb =>
    cases h with
    | binary _ ha hb _ =>
      simp only [uses, List.forall_mem_append]
      exact ⟨iha ha hs, ihb hb hs⟩
  | var i x =>
    cases h with
    | var _ hx =>
      simp only [uses, List.forall_mem_singleton]
      exact hs.vars _ (mem_keys_of_lookup hx)
  | num | bool => simp [uses]

/-- Where the check succeeds, every use has the name of a binder around it that binds what the use
is of. -/
theorem uses_seen_of_typecheck {e : Expr} {t : Ty} (h : e.typecheck.outcome = .ok t) :
    ∀ u ∈ e.uses [], u.Seen := by
  obtain ⟨htyped, hunmark⟩ := typecheck_typed h
  have hsees : Sees [] {} := ⟨by simp, by simp⟩
  have hseen := htyped.uses_seen hsees
  rwa [← uses_unmark, hunmark, uses_unmark] at hseen

end Expr

end LetStack
