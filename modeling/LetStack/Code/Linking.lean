import LetStack.Code.Module
import LetStack.Fault

namespace LetStack.Module

/-- Where each label is marked. -/
abbrev Labels := List (String × Nat)

def marks? (i : Instruction) : Option String := if i.op = .label then i.label? else none

def refersTo? (i : Instruction) : Option String := if i.op.controlTransfer then i.label? else none

/-- Adds the labels marked in code that starts at `index` to those marked before it. -/
def collectLabels (labels : Labels) (index : Nat) : List Instruction → Except Fault Labels
  | [] => .ok labels
  | i :: is =>
    match marks? i with
    | none => collectLabels labels (index + 1) is
    | some name =>
      match labels.lookup name with
      | some _ => .error (.duplicateLabel name)
      | none => collectLabels ((name, index) :: labels) (index + 1) is

/-- Replaces the labels of control transfers by addresses and counts them. The first label without
an address ends the work; what stands before it is replaced. -/
def substitute (labels : Labels) : List Instruction → List Instruction × Except Fault Nat
  | [] => ([], .ok 0)
  | i :: is =>
    match refersTo? i with
    | none =>
      let (is, outcome) := substitute labels is
      (i :: is, outcome)
    | some name =>
      match labels.lookup name with
      | none => (i :: is, .error (.unresolvedLabel name))
      | some address =>
        let (is, outcome) := substitute labels is
        (⟨i.op, .address address⟩ :: is, outcome.map (· + 1))

/-- A module with a label marked twice is left as it is. -/
def link (m : Module) : Module × Except Fault Nat :=
  match collectLabels [] 0 m.code.toList with
  | .error fault => (m, .error fault)
  | .ok labels =>
    let (code, outcome) := substitute labels m.code.toList
    (⟨code.toArray⟩, outcome)

end LetStack.Module
