import LetStack.Word

namespace LetStack

inductive OpCode where
  | pushInt
  | pushBool
  | lval
  | rvalInt
  | rvalBool
  | assInt
  | assBool
  | add
  | sub
  | eqBool
  | eqInt
  | ltInt
  | decl
  | pop
  | brf
  | bra
  | writeInt
  | link
  | unlink
  | rts
  | bsr
  | halt
  | label
deriving DecidableEq, Repr

namespace OpCode

def mnemonic : OpCode → String
  | pushInt => "PUSHINT"
  | pushBool => "PUSHBOOL"
  | lval => "LVAL"
  | rvalInt => "RVALINT"
  | rvalBool => "RVALBOOL"
  | assInt => "ASSINT"
  | assBool => "ASSBOOL"
  | add => "ADD"
  | sub => "SUB"
  | eqBool => "EQBOOL"
  | eqInt => "EQINT"
  | ltInt => "LTINT"
  | decl => "DECL"
  | pop => "POP"
  | brf => "BRF"
  | bra => "BRA"
  | writeInt => "WRITEINT"
  | link => "LINK"
  | unlink => "UNLINK"
  | rts => "RTS"
  | bsr => "BSR"
  | halt => "END"
  | label => "LABEL"

def all : List OpCode :=
  [pushInt, pushBool, lval, rvalInt, rvalBool, assInt, assBool, add, sub, eqBool, eqInt, ltInt, decl,
    pop, brf, bra, writeInt, link, unlink, rts, bsr, halt, label]

def ofMnemonic? (s : String) : Option OpCode := all.find? fun op => op.mnemonic == s

/-- Whether an integer operand counts from the frame pointer. -/
def frameRelative : OpCode → Bool
  | lval | rvalInt | rvalBool => true
  | _ => false

def controlTransfer : OpCode → Bool
  | bsr | brf | bra => true
  | _ => false

/-- By how many cells an instruction with operand `n` makes the stack grow. -/
def stackEffect (op : OpCode) (n : Int) : Int :=
  match op with
  | pushInt | pushBool | lval | rvalInt | rvalBool => 1
  | assInt | assBool => -2
  | add | sub | eqBool | eqInt | ltInt => -1
  | decl => n
  | pop => -n
  | brf | writeInt => -1
  | bra | link | unlink | rts | bsr | halt | label => 0

end OpCode

inductive Operand where
  | empty
  | int (value : Word)
  | label (name : String)
  | address (index : Nat)
deriving DecidableEq, Repr

structure Instruction where
  op : OpCode
  operand : Operand := .empty
deriving DecidableEq, Repr

namespace Instruction

def int? (i : Instruction) : Option Word :=
  match i.operand with
  | .int w => some w
  | _ => none

def label? (i : Instruction) : Option String :=
  match i.operand with
  | .label name => some name
  | _ => none

def address? (i : Instruction) : Option Nat :=
  match i.operand with
  | .address a => some a
  | _ => none

def text (i : Instruction) : String :=
  match i.operand with
  | .empty => i.op.mnemonic
  | .int w =>
    if i.op.frameRelative then s!"{i.op.mnemonic} {w.text}(FP)" else s!"{i.op.mnemonic} {w.text}"
  | .label name => s!"{i.op.mnemonic} {name}"
  | .address a => s!"{i.op.mnemonic} {a}"

end Instruction

end LetStack
