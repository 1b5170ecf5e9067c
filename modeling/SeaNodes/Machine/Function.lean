import SeaNodes.Graph.Basic
import SeaNodes.Machine.Registers
import SeaNodes.Code.Pool

namespace SeaNodes

/-- A virtual register. -/
abbrev VReg := Nat

def VReg.text (v : VReg) : String := "v" ++ toString v

/-- Integer operations on two words. -/
inductive AluOp where
  | add | sub | mul | div | and | or | xor | shl
  /-- Logical shift right. -/
  | shr
  /-- Arithmetic shift right. -/
  | sar
deriving DecidableEq, Inhabited

namespace AluOp

def ofArith : ArithOp → AluOp
  | .add => .add
  | .sub => .sub
  | .mul => .mul
  | .div => .div

def ofBit : BitOp → AluOp
  | .and => .and
  | .or => .or
  | .xor => .xor
  | .shl => .shl
  | .shr => .shr
  | .sar => .sar

def isCommutative : AluOp → Bool
  | .add | .mul | .and | .or | .xor => true
  | _ => false

def isShift : AluOp → Bool
  | .shl | .shr | .sar => true
  | _ => false

def all : List AluOp := [.add, .sub, .mul, .div, .and, .or, .xor, .shl, .shr, .sar]

end AluOp

/-- What an instruction does. Operands are numbered: `u0`, `u1`, ... are the uses and `d` is the
def. -/
inductive MachOp (τ : Type) where
  /-- Defines the parameters that arrive in registers. -/
  | params
  /-- `d = u0` -/
  | copy (c : RegClass)
  /-- `slot = u0` -/
  | spill (c : RegClass) (slot : UInt32)
  /-- `d = slot` -/
  | reload (c : RegClass) (slot : UInt32)
  /-- Reads an argument that arrived on the stack. -/
  | loadParam (c : RegClass) (offset : UInt32)
  /-- Puts `u0` on the stack as an argument. -/
  | storeArg (c : RegClass) (offset : UInt32)
  | const (v : Int64)
  | loadPool (e : PoolEntry)
  | zeroFloat
  /-- `d = u0 op u1` -/
  | alu (op : AluOp)
  /-- `d = u0 op imm` -/
  | aluImm (op : AluOp) (imm : Int64)
  | neg
  /-- 1 if the test holds, else 0. -/
  | setIf (test : τ)
  | floatArith (op : ArithOp)
  | toFloat
  /-- `d = [u0 + disp]`, or `d = [u0 + u1]` without a displacement. -/
  | load (c : RegClass) (disp : Option Int64)
  /-- `[u0 + disp] = u1`, or `[u0 + u1] = u2` without a displacement. -/
  | store (c : RegClass) (disp : Option Int64)
  | branch (test : τ) (onTrue onFalse : Nat)
  | jump (target : Nat)
  | ret
  /-- Calls a function of the program. -/
  | call (index : Nat)
  /-- Calls through the pool word of a symbol. -/
  | callSymbol (name : String)
deriving DecidableEq, Inhabited

namespace MachOp

variable {τ : Type}

def isCopy : MachOp τ → Bool
  | .copy _ => true
  | _ => false

/-- Ends its block. -/
def isTerminator : MachOp τ → Bool
  | .branch .. | .jump _ | .ret => true
  | _ => false

end MachOp

/-- A virtual register with the registers it may be in at this place. -/
structure Operand where
  vreg : VReg
  mask : RegMask
deriving DecidableEq, Inhabited

structure Inst (τ : Type) where
  op : MachOp τ
  defs : List Operand := []
  uses : List Operand := []
  /-- Registers that are overwritten besides those of the defs. -/
  kill : RegMask := .empty
  /-- The use whose register the first def shares. -/
  tied : Option Nat := none
  /-- The node that the instruction is for. -/
  node : Edge := none
deriving DecidableEq, Inhabited

namespace Inst

variable {τ : Type}

def isCopy (i : Inst τ) : Bool := i.op.isCopy

def operands (i : Inst τ) : List Operand := i.defs ++ i.uses

def tie? (i : Inst τ) : Option (VReg × VReg) := do
  let d ← i.defs.head?
  let u ← i.uses[← i.tied]?
  return (d.vreg, u.vreg)

/-- The target and the source of a copy. -/
def copy? (i : Inst τ) : Option (VReg × VReg) := do
  guard i.isCopy
  return ((← i.defs.head?).vreg, (← i.uses.head?).vreg)

def source? (i : Inst τ) : Option VReg := if i.isCopy then i.uses.head?.map (·.vreg) else none

def defines (i : Inst τ) (v : VReg) : Bool := i.defs.any (·.vreg == v)

end Inst

/-- A choice by the predecessor through which the block is entered. -/
structure Phi where
  dst : VReg
  /-- One for each predecessor. -/
  args : List VReg
  node : Edge := none
deriving DecidableEq, Inhabited

structure MachBlock (τ : Type) where
  phis : List Phi := []
  insts : List (Inst τ) := []
  preds : List Nat := []
  succs : List Nat := []
  loopDepth : UInt32 := 0
deriving Inhabited

namespace MachBlock

variable {τ : Type}

/-- How much an instruction of the block counts for. The depth is taken as a signed number, so the
largest ones make it less than outside of loops. -/
def weight (b : MachBlock τ) (loopWeight : Double) : Double :=
  loopWeight.pow b.loopDepth.toInt32.toInt

/-- Puts instructions at the end of the block, before the instruction that ends it if there is
one. -/
def insertAtEnd (b : MachBlock τ) (new : List (Inst τ)) : MachBlock τ :=
  match b.insts.getLast? with
  | some last =>
    if last.op.isTerminator then { b with insts := b.insts.dropLast ++ new ++ [last] }
    else { b with insts := b.insts ++ new }
  | none => { b with insts := new }

end MachBlock

structure VRegInfo where
  cls : RegClass
  /-- Made by spilling, so that to spill it again would not help. -/
  unspillable : Bool := false
deriving DecidableEq, Inhabited

structure MachFunction (τ : Type) where
  name : String
  /-- The blocks in the order of the code. -/
  blocks : Array (MachBlock τ) := #[]
  vregs : Array VRegInfo := #[]
  /-- Bytes for the arguments on the stack of the largest call. -/
  outgoing : UInt32 := 0
  hasCalls : Bool := false
  /-- Stack slots taken by spilling. -/
  spillSlots : UInt32 := 0
deriving Inhabited

namespace MachFunction

variable {τ : Type}

def classOf (f : MachFunction τ) (v : VReg) : RegClass := (f.vregs.getD v default).cls

def newVReg (f : MachFunction τ) (info : VRegInfo) : VReg × MachFunction τ :=
  (f.vregs.size, { f with vregs := f.vregs.push info })

def insts (f : MachFunction τ) : List (Inst τ) := f.blocks.toList.flatMap (·.insts)

def modifyBlock (f : MachFunction τ) (b : Nat) (g : MachBlock τ → MachBlock τ) :
    MachFunction τ :=
  { f with blocks := f.blocks.modify b g }

def block (f : MachFunction τ) (b : Nat) : MachBlock τ := f.blocks.getD b default

end MachFunction

/-- The stack frame of a function. Offsets are from the stack pointer in its body. -/
structure Frame where
  /-- By how much the stack pointer is moved. -/
  size : UInt32 := 0
  /-- The offset of the first spill slot. -/
  spillBase : UInt32 := 0
  /-- The offset of the arguments that arrived on the stack. -/
  incoming : UInt32 := 0
  /-- The return address is kept in the frame. -/
  savesLink : Bool := false
deriving DecidableEq, Inhabited

namespace Frame

def slot (f : Frame) (i : UInt32) : UInt32 := f.spillBase + 8 * i

/-- Rounds up to a multiple of 16, in 32 bits. -/
def align16 (n : UInt32) : UInt32 := (n + 15) &&& ~~~15

/-- The bytes of spill slots above `rest` other bytes, if 32 bits can hold them. -/
def body? (slots rest : UInt32) : Option UInt32 :=
  let n := 8 * slots.toNat + rest.toNat
  if n < UInt32.size then some n.toUInt32 else none

end Frame

end SeaNodes
