
namespace SeaNodes

abbrev Reg := Nat

/-- The bank in which a value lives. -/
inductive RegClass where
  | int | float
deriving DecidableEq, Inhabited

def RegClass.name : RegClass → String
  | .int => "int"
  | .float => "flt"

/-- A set of registers, of which there are fewer than 128. -/
structure RegMask where
  bits : BitVec 128 := 0
deriving DecidableEq, Inhabited

namespace RegMask

def empty : RegMask := {}

def contains (m : RegMask) (r : Reg) : Bool := m.bits.getLsbD r

def single (r : Reg) : RegMask := ⟨BitVec.twoPow 128 r⟩

def union (a b : RegMask) : RegMask := ⟨a.bits ||| b.bits⟩

def inter (a b : RegMask) : RegMask := ⟨a.bits &&& b.bits⟩

def diff (a b : RegMask) : RegMask := ⟨a.bits &&& ~~~b.bits⟩

def insert (m : RegMask) (r : Reg) : RegMask := m.union (single r)

def erase (m : RegMask) (r : Reg) : RegMask := m.diff (single r)

def isEmpty (m : RegMask) : Bool := m.bits == 0

def ofList (rs : List Reg) : RegMask := rs.foldl insert empty

def range (lo hi : Nat) : RegMask := ofList (List.range' lo (hi - lo))

/-- The members in ascending order. -/
def toList (m : RegMask) : List Reg := (List.range 128).filter m.contains

def count (m : RegMask) : Nat := m.toList.length

/-- The member with the lowest number. -/
def first? (m : RegMask) : Option Reg := (List.range 128).find? m.contains

/-- The member of a set that has exactly one. -/
def single? (m : RegMask) : Option Reg :=
  match m.toList with
  | [r] => some r
  | _ => none

instance : ToString RegMask where
  toString m := "\x7b" ++ ", ".intercalate (m.toList.map toString) ++ "\x7d"

end RegMask

/-- The registers of a target. -/
structure RegFile where
  names : Array String
  /-- Integer registers that values may be put into. -/
  int : RegMask
  /-- Float registers that values may be put into. -/
  float : RegMask
  /-- Registers kept free for sequences of several instructions. -/
  scratch : RegMask
  /-- The condition flags, on targets that have them. -/
  flags : Option Reg
deriving Inhabited

namespace RegFile

def name (f : RegFile) (r : Reg) : String := f.names.getD r "?"

/-- The registers for values of a class. -/
def ofClass (f : RegFile) : RegClass → RegMask
  | .int => f.int
  | .float => f.float

def allocatable (f : RegFile) : RegMask := f.int.union f.float

def flagMask (f : RegFile) : RegMask := (f.flags.map .single).getD .empty

/-- The class of a register that values may be put into. -/
def class? (f : RegFile) (r : Reg) : Option RegClass :=
  if f.int.contains r then some .int
  else if f.float.contains r then some .float
  else none

end RegFile

/-- Where an argument travels. -/
inductive ArgLoc where
  | reg (r : Reg)
  /-- A byte offset in the area of outgoing arguments. -/
  | stack (offset : UInt32)
deriving DecidableEq, Inhabited

structure CallConv where
  intArgs : List Reg
  floatArgs : List Reg
  /-- Argument `i` may only be in register `i` of its class. -/
  positional : Bool
  intRet : Reg
  floatRet : Reg
  /-- Bytes that the caller reserves below the arguments on the stack. -/
  shadow : UInt32
  /-- What a call may overwrite. -/
  clobbers : RegMask
deriving Inhabited

namespace CallConv

def args (cc : CallConv) : RegClass → List Reg
  | .int => cc.intArgs
  | .float => cc.floatArgs

def ret (cc : CallConv) : RegClass → Reg
  | .int => cc.intRet
  | .float => cc.floatRet

/-- How many registers and stack slots are taken by the arguments so far. -/
structure Taken where
  position : Nat := 0
  ints : Nat := 0
  floats : Nat := 0
  stack : Nat := 0

/-- The size of the argument area with `n` slots. -/
def area (cc : CallConv) (n : Nat) : UInt32 := cc.shadow + 8 * n.toUInt32

def place (cc : CallConv) (t : Taken) (c : RegClass) : ArgLoc × Taken :=
  let used := match c with
    | .int => t.ints
    | .float => t.floats
  let next := { t with position := t.position + 1 }
  match (cc.args c)[if cc.positional then t.position else used]?, c with
  | some r, .int => (.reg r, { next with ints := t.ints + 1 })
  | some r, .float => (.reg r, { next with floats := t.floats + 1 })
  | none, _ => (.stack (cc.area t.stack), { next with stack := t.stack + 1 })

def placeAll (cc : CallConv) (t : Taken) : List RegClass → List ArgLoc × Taken
  | [] => ([], t)
  | c :: rest =>
    let (loc, t) := cc.place t c
    let (locs, t) := cc.placeAll t rest
    (loc :: locs, t)

/-- The places of arguments of the given classes, and the size of the area for those on the
stack. -/
def assign (cc : CallConv) (classes : List RegClass) : List ArgLoc × UInt32 :=
  let (locs, t) := cc.placeAll {} classes
  (locs, cc.area t.stack)

end CallConv

end SeaNodes
