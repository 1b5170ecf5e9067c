import SeaNodes.Code.Reloc

namespace SeaNodes

/-- A place inside an item that is filled in later. -/
structure Fixup where
  /-- The offset in the item. -/
  offset : Nat
  kind : RelocKind
  target : RelocTarget
deriving DecidableEq, Inhabited

/-- A hardware instruction with its line in the listing. -/
structure Item where
  bytes : List UInt8
  text : String
  fixup : Option Fixup := none
deriving DecidableEq, Inhabited

namespace Item

/-- An instruction of one 32-bit word. -/
def word (w : UInt32) (text : String) : Item := ⟨bytes32 w, text, none⟩

/-- A word whose displacement to `target` is filled in later. -/
def relocated (kind : RelocKind) (target : RelocTarget) (w : UInt32) (text : String) : Item :=
  ⟨bytes32 w, text, some ⟨0, kind, target⟩⟩

end Item

inductive Piece where
  | fixed (i : Item)
  /-- A short form, and a longer one that reaches farther. -/
  | sized (short long : List Item)
deriving DecidableEq, Inhabited

/-- What is known of the surroundings of an instruction. -/
structure Surroundings where
  frame : Frame
  /-- The names of the functions of the program. -/
  names : Array String
  /-- The block of the instruction. -/
  block : Nat
  blockCount : Nat

namespace Surroundings

/-- Whether control reaches `b` by going on after the end of the block. -/
def fallsTo (s : Surroundings) (b : Nat) : Bool := s.block + 1 == b && b < s.blockCount

def callee (s : Surroundings) (index : Nat) : String :=
  s.names.getD index (RelocTarget.function index).text

end Surroundings

/-- The registers of an instruction's operands. -/
structure OperandRegs where
  defs : List Reg := []
  uses : List Reg := []

namespace OperandRegs

/-- The register of def `i`, or register 0. -/
def d (r : OperandRegs) (i : Nat) : Reg := r.defs.getD i 0

/-- The register of use `i`, or register 0. -/
def u (r : OperandRegs) (i : Nat) : Reg := r.uses.getD i 0

end OperandRegs

end SeaNodes
