import SeaNodes.Asm.X64
import SeaNodes.Asm.Arm64
import SeaNodes.Asm.RiscV

namespace SeaNodes

namespace X64

/-- Instructions on two integer registers. A number after a name is a width in bits. -/
def regTable : List (String × (Gpr → Gpr → List UInt8)) :=
  ([.add, .or, .and, .sub, .xor, .cmp] : List Alu).map (fun op => (op.name, op.regs)) ++
    [("xor32", Alu.xor.regs32), ("and8", Alu.and.lowBytes), ("or8", Alu.or.lowBytes),
      ("imul", imulRegs), ("test", testRegs), ("mov", movRegs), ("movzx", movzxByte)]

/-- Instructions on an integer register and an immediate. -/
def immTable : List (String × (Gpr → Int32 → List UInt8)) :=
  ("mov_sx", movImmSigned) ::
    ([.add, .or, .and, .sub, .xor, .cmp] : List Alu).map fun op => (op.name, op.imm)

/-- Instructions on one integer register. -/
def unaryTable : List (String × (Gpr → List UInt8)) := [("neg", negReg), ("idiv", idivReg)]

end X64

namespace Arm64

/-- Instructions on two registers or on a register and an immediate. Some use only the first. -/
def regTable : List (String × (Num → UInt32 → UInt32)) :=
  [("mov", mov), ("cmp", cmp), ("fcmp", fcmp), ("fmov", fmov), ("fmov_x", fmovX),
    ("scvtf", scvtf), ("cmp_imm", cmpImm), ("cmn_imm", cmnImm), ("ldr_lit", fun t _ => ldrLit t),
    ("ldr_d_lit", fun t _ => ldrDLit t), ("adrp", fun d _ => adrp d), ("blr", fun n _ => blr n)]

/-- Instructions on two registers and an immediate, which additions can shift. -/
def immTable (shifted : Bool) : List (String × (Num → Num → UInt32 → UInt32)) :=
  [("add", (addImm · · · shifted)), ("sub", (subImm · · · shifted)), ("lsl", lslImm),
    ("lsr", lsrImm), ("asr", asrImm), ("ldr", ldrImm), ("str", strImm), ("ldr_d", ldrDImm),
    ("str_d", strDImm)]

end Arm64

namespace RiscV

/-- Instructions on two registers or on a register and an immediate. Some use only the first. -/
def regTable : List (String × (Num → UInt32 → UInt32)) :=
  [("fmv", fmv), ("fmv_d_x", fmvX), ("fcvt", fcvt), ("lui", lui), ("auipc", fun d _ => auipc d),
    ("jal", fun d _ => jal d)]

end RiscV

end SeaNodes
