import SeaNodes.Code.Pool
import SeaNodes.Machine.Text

namespace SeaNodes

/-- What a relocation refers to. -/
inductive RelocTarget where
  /-- A block of the same function. -/
  | block (b : Nat)
  /-- A function of the program. -/
  | function (index : Nat)
  | pool (e : PoolEntry)
deriving DecidableEq, Inhabited

def RelocTarget.text : RelocTarget → String
  | .block b => blockLabel b
  | .function i => "fn#" ++ toString i
  | .pool e => e.text

inductive RelocKind where
  /-- One byte, counted from its end. -/
  | x86Rel8
  /-- Four bytes, counted from their end. -/
  | x86Rel32
  /-- A word offset of 26 bits. -/
  | a64Branch26
  /-- A word offset of 19 bits from bit 5. -/
  | a64Branch19
  /-- A page offset of 21 bits, and the low 12 bits of the target in the next instruction, which
  counts in units of `2 ^ scale` bytes. -/
  | a64AdrpLo12 (scale : Nat)
  /-- A byte offset of 13 bits. -/
  | rvBranch
  /-- A byte offset of 21 bits. -/
  | rvJal
  /-- The upper 20 bits of an offset, and the signed lower 12 bits in the next instruction. -/
  | rvPcrelHiLo
deriving DecidableEq, Inhabited

/-- The low 32 bits of a number in two's complement. -/
def word32 (n : Int) : UInt32 := UInt32.ofBitVec (BitVec.ofInt 32 n)

def fitsSigned (v : Int) (bits : Nat) : Bool :=
  decide (-Int.pow 2 (bits - 1) ≤ v ∧ v < Int.pow 2 (bits - 1))

/-- Splits an offset into the upper part, modulo 2 ^ 20, and a signed lower part of 12 bits. -/
def splitHiLo (disp : Int) : Int × Int :=
  let hi := (disp + 0x800) / 0x1000
  (hi % 0x100000, disp - hi * 0x1000)

/-- Why a relocation cannot be filled in. -/
inductive PatchError where
  | outOfRange (kind : RelocKind) (disp : Int)
  | pastEnd (kind : RelocKind) (site : Nat)
deriving DecidableEq

namespace RelocKind

def text : RelocKind → String
  | .x86Rel8 => "X86Rel8"
  | .x86Rel32 => "X86Rel32"
  | .a64Branch26 => "A64Branch26"
  | .a64Branch19 => "A64Branch19"
  | .a64AdrpLo12 s => "A64AdrpLo12 \x7b scale: " ++ toString s ++ " \x7d"
  | .rvBranch => "RvBranch"
  | .rvJal => "RvJal"
  | .rvPcrelHiLo => "RvPcrelHiLo"

def ofText? (s : String) : Option RelocKind :=
  [.x86Rel8, .x86Rel32, .a64Branch26, .a64Branch19, .rvBranch, .rvJal, .rvPcrelHiLo].find?
    (·.text == s)

/-- Whether a displacement can be packed. -/
def fits : RelocKind → Int → Bool
  | .x86Rel8, d => fitsSigned d 8
  | .x86Rel32, d => fitsSigned d 32
  | .a64Branch26, d => d % 4 == 0 && fitsSigned (d / 4) 26
  | .a64Branch19, d => d % 4 == 0 && fitsSigned (d / 4) 19
  | .a64AdrpLo12 _, d => fitsSigned d 21
  | .rvBranch, d => d % 2 == 0 && fitsSigned d 13
  | .rvJal, d => d % 2 == 0 && fitsSigned d 21
  | .rvPcrelHiLo, d => fitsSigned d 32

/-- The displacement from a site to a target. Pages have 4096 bytes, and the image starts at the
beginning of one. -/
def displacement (kind : RelocKind) (site target : Nat) : Int :=
  match kind with
  | .x86Rel8 => target - (site + 1)
  | .x86Rel32 => target - (site + 4)
  | .a64AdrpLo12 _ => (target / 4096 : Nat) - (site / 4096 : Nat)
  | _ => target - site

/-- The number of bytes that are touched. -/
def width : RelocKind → Nat
  | .x86Rel8 => 1
  | .a64AdrpLo12 _ | .rvPcrelHiLo => 8
  | _ => 4

end RelocKind

def PatchError.message : PatchError → String
  | .outOfRange k d => k.text ++ " displacement " ++ toString d ++ " out of range"
  | .pastEnd k s => k.text ++ " site " ++ toString s ++ " past the end of the image"

/-- The bytes of a 32-bit word, lowest first. -/
def bytes32 (w : UInt32) : List UInt8 :=
  [w.toUInt8, (w >>> 8).toUInt8, (w >>> 16).toUInt8, (w >>> 24).toUInt8]

def read32 (code : Array UInt8) (i : Nat) : UInt32 :=
  let byte (k : Nat) : UInt32 := (code.getD (i + k) 0).toUInt32
  byte 0 ||| byte 1 <<< 8 ||| byte 2 <<< 16 ||| byte 3 <<< 24

/-- Overwrites bytes from index `i`. -/
def writeBytes (code : Array UInt8) (i : Nat) : List UInt8 → Array UInt8
  | [] => code
  | b :: rest => writeBytes (code.setIfInBounds i b) (i + 1) rest

/-- Replaces the bits of `field` in the word at `i` by those of `value`. -/
def setField (code : Array UInt8) (i : Nat) (field value : UInt32) : Array UInt8 :=
  writeBytes code i (bytes32 (read32 code i &&& ~~~field ||| value &&& field))

namespace RelocKind

def branchBits (d : UInt32) : UInt32 :=
  (d >>> 12 &&& 1) <<< 31 ||| (d >>> 5 &&& 0x3f) <<< 25 ||| (d >>> 1 &&& 0xf) <<< 8
    ||| (d >>> 11 &&& 1) <<< 7

def jumpBits (d : UInt32) : UInt32 :=
  (d >>> 20 &&& 1) <<< 31 ||| (d >>> 1 &&& 0x3ff) <<< 21 ||| (d >>> 11 &&& 1) <<< 20
    ||| (d >>> 12 &&& 0xff) <<< 12

/-- Writes a displacement that fits. -/
def pack (kind : RelocKind) (code : Array UInt8) (site target : Nat) (d : Int) : Array UInt8 :=
  match kind with
  | .x86Rel8 => writeBytes code site [(word32 d).toUInt8]
  | .x86Rel32 => writeBytes code site (bytes32 (word32 d))
  | .a64Branch26 => setField code site 0x03ffffff (word32 (d / 4))
  | .a64Branch19 => setField code site 0x00ffffe0 (word32 (d / 4) <<< 5)
  | .a64AdrpLo12 scale =>
    let pages := word32 d
    let code := setField code site 0x60ffffe0 (pages <<< 29 ||| (pages >>> 2 &&& 0x7ffff) <<< 5)
    setField code (site + 4) 0x003ffc00 (word32 (target % 4096 / Nat.pow 2 scale) <<< 10)
  | .rvBranch => setField code site 0xfe000f80 (branchBits (word32 d))
  | .rvJal => setField code site 0xfffff000 (jumpBits (word32 d))
  | .rvPcrelHiLo =>
    let (hi, lo) := splitHiLo d
    let code := setField code site 0xfffff000 (word32 hi <<< 12)
    setField code (site + 4) 0xfff00000 (word32 lo <<< 20)

def patch (kind : RelocKind) (code : Array UInt8) (site target : Nat) :
    Except PatchError (Array UInt8) :=
  let d := kind.displacement site target
  if !kind.fits d then .error (.outOfRange kind d)
  else if code.size < site + kind.width then .error (.pastEnd kind site)
  else .ok (kind.pack code site target d)

end RelocKind

/-- A place to be filled in. -/
structure Reloc where
  /-- The offset in the function. -/
  offset : Nat
  kind : RelocKind
  target : RelocTarget
  /-- The number of the resizable piece that it belongs to, while that has its short form. -/
  site : Option Nat := none
deriving DecidableEq, Inhabited

end SeaNodes
