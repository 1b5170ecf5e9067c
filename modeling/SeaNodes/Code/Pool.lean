import Std.Data.HashMap
import SeaNodes.Decimal.Style

namespace SeaNodes

/-- A word of the constant pool. -/
inductive PoolEntry where
  | float (x : Double)
  | int (v : Int64)
  /-- The address of a symbol of the surrounding program. -/
  | symbol (name : String)
deriving DecidableEq, Hashable, Inhabited

/-- Float words are written positionally, without a point for an integral value. -/
def PoolEntry.floatStyle : Decimal.Style where
  positional := none
  pointZero := false

def PoolEntry.text : PoolEntry → String
  | .float x => "=" ++ floatStyle.render x
  | .int v => "=" ++ toString v
  | .symbol s => "=" ++ s

def wordBytes (w : UInt64) : List UInt8 :=
  (List.range 8).map fun i => (w >>> (8 * i).toUInt64).toUInt8

abbrev Symbols := Std.HashMap String UInt64

structure ConstantPool where
  entries : Array PoolEntry := #[]
  /-- The position of each entry. -/
  index : Std.HashMap PoolEntry Nat := {}
deriving Inhabited

namespace ConstantPool

def size (p : ConstantPool) : Nat := p.entries.size

def byteSize (p : ConstantPool) : Nat := 8 * p.size

def insert (p : ConstantPool) (e : PoolEntry) : ConstantPool :=
  match p.index[e]? with
  | some _ => p
  | none => ⟨p.entries.push e, p.index.insert e p.size⟩

def offset? (p : ConstantPool) (e : PoolEntry) : Option Nat := p.index[e]?.map (8 * ·)

end ConstantPool

def PoolEntry.word (symbols : Symbols) : PoolEntry → Except String UInt64
  | .float x => .ok x.bits
  | .int v => .ok v.toUInt64
  | .symbol s =>
    match symbols[s]? with
    | some a => .ok a
    | none => .error s

def ConstantPool.bytes (p : ConstantPool) (symbols : Symbols) : Except String (List UInt8) := do
  return (← p.entries.toList.mapM (·.word symbols)).flatMap wordBytes

end SeaNodes
