import SeaNodes.Graph.Op

namespace SeaNodes

def ArithOp.all : List ArithOp := [.add, .sub, .mul, .div]

def BitOp.all : List BitOp := [.and, .or, .xor, .shl, .shr, .sar]

def CmpOp.all : List CmpOp := [.eq, .ne, .lt, .le]

def ArithOp.ofName? (s : String) : Option ArithOp := all.find? (·.name == s)

def BitOp.ofName? (s : String) : Option BitOp := all.find? (·.name == s)

def CmpOp.ofName? (s : String) : Option CmpOp := all.find? (·.name == s)

namespace Op

/-- The operators that take no number and are no constant. -/
def plain : List Op :=
  ([.start, .stop, .region, .loop, .fork, .ret, .dead, .startMem, .phi, .cast, .neg, .not, .toFloat,
    .load, .store, .alloc, .call, .callEnd, .scope] : List Op)
  ++ ArithOp.all.map .arith ++ ArithOp.all.map .floatArith ++ BitOp.all.map .bit
  ++ CmpOp.all.map .cmp ++ CmpOp.all.map .floatCmp

/-- The operator that is not a constant with a given name. -/
def ofName? (s : String) : Option Op :=
  (plain.find? (·.name == s)).or <|
    match s.splitOn "." with
    | ["cproj", i] => i.toNat?.map .ctrlProj
    | ["parm", i] => i.toNat?.map .param
    | ["proj", i] => i.toNat?.map .proj
    | _ => none

end Op

end SeaNodes
