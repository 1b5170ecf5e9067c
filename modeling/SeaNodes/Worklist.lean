import SeaNodes.BitSet

namespace SeaNodes

structure Worklist where
  front : List Nat := []
  /-- Later entries, the latest first. -/
  back : List Nat := []
  queued : BitSet := {}

namespace Worklist

def toList (w : Worklist) : List Nat := w.front ++ w.back.reverse

/-- Appends `n` unless it waits already. -/
def push (w : Worklist) (n : Nat) : Worklist :=
  if w.queued.contains n then w
  else { w with back := n :: w.back, queued := w.queued.insert n }

def pushAll (w : Worklist) (ns : List Nat) : Worklist := ns.foldl push w

def ofList (ns : List Nat) : Worklist := pushAll {} ns

/-- The entry that waits longest, and the rest. -/
def pop? (w : Worklist) : Option (Nat × Worklist) :=
  match w.front with
  | n :: front => some (n, { w with front, queued := w.queued.erase n })
  | [] =>
    match w.back.reverse with
    | n :: front => some (n, { front, back := [], queued := w.queued.erase n })
    | [] => none

end Worklist

end SeaNodes
