import Sylar.Model.ByteArray.Storage

/-! # `addCapacity` when memory runs out

The allocator returns `supply` more nodes and then throws. The exception leaves `addCapacity`, and the `write` or
`getWriteBuffers` that called it first thing, with the nodes linked that it returned before.
-/

namespace Sylar.ByteArray

/-- What `new Node(m_baseSize)` throws. -/
inductive OutOfMemory where
  | badAlloc
deriving DecidableEq, Repr

/-- The `for` loop of `addCapacity`. -/
def appendNodesWith : (supply count : ℕ) → Call ByteArray OutOfMemory Fault Unit
  | _, 0 => pure ()
  | 0, _ + 1 => fun s => .thrown .badAlloc s
  | supply + 1, count + 1 => fun s =>
      appendNodesWith supply count { s with
        nodes := s.nodes ++ [Node.new s.baseSize (s.heap s.allocated)]
        capacity := s.capacity + s.baseSize
        allocated := s.allocated + 1 }

/-- `addCapacity`: the null pointer of a full array is set after the loop. -/
def addCapacityWith (supply size : ℕ) : Call ByteArray OutOfMemory Fault Unit := fun s =>
  if size = 0 then .done () s
  else
    let oldCap := s.getCapacity
    if oldCap ≥ size then .done () s
    else
      let size := size - oldCap
      let count := size / s.baseSize + (if size % s.baseSize ≠ 0 then 1 else 0)
      let first := if count = 0 then none else some s.nodes.length
      (do
        appendNodesWith supply count
        fun t => .done () (if oldCap = 0 then { t with cur := first } else t)) s

/-- A completed call, or one that was left because memory ran out in `addCapacity(size)` after `k` nodes. -/
inductive AllocEvent where
  | call (event : Event)
  | badAlloc (size k : ℕ)

/-- The calls on one fresh `ByteArray`, memory running out at any of them. -/
def allocMachine (baseSize : ℕ) (heap : ℕ → ℕ → Byte) : Machine ByteArray AllocEvent where
  Init := (machine baseSize heap).Init
  Step s event t :=
    match event with
    | .call event => (machine baseSize heap).Step s event t
    | .badAlloc size k => addCapacityWith k size s = .thrown .badAlloc t

end Sylar.ByteArray
