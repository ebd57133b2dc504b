import Sylar.Model.ByteArray.Storage

/-! # The buffers that are handed to a socket

`getReadBuffers` pushes onto an array of the caller, which stays as it is when the call throws. What the socket then
does with the segments is `transfer`: it handles them in order, `bpos` bytes having gone through the segments before.
-/

namespace Sylar.ByteArray

/-- A call on a `ByteArray` that pushes onto the caller's `std::vector<iovec>`. -/
abbrev BuffersOp := Call (ByteArray × List IoVec) Thrown Fault

/-- `getReadBuffers(buffers, len) const`. -/
def getReadBuffers (len : ℕ) : BuffersOp ℕ := fun (s, buffers) =>
  let len := if len > s.getReadSize then s.getReadSize else len
  if len = 0 then .done 0 (s, buffers)
  else
    let npos := s.position % s.baseSize
    match copyAcross gather s.nodes s.cur npos len buffers with
    | .error cause => .fault cause
    | .ok (buffers, _) => .done len (s, buffers)

/-- `getReadBuffers(buffers, len, position) const`. -/
def getReadBuffersAt (len position : ℕ) : BuffersOp ℕ := fun (s, buffers) =>
  if position > s.size then .thrown (.outOfRange "position out of size") (s, buffers)
  else if len = 0 then .done 0 (s, buffers)
  else
    let len := if len > sizeSub s.size position then sizeSub s.size position else len
    let npos := position % s.baseSize
    let count := position / s.baseSize
    match follow s.nodes count with
    | .error cause => .fault cause
    | .ok cur =>
        match copyAcross gather s.nodes cur npos len buffers with
        | .error cause => .fault cause
        | .ok (buffers, _) => .done len (s, buffers)

/-- Handle the bytes of the segments in order. -/
def transfer {β : Type} (body : ℕ → ℕ → ℕ → ℕ → β → Except Fault β) :
    List IoVec → (bpos : ℕ) → β → Except Fault β
  | [], _, acc => .ok acc
  | v :: rest, bpos, acc => do
      let acc ← body v.node v.base bpos v.len acc
      transfer body rest (bpos + v.len) acc

/-- The bytes `sendmsg` sends. -/
def sendmsg (nodes : List Node) (segments : List IoVec) : Except Fault (List Byte) :=
  transfer (copyOut nodes) segments 0 []

/-- The chain after `recvmsg` has received `buf`. -/
def recvmsg (buf : List Byte) (segments : List IoVec) (nodes : List Node) : Except Fault (List Node) :=
  transfer (copyIn buf) segments 0 nodes

end Sylar.ByteArray
