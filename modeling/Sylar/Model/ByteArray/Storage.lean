import Sylar.Machine.Call
import Sylar.Machine.Path
import Sylar.ToMathlib.ListSplice

/-! # The node chain of `ByteArray` and the calls that move bytes across it

The chain hanging off `m_root` is a list and `m_cur` is an index into it, `none` for the null
pointer. Sizes are natural numbers: every byte of the chain is allocated, so no sum of sizes reaches
2 ^ 64, and only the subtractions, which can wrap, are written as `size_t` does them. Following a
null `Node*` and copying past the memory of a node are faults, not values. The uninitialised content
of a node is whatever `heap` says the allocator returned for it.
-/

namespace Sylar

abbrev Byte := BitVec 8

/-- `SYLAR_LITTLE_ENDIAN` and `SYLAR_BIG_ENDIAN`. -/
inductive ByteOrder where
  | littleEndian
  | bigEndian
deriving DecidableEq, Repr

/-- `ByteArray::Node` without its `next`, which is the following list entry. -/
structure Node where
  ptr : List Byte
  size : ℕ
deriving DecidableEq, Repr

/-- `Node(s)`: `new char[s]` does not initialise the memory it returns. -/
def Node.new (s : ℕ) (memory : ℕ → Byte) : Node := ⟨(List.range s).map memory, s⟩

/-- The members of `ByteArray`; `heap i` is the content of the `i`-th block `new` returns to it. -/
structure ByteArray where
  baseSize : ℕ
  position : ℕ
  capacity : ℕ
  size : ℕ
  endian : ByteOrder
  nodes : List Node
  cur : Option ℕ
  heap : ℕ → ℕ → Byte
  allocated : ℕ

/-- The exceptions that leave a call. -/
inductive Thrown where
  | outOfRange (what : String)
  | lengthError
deriving DecidableEq, Repr

/-- The undefined behaviour a call can run into. -/
inductive Fault where
  | nullNode
  | outsideNode
  | outsideBuffer
deriving DecidableEq, Repr

/-- An element of the `iovec` array: `iov_base` is `base` bytes into the memory of node `node`. -/
structure IoVec where
  node : ℕ
  base : ℕ
  len : ℕ
deriving DecidableEq, Repr

/-- Subtraction of `size_t` values, which wraps below zero. -/
def sizeSub (a b : ℕ) : ℕ := if b ≤ a then a - b else a + 2 ^ 64 - b

theorem sizeSub_of_le {a b : ℕ} (le : b ≤ a) : sizeSub a b = a - b := if_pos le

namespace ByteArray

/-- A call on a `ByteArray`. -/
abbrev Op := Call ByteArray Thrown Fault

/-- The constructor: one node, an empty content and the big-endian default. -/
def new (baseSize : ℕ) (heap : ℕ → ℕ → Byte) : ByteArray where
  baseSize := baseSize
  position := 0
  capacity := baseSize
  size := 0
  endian := .bigEndian
  nodes := [Node.new baseSize (heap 0)]
  cur := some 0
  heap := heap
  allocated := 1

def getReadSize (s : ByteArray) : ℕ := sizeSub s.size s.position

def getCapacity (s : ByteArray) : ℕ := sizeSub s.capacity s.position

/-- The concatenated memory of the node chain. -/
def bytes (s : ByteArray) : List Byte := (s.nodes.map Node.ptr).flatten

/-- The `for` loop of `addCapacity` after `count` rounds. -/
def appendNodes : ℕ → ByteArray → ByteArray
  | 0, s => s
  | count + 1, s =>
      let s := appendNodes count s
      { s with
        nodes := s.nodes ++ [Node.new s.baseSize (s.heap s.allocated)]
        capacity := s.capacity + s.baseSize
        allocated := s.allocated + 1 }

/-- Grow the chain until `size` more bytes fit behind the cursor. -/
def addCapacity (size : ℕ) (s : ByteArray) : ByteArray :=
  if size = 0 then s
  else
    let oldCap := s.getCapacity
    if oldCap ≥ size then s
    else
      let size := size - oldCap
      let count := size / s.baseSize + (if size % s.baseSize ≠ 0 then 1 else 0)
      let first := if count = 0 then none else some s.nodes.length
      let s := appendNodes count s
      if oldCap = 0 then { s with cur := first } else s

/-- The `while(size > 0)` loop shared by every function that crosses the chain. The list is the
chain from the current node on and `cur` its index; `body node npos bpos len` handles the `len`
bytes at offset `npos` of node `node`, the `bpos`-th byte of the caller's buffer and following. -/
def nodeLoop {β : Type} (body : ℕ → ℕ → ℕ → ℕ → β → Except Fault β) :
    List Node → (cur npos ncap bpos size : ℕ) → β → Except Fault (β × Option ℕ)
  | [], _, _, _, _, _, _ => .error .nullNode
  | node :: rest, cur, npos, ncap, bpos, size, acc =>
      if size = 0 then .ok (acc, some cur)
      else if ncap ≥ size then do
        let acc ← body cur npos bpos size acc
        -- the copy ends exactly on the border: `m_cur = m_cur->next`, null after the last node
        let next := if rest = [] then none else some (cur + 1)
        .ok (acc, if node.size = npos + size then next else some cur)
      else do
        let acc ← body cur npos bpos ncap acc
        match rest with
        | [] => .error .nullNode
        | following :: _ =>
            nodeLoop body rest (cur + 1) 0 following.size (bpos + ncap) (size - ncap) acc

/-- `ncap = cur->size - npos; bpos = 0` and the loop, from the node `cur` points to. -/
def copyAcross {β : Type} (body : ℕ → ℕ → ℕ → ℕ → β → Except Fault β) (nodes : List Node)
    (cur : Option ℕ) (npos size : ℕ) (acc : β) : Except Fault (β × Option ℕ) :=
  match cur with
  | none => .error .nullNode
  | some i =>
      match nodes.drop i with
      | [] => .error .nullNode
      | node :: rest => nodeLoop body (node :: rest) i npos (sizeSub node.size npos) 0 size acc

/-- `memcpy(cur->ptr + npos, buf + bpos, len)`. -/
def copyIn (buf : List Byte) (node npos bpos len : ℕ) (nodes : List Node) : Except Fault (List Node) :=
  match nodes[node]? with
  | none => .error .nullNode
  | some target =>
      if npos + len ≤ target.ptr.length then
        .ok (nodes.set node { target with ptr := target.ptr.splice npos ((buf.drop bpos).take len) })
      else .error .outsideNode

/-- `memcpy(buf + bpos, cur->ptr + npos, len)`, the caller's buffer being filled in order. -/
def copyOut (nodes : List Node) (node npos _bpos len : ℕ) (buf : List Byte) :
    Except Fault (List Byte) :=
  match nodes[node]? with
  | none => .error .nullNode
  | some source =>
      if npos + len ≤ source.ptr.length then .ok (buf ++ (source.ptr.drop npos).take len)
      else .error .outsideNode

/-- `buffers.push_back(iov)`. -/
def gather (node npos _bpos len : ℕ) (buffers : List IoVec) : Except Fault (List IoVec) :=
  .ok (buffers ++ [⟨node, npos, len⟩])

def write (buf : List Byte) : Op Unit := fun s =>
  if buf.length = 0 then .done () s
  else
    let s := s.addCapacity buf.length
    let npos := s.position % s.baseSize
    match copyAcross (copyIn buf) s.nodes s.cur npos buf.length s.nodes with
    | .error cause => .fault cause
    | .ok (nodes, cur) =>
        let position := s.position + buf.length
        let size := if position > s.size then position else s.size
        .done () { s with nodes, cur, position, size }

def read (size : ℕ) : Op (List Byte) := fun s =>
  if size > s.getReadSize then .thrown (.outOfRange "not enough len") s
  else
    let npos := s.position % s.baseSize
    match copyAcross (copyOut s.nodes) s.nodes s.cur npos size [] with
    | .error cause => .fault cause
    | .ok (buf, cur) => .done buf { s with cur, position := s.position + size }

/-- `cur = m_root`, then `cur = cur->next` as often as `count` says. -/
def follow (nodes : List Node) : ℕ → Except Fault (Option ℕ)
  | 0 => .ok (some 0)
  | count + 1 => do
      match ← follow nodes count with
      | none => .error .nullNode
      | some i => .ok (if i + 1 < nodes.length then some (i + 1) else none)

/-- `read(buf, size, position) const`. -/
def readAt (size position : ℕ) : Op (List Byte) := fun s =>
  if size > sizeSub s.size position then .thrown (.outOfRange "not enough len") s
  else
    let npos := position % s.baseSize
    let count := position / s.baseSize
    match follow s.nodes count with
    | .error cause => .fault cause
    | .ok cur =>
        match copyAcross (copyOut s.nodes) s.nodes cur npos size [] with
        | .error cause => .fault cause
        | .ok (buf, _) => .done buf s

/-- The loop of `setPosition`: the index of the node that holds offset `v` of the chain. -/
def seek : List Node → ℕ → Except Fault ℕ
  | [], _ => .error .nullNode
  | node :: rest, v => if v ≥ node.size then (seek rest (v - node.size)).map (· + 1) else .ok 0

def setPosition (v : ℕ) : Op Unit := fun s =>
  if v > s.capacity then .thrown (.outOfRange "set_position out of range") s
  else
    let size := if v > s.size then v else s.size
    match seek s.nodes v with
    | .error cause => .fault cause
    | .ok i => .done () { s with position := v, size, cur := some i }

/-- Every node but the root is deleted. -/
def clear : Op Unit := fun s =>
  .done () { s with
    position := 0, size := 0, capacity := s.baseSize, nodes := s.nodes.take 1, cur := some 0 }

def toString : Op (List Byte) := fun s =>
  if s.getReadSize = 0 then .done [] s else readAt s.getReadSize s.position s

/-- The length and the segments pushed onto the caller's array. -/
def getWriteBuffers (len : ℕ) : Op (ℕ × List IoVec) := fun s =>
  if len = 0 then .done (0, []) s
  else
    let s := s.addCapacity len
    let npos := s.position % s.baseSize
    match copyAcross gather s.nodes s.cur npos len [] with
    | .error cause => .fault cause
    | .ok (buffers, _) => .done (len, buffers) s

def setIsLittleEndian (val : Bool) : Op Unit := fun s =>
  .done () { s with endian := if val then .littleEndian else .bigEndian }

/-! ## Runs of calls -/

/-- A call with its arguments. -/
inductive Request where
  | write (buf : List Byte)
  | read (size : ℕ)
  | setPosition (v : ℕ)
  | clear
  | toString
  | getWriteBuffers (len : ℕ)
  | setIsLittleEndian (val : Bool)
deriving DecidableEq, Repr

/-- What a call returns. -/
inductive Reply where
  | unit
  | bytes (buf : List Byte)
  | buffers (len : ℕ) (segments : List IoVec)
deriving DecidableEq, Repr

def perform : Request → Op Reply
  | .write buf => do write buf; return .unit
  | .read size => do return .bytes (← read size)
  | .setPosition v => do setPosition v; return .unit
  | .clear => do clear; return .unit
  | .toString => do return .bytes (← toString)
  | .getWriteBuffers len => do
      let (len, segments) ← getWriteBuffers len
      return .buffers len segments
  | .setIsLittleEndian val => do setIsLittleEndian val; return .unit

/-- A completed call: what was asked, and what was returned or thrown. -/
abbrev Event := Request × Except Thrown Reply

/-- The outcome that returns or throws `out` and leaves `t`. -/
def ended (out : Except Thrown Reply) (t : ByteArray) : Outcome ByteArray Thrown Fault Reply :=
  match out with
  | .ok reply => .done reply t
  | .error error => .thrown error t

/-- The calls on one fresh `ByteArray`; a call that faults has no step. -/
def machine (baseSize : ℕ) (heap : ℕ → ℕ → Byte) : Machine ByteArray Event where
  Init s := s = new baseSize heap
  Step s event t := perform event.1 s = ended event.2 t

end ByteArray

end Sylar
