import Sylar.Model.FdManager
import Sylar.Model.FdTable

/-! # The tables looked into with an `int`

`FdManager::get` without creation and `del`, and what `delEvent`, `cancelEvent` and `cancelAll` do under the
read lock. A descriptor is any `int`. The size is converted to `int` for the comparison, and the
descriptor to `size_t` for the access, so that a negative one is an index past the end of every table.
-/

namespace Sylar

/-- An access past the end of a vector. -/
inductive OutOfBounds where
  | outOfBounds
deriving DecidableEq, Repr

/-- The index a descriptor is converted to. -/
def fdIndex (fd : BitVec 32) : ℕ := (fd.signExtend 64).toNat

/-- `v[fd]`. -/
def fdSlot {α : Type} (v : List α) (fd : BitVec 32) : Except OutOfBounds α :=
  match v[fdIndex fd]? with
  | some a => .ok a
  | none => .error .outOfBounds

namespace FdManager

/-- `get(fd, false)`. -/
def get (fd : BitVec 32) (m : FdManager) : Except OutOfBounds (Option FdCtxPtr) :=
  if m.intSize ≤ fd.toInt then .ok none else fdSlot m.datas fd

def del (fd : BitVec 32) (m : FdManager) : Except OutOfBounds FdManager :=
  if m.intSize ≤ fd.toInt then .ok m
  else (fdSlot m.datas fd).map fun _ => { m with datas := m.datas.set (fdIndex fd) none }

end FdManager

namespace FdTable

/-- The thread goes on with the context it has found, or returns false. -/
def lookup (call : Lookup) (fd : BitVec 32) (m : FdTable) : Except OutOfBounds (Option Phase) :=
  if m.intSize ≤ fd.toInt then .ok none
  else (fdSlot m.fdContexts fd).map fun ctx => some (.taking call ctx)

def delEvent (fd : BitVec 32) (event : IOManager.Event) : FdTable → Except OutOfBounds (Option Phase) :=
  lookup (.delEvent event) fd

def cancelEvent (fd : BitVec 32) (event : IOManager.Event) : FdTable → Except OutOfBounds (Option Phase) :=
  lookup (.cancelEvent event) fd

def cancelAll (fd : BitVec 32) : FdTable → Except OutOfBounds (Option Phase) := lookup .cancelAll fd

end FdTable

end Sylar
