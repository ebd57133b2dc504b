import Mathlib.Logic.Function.Basic
import Sylar.Machine.Path
import Sylar.Model.Task
import Sylar.ToMathlib.OrderedSet

/-! # `Timer` and `TimerManager`

`m_timers` is the list of its elements in iteration order. A `Timer::ptr` is the address of a timer,
which the allocator chooses and may use again once nothing refers to the timer any more, and the
clock is an argument of every function that reads it. Each function that holds the lock once is one
critical section; `reset` and `listExpiredCb` look at something before they take it for good, and are
two steps of a thread.
-/

namespace Sylar

/-- The address of a `Timer`. -/
abbrev TimerPtr := ℕ

/-- The members of `Timer`; there is one manager. -/
structure Timer where
  recurring : Bool
  ms : BitVec 64
  next : BitVec 64
  cb : Option Callback
deriving DecidableEq, Repr

/-- The constructor that `addTimer` uses. -/
def Timer.new (ms : BitVec 64) (cb : Option Callback) (recurring : Bool) (now : BitVec 64) : Timer :=
  ⟨recurring, ms, now + ms, cb⟩

/-- `Timer(next)`. -/
def Timer.probe (next : BitVec 64) : Timer := ⟨false, 0, next, none⟩

/-- `Timer::Comparator::operator()`, `none` being a null pointer. -/
def Timer.comparator (heap : TimerPtr → Timer) : Option TimerPtr → Option TimerPtr → Bool
  | none, none => false
  | none, some _ => true
  | some _, none => false
  | some lhs, some rhs =>
      if (heap lhs).next < (heap rhs).next then true
      else if (heap rhs).next < (heap lhs).next then false
      else lhs < rhs

/-- The order of the elements of `m_timers`, none of which is null. -/
def Timer.before (heap : TimerPtr → Timer) (lhs rhs : TimerPtr) : Bool :=
  comparator heap (some lhs) (some rhs)

/-- The members of `TimerManager` and the timers they lead to. An address is `live` as long as
something refers to the timer there. -/
structure TimerManager where
  heap : TimerPtr → Timer
  live : TimerPtr → Bool
  timers : List TimerPtr
  tickled : Bool
  previousTime : BitVec 64

namespace TimerManager

/-- `*m_timers.begin()` of an empty set. -/
inductive Fault where
  | emptySet
deriving DecidableEq, Repr

/-- What a critical section returns, whether `onTimerInsertedAtFront` is called behind it, and the
manager it leaves. -/
structure Locked where
  result : Bool
  atFront : Bool
  manager : TimerManager

/-- The constructor. -/
def new (now : BitVec 64) (heap : TimerPtr → Timer) : TimerManager where
  heap := heap
  live := fun _ => false
  timers := []
  tickled := false
  previousTime := now

def set (self : TimerPtr) (timer : Timer) (m : TimerManager) : TimerManager :=
  { m with heap := Function.update m.heap self timer }

/-- `m_timers.find(self)`. -/
def find (self : TimerPtr) (m : TimerManager) : Option ℕ :=
  OrderedSet.find (Timer.before m.heap) self m.timers

/-- `m_timers.insert(val)`: the iterator it returns and the set it leaves. -/
def insert (val : TimerPtr) (m : TimerManager) : ℕ × TimerManager :=
  let (it, timers) := OrderedSet.insert (Timer.before m.heap) val m.timers
  (it, { m with timers })

/-- `m_timers.erase(it)`. -/
def erase (it : ℕ) (m : TimerManager) : TimerManager := { m with timers := m.timers.eraseIdx it }

/-- `addTimer(val, lock)`. -/
def addTimerLocked (val : TimerPtr) (m : TimerManager) : Locked :=
  let (it, m) := m.insert val
  let atFront := it == 0 && !m.tickled
  ⟨true, atFront, if atFront then { m with tickled := true } else m⟩

/-- `addTimer(ms, cb, recurring)`, the new timer being at `self`. -/
def addTimer (self : TimerPtr) (ms : BitVec 64) (cb : Option Callback) (recurring : Bool)
    (now : BitVec 64) (m : TimerManager) : Locked :=
  addTimerLocked self
    ({ m with live := Function.update m.live self true }.set self (Timer.new ms cb recurring now))

/-- `Timer::cancel`. -/
def cancel (self : TimerPtr) (m : TimerManager) : Locked :=
  let timer := m.heap self
  if timer.cb.isNone then ⟨false, false, m⟩
  else
    let m := m.set self { timer with cb := none }
    match m.find self with
    | some it => ⟨true, false, m.erase it⟩
    | none => ⟨true, false, m⟩

/-- `Timer::refresh`. -/
def refresh (self : TimerPtr) (now : BitVec 64) (m : TimerManager) : Locked :=
  let timer := m.heap self
  if timer.cb.isNone then ⟨false, false, m⟩
  else
    match m.find self with
    | none => ⟨false, false, m⟩
    | some it => addTimerLocked self ((m.erase it).set self { timer with next := now + timer.ms })

/-- The test `reset` makes before it takes the lock. -/
def resetSkips (self : TimerPtr) (ms : BitVec 64) (fromNow : Bool) (m : TimerManager) : Bool :=
  ms == (m.heap self).ms && !fromNow

/-- The rest of `reset`. -/
def resetLocked (self : TimerPtr) (ms : BitVec 64) (fromNow : Bool) (now : BitVec 64)
    (m : TimerManager) : Locked :=
  let timer := m.heap self
  if timer.cb.isNone then ⟨false, false, m⟩
  else
    match m.find self with
    | none => ⟨false, false, m⟩
    | some it =>
        let start := if fromNow then now else timer.next - timer.ms
        addTimerLocked self ((m.erase it).set self { timer with ms := ms, next := start + ms })

/-- `Timer::reset`. -/
def reset (self : TimerPtr) (ms : BitVec 64) (fromNow : Bool) (now : BitVec 64) (m : TimerManager) :
    Locked :=
  if m.resetSkips self ms fromNow then ⟨true, false, m⟩ else m.resetLocked self ms fromNow now

def getNextTimer (now : BitVec 64) (m : TimerManager) : BitVec 64 × TimerManager :=
  let m := { m with tickled := false }
  match m.timers with
  | [] => (~~~0#64, m)
  | next :: _ =>
      if now ≥ (m.heap next).next then (0, m) else ((m.heap next).next - now, m)

/-- Whether the clock went back by more than an hour. -/
def detectClockRollover (now : BitVec 64) (m : TimerManager) : Bool × TimerManager :=
  let rollover := decide (now < m.previousTime) && decide (now < m.previousTime - 3600000#64)
  (rollover, { m with previousTime := now })

/-- `!rollover && (*m_timers.begin())->m_next > now_ms`, which `listExpiredCb` returns on. -/
def nothingExpired (rollover : Bool) (now : BitVec 64) (m : TimerManager) : Except Fault Bool :=
  if rollover then .ok false
  else
    match m.timers with
    | [] => .error .emptySet
    | first :: _ => .ok (decide ((m.heap first).next > now))

/-- The iterator `it` that ends the expired timers; `probe` is the address of `now_timer`. -/
def expiredEnd (rollover : Bool) (now : BitVec 64) (probe : TimerPtr) (m : TimerManager) : ℕ :=
  let heap := Function.update m.heap probe (Timer.probe now)
  let it := if rollover then m.timers.length
    else OrderedSet.lowerBound (Timer.before heap) probe m.timers
  it + ((m.timers.drop it).takeWhile fun timer => (m.heap timer).next == now).length

/-- The body of the last loop: the callback is handed out, and the timer goes back into the set if it
recurs and loses the callback otherwise. -/
def expire (now : BitVec 64) (timer : TimerPtr) (m : TimerManager) : TimerManager :=
  let t := m.heap timer
  if t.recurring then ((m.set timer { t with next := now + t.ms }).insert timer).2
  else m.set timer { t with cb := none }

/-- The last loop of `listExpiredCb`. -/
def expireAll (now : BitVec 64) :
    List TimerPtr → TimerManager → List (Option Callback) × TimerManager
  | [], m => ([], m)
  | timer :: rest, m =>
      let (cbs, after) := expireAll now rest (m.expire now timer)
      ((m.heap timer).cb :: cbs, after)

/-- `listExpiredCb` from the write lock on: the callbacks it appends and the manager it leaves. -/
def listExpiredCbLocked (now : BitVec 64) (probe : TimerPtr) (m : TimerManager) :
    Except Fault (List (Option Callback) × TimerManager) := do
  let (rollover, m) := m.detectClockRollover now
  if ← m.nothingExpired rollover now then return ([], m)
  let it := m.expiredEnd rollover now probe
  return expireAll now (m.timers.take it) { m with timers := m.timers.drop it }

/-! ## Interleavings -/

/-- Where a thread stands between two critical sections of one function. -/
inductive Phase where
  | idle
  /-- In `listExpiredCb`, behind the emptiness check. -/
  | checked (now : BitVec 64)
  /-- In `reset`, in front of the lock. -/
  | resetting (self : TimerPtr) (ms : BitVec 64) (fromNow : Bool)
deriving DecidableEq, Repr

/-- The manager and every thread. -/
structure State where
  manager : TimerManager
  phase : ℕ → Phase

def State.enter (s : State) (thread : ℕ) (phase : Phase) : State :=
  { s with phase := Function.update s.phase thread phase }

/-- A critical section, with its arguments and its answer. -/
inductive Event where
  | addTimer (self : TimerPtr) (ms : BitVec 64) (cb : Option Callback) (recurring : Bool)
      (now : BitVec 64)
  | cancel (self : TimerPtr) (result : Bool)
  | refresh (self : TimerPtr) (now : BitVec 64) (result : Bool)
  | resetSkip (self : TimerPtr) (ms : BitVec 64) (fromNow : Bool)
  | resetEnter (thread : ℕ) (self : TimerPtr) (ms : BitVec 64) (fromNow : Bool)
  | resetLocked (thread : ℕ) (now : BitVec 64) (result : Bool)
  | getNextTimer (now : BitVec 64) (timeout : BitVec 64)
  | listExpiredCbEmpty
  | listExpiredCbEnter (thread : ℕ) (now : BitVec 64)
  | listExpiredCbLocked (thread : ℕ) (probe : TimerPtr) (cbs : List (Option Callback))
  | release (self : TimerPtr)

/-- One critical section of some thread. A timer that is operated on is referred to by the caller,
and the address of a new one is in no use. -/
inductive Step : State → Event → State → Prop
  | addTimer {s : State} {self : TimerPtr} {ms : BitVec 64} {cb : Option Callback} {recurring : Bool}
      {now : BitVec 64} : s.manager.live self = false →
      Step s (.addTimer self ms cb recurring now)
        { s with manager := (s.manager.addTimer self ms cb recurring now).manager }
  | cancel {s : State} {self : TimerPtr} : s.manager.live self = true →
      Step s (.cancel self (s.manager.cancel self).result)
        { s with manager := (s.manager.cancel self).manager }
  | refresh {s : State} {self : TimerPtr} {now : BitVec 64} : s.manager.live self = true →
      Step s (.refresh self now (s.manager.refresh self now).result)
        { s with manager := (s.manager.refresh self now).manager }
  | resetSkip {s : State} {self : TimerPtr} {ms : BitVec 64} {fromNow : Bool} :
      s.manager.live self = true → s.manager.resetSkips self ms fromNow = true →
      Step s (.resetSkip self ms fromNow) s
  | resetEnter {s : State} {thread : ℕ} {self : TimerPtr} {ms : BitVec 64} {fromNow : Bool} :
      s.phase thread = .idle → s.manager.live self = true →
      s.manager.resetSkips self ms fromNow = false →
      Step s (.resetEnter thread self ms fromNow) (s.enter thread (.resetting self ms fromNow))
  | resetLocked {s : State} {thread : ℕ} {self : TimerPtr} {ms : BitVec 64} {fromNow : Bool}
      {now : BitVec 64} : s.phase thread = .resetting self ms fromNow →
      Step s (.resetLocked thread now (s.manager.resetLocked self ms fromNow now).result)
        ({ s with manager := (s.manager.resetLocked self ms fromNow now).manager }.enter thread .idle)
  | getNextTimer {s : State} {now : BitVec 64} :
      Step s (.getNextTimer now (s.manager.getNextTimer now).1)
        { s with manager := (s.manager.getNextTimer now).2 }
  | listExpiredCbEmpty {s : State} : s.manager.timers = [] → Step s .listExpiredCbEmpty s
  | listExpiredCbEnter {s : State} {thread : ℕ} {now : BitVec 64} : s.phase thread = .idle →
      s.manager.timers ≠ [] → Step s (.listExpiredCbEnter thread now) (s.enter thread (.checked now))
  | listExpiredCbLocked {s : State} {thread : ℕ} {now : BitVec 64} {probe : TimerPtr}
      {cbs : List (Option Callback)} {m : TimerManager} : s.phase thread = .checked now →
      s.manager.live probe = false → s.manager.listExpiredCbLocked now probe = .ok (cbs, m) →
      Step s (.listExpiredCbLocked thread probe cbs) ({ s with manager := m }.enter thread .idle)
  | release {s : State} {self : TimerPtr} : s.manager.live self = true → self ∉ s.manager.timers →
      (∀ thread ms fromNow, s.phase thread ≠ .resetting self ms fromNow) →
      Step s (.release self) { s with manager :=
        { s.manager with live := Function.update s.manager.live self false } }

/-- Any number of threads on one new manager. -/
def machine : Machine State Event where
  Init s := ∃ now heap, s = ⟨new now heap, fun _ => .idle⟩
  Step := Step

end TimerManager

end Sylar
