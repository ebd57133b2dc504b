import Sylar.Machine.FlatFile
import Sylar.Proofs.ByteArray.Invariant

/-! # Whole runs of calls: the invariant and the refinement of a flat file

`Effect` lists what a completed call can do to a well-formed state, thrown calls included. Both
results about runs follow from it: every reachable state is well-formed, and forgetting the chain
turns every run into a run of a flat file with a cursor that answers each call alike.
-/

namespace Sylar.ByteArray

/-- What a completed call answers and which state it leaves. -/
inductive Effect (s : ByteArray) : Event → ByteArray → Prop
  | write {buf : List Byte} {t : ByteArray} : Written s buf t → Effect s (.write buf, .ok .unit) t
  | read {n : ℕ} : s.position + n ≤ s.size → s.position < s.capacity →
      Effect s (.read n, .ok (.bytes ((s.bytes.drop s.position).take n))) (s.moved (s.position + n))
  | readThrown {n : ℕ} : s.size < s.position + n →
      Effect s (.read n, .error (.outOfRange "not enough len")) s
  | setPosition {v : ℕ} : v < s.capacity →
      Effect s (.setPosition v, .ok .unit) ({ s with size := max s.size v }.moved v)
  | setPositionThrown {v : ℕ} : s.capacity < v →
      Effect s (.setPosition v, .error (.outOfRange "set_position out of range")) s
  | clear {t : ByteArray} : Wf t → t.baseSize = s.baseSize → t.position = 0 → t.size = 0 →
      t.bytes = s.bytes.take s.baseSize → Effect s (.clear, .ok .unit) t
  | toString :
      Effect s (.toString, .ok (.bytes ((s.bytes.drop s.position).take (s.size - s.position)))) s
  | getWriteBuffers {len count : ℕ} {segments : List IoVec} :
      Effect s (.getWriteBuffers len, .ok (.buffers len segments)) (s.grown count)
  | setIsLittleEndian {val : Bool} : Effect s (.setIsLittleEndian val, .ok .unit)
      { s with endian := if val then .littleEndian else .bigEndian }

variable {b : ℕ} {heap : ℕ → ℕ → Byte} {s t : ByteArray} {event : Event}

/-- A step with the outcome the call is known to have. -/
private theorem step_done {request : Request} {reply : Reply} {after : ByteArray}
    {out : Except Thrown Reply} (step : perform request s = ended out t)
    (ran : perform request s = .done reply after) : out = .ok reply ∧ t = after := by
  rw [ran] at step
  cases out with
  | ok other => cases step; exact ⟨rfl, rfl⟩
  | error error => cases step

private theorem step_thrown {request : Request} {error : Thrown} {after : ByteArray}
    {out : Except Thrown Reply} (step : perform request s = ended out t)
    (ran : perform request s = .thrown error after) : out = .error error ∧ t = after := by
  rw [ran] at step
  cases out with
  | ok reply => cases step
  | error other => cases step; exact ⟨rfl, rfl⟩

private theorem step_not_fault {request : Request} {cause : Fault} {out : Except Thrown Reply}
    (step : perform request s = ended out t) : perform request s ≠ .fault cause := by
  intro ran
  rw [ran] at step
  cases out <;> cases step

/-- The inversion of one step of a run, used by every invariant of runs. -/
theorem Wf.effect (wf : Wf s) (step : (machine b heap).Step s event t) : Effect s event t := by
  obtain ⟨request, out⟩ := event
  change perform request s = ended out t at step
  cases request with
  | write buf =>
    obtain ⟨after, ran, written⟩ := wf.write buf
    obtain ⟨rfl, rfl⟩ := step_done step (Call.bind_done ran)
    exact .write written
  | read n =>
    rcases wf.read_cases n with ⟨short, thrown⟩ | ⟨available, inside, returned⟩ | ⟨_, _, faulted⟩
    · obtain ⟨rfl, rfl⟩ := step_thrown step (Call.bind_thrown thrown)
      exact .readThrown short
    · obtain ⟨rfl, rfl⟩ := step_done step (Call.bind_done returned)
      exact .read available inside
    · exact absurd (Call.bind_fault faulted) (step_not_fault step)
  | setPosition v =>
    rcases lt_trichotomy v s.capacity with inside | rfl | outside
    · obtain ⟨rfl, rfl⟩ := step_done step (Call.bind_done (wf.setPosition inside))
      exact .setPosition inside
    · exact absurd (Call.bind_fault wf.setPosition_full) (step_not_fault step)
    · obtain ⟨rfl, rfl⟩ := step_thrown step (Call.bind_thrown (Wf.setPosition_thrown outside))
      exact .setPositionThrown outside
  | clear =>
    obtain ⟨after, ran, wf', base, position, size, content⟩ := wf.clear
    obtain ⟨rfl, rfl⟩ := step_done step (Call.bind_done ran)
    exact .clear wf' base position size content
  | toString =>
    obtain ⟨rfl, rfl⟩ := step_done step (Call.bind_done wf.toString)
    exact .toString
  | getWriteBuffers len =>
    obtain ⟨count, segments, ran, _⟩ := wf.getWriteBuffers len
    obtain ⟨rfl, rfl⟩ := step_done step (Call.bind_done ran)
    exact .getWriteBuffers
  | setIsLittleEndian val =>
    obtain ⟨rfl, rfl⟩ := step_done step rfl
    exact .setIsLittleEndian

/-- Every completed call keeps the invariant and the base size. -/
theorem Effect.wf (wf : Wf s) (effect : Effect s event t) : Wf t ∧ t.baseSize = s.baseSize := by
  cases effect with
  | write written => exact ⟨written.wf, written.baseSize⟩
  | read available _ => exact ⟨wf.moved available, rfl⟩
  | readThrown _ => exact ⟨wf, rfl⟩
  | setPosition inside => exact ⟨wf.setPosition_wf inside.le, rfl⟩
  | setPositionThrown _ => exact ⟨wf, rfl⟩
  | clear wf' base _ _ _ => exact ⟨wf', base⟩
  | toString => exact ⟨wf, rfl⟩
  | getWriteBuffers => exact ⟨wf.grown _, rfl⟩
  | setIsLittleEndian => exact ⟨{ wf with }, rfl⟩

/-- Every reachable state is well-formed and has the base size it was built with. -/
theorem reachable_wf (base : 1 ≤ b) (reached : (machine b heap).Reachable s) :
    Wf s ∧ s.baseSize = b := by
  apply reached.invariant (P := fun s => Wf s ∧ s.baseSize = b)
  · rintro _ rfl
    exact ⟨new_wf base heap, rfl⟩
  · rintro s event t ⟨wf, size⟩ step
    have next := (wf.effect step).wf wf
    exact ⟨next.1, next.2.trans size⟩

/-- The representation invariant, and what it means for the memory accesses of write and read. -/
theorem representation_invariant (b : ℕ) (heap : ℕ → ℕ → Byte) (base : 1 ≤ b) (s : ByteArray)
    (reached : (machine b heap).Reachable s) :
    s.position ≤ s.size ∧ s.size ≤ s.capacity ∧
    (∀ node ∈ s.nodes, node.size = b ∧ node.ptr.length = b) ∧
    s.capacity = b * s.nodes.length ∧
    s.cur = (if s.position = s.capacity then none else some (s.position / b)) ∧
    (s.position ≠ s.capacity → s.position / b < s.nodes.length) ∧
    (s.getReadSize : ℤ) = s.size - s.position ∧
    (s.getCapacity : ℤ) = s.capacity - s.position ∧
    (∀ buf, ∃ t, ByteArray.write buf s = .done () t) ∧
    (∀ n, ByteArray.read n s ≠ .fault .outsideNode) := by
  obtain ⟨wf, rfl⟩ := reachable_wf base reached
  have position := wf.position
  have size := wf.size
  have capacity := wf.capacity
  refine ⟨position, size, wf.sized, capacity, ?_, ?_, ?_, ?_, ?_, ?_⟩
  · rw [wf.cur]
    by_cases full : s.position = s.capacity
    · rw [if_pos full, full, capacity, cursorAt_full wf.base]
    · rw [if_neg full, cursorAt_of_lt (by omega)]
  · intro notFull
    exact Nat.div_lt_of_lt_mul (by omega)
  · rw [wf.getReadSize]; omega
  · rw [wf.getCapacity]; omega
  · intro buf
    obtain ⟨t, ran, _⟩ := wf.write buf
    exact ⟨t, ran⟩
  · intro n fault
    rcases wf.read_cases n with ⟨_, ran⟩ | ⟨_, _, ran⟩ | ⟨_, _, ran⟩
    all_goals
      rw [ran] at fault
      cases fault

/-- A run that ends with a full chain, whose node pointer is null. -/
theorem representation_invariant_full : ∃ s, (machine 1 fun _ _ => 0).Reachable s ∧
    s.position = 1 ∧ s.cur = none ∧ s.position ≤ s.size ∧ s.capacity = 1 * s.nodes.length := by
  have reached : (machine 1 fun _ _ => 0).Reachable _ :=
    ⟨_, [(.write [7], .ok .unit)], rfl, .cons (t := _) rfl (.nil _)⟩
  have holds := representation_invariant 1 (fun _ _ => 0) (by decide) _ reached
  exact ⟨_, reached, rfl, rfl, holds.1, holds.2.2.2.1⟩

/-! ## Forgetting the chain -/

/-- The flat file a state stands for. -/
def flat (s : ByteArray) : FlatFile Byte := ⟨s.bytes, s.position, s.size⟩

/-- How a flat file answers the calls of `ByteArray`. -/
inductive FlatStep : FlatFile Byte → Event → FlatFile Byte → Prop
  | write {f g : FlatFile Byte} {buf : List Byte} : f.Stores buf g →
      FlatStep f (.write buf, .ok .unit) g
  | read {f : FlatFile Byte} {n : ℕ} : f.cursor + n ≤ f.fill →
      FlatStep f (.read n, .ok (.bytes (f.view n))) (f.advance n)
  | readThrown {f : FlatFile Byte} {n : ℕ} : f.fill < f.cursor + n →
      FlatStep f (.read n, .error (.outOfRange "not enough len")) f
  | setPosition {f : FlatFile Byte} {v : ℕ} : v ≤ f.cells.length →
      FlatStep f (.setPosition v, .ok .unit) (f.seek v)
  | setPositionThrown {f : FlatFile Byte} {v : ℕ} : f.cells.length < v →
      FlatStep f (.setPosition v, .error (.outOfRange "set_position out of range")) f
  | toString {f : FlatFile Byte} : f.cursor ≤ f.fill →
      FlatStep f (.toString, .ok (.bytes (f.view (f.fill - f.cursor)))) f
  | clear {f g : FlatFile Byte} : g.cursor = 0 → g.fill = 0 → g.cells <+: f.cells →
      FlatStep f (.clear, .ok .unit) g
  | getWriteBuffers {f g : FlatFile Byte} {len : ℕ} {segments : List IoVec} :
      f.cells <+: g.cells → g.cursor = f.cursor → g.fill = f.fill →
      FlatStep f (.getWriteBuffers len, .ok (.buffers len segments)) g
  | setIsLittleEndian {f : FlatFile Byte} {val : Bool} :
      FlatStep f (.setIsLittleEndian val, .ok .unit) f

/-- The runs of a flat file that starts empty, over `b` cells of unspecified content. -/
def flatMachine (b : ℕ) : Machine (FlatFile Byte) Event where
  Init f := f.cells.length = b ∧ f.cursor = 0 ∧ f.fill = 0
  Step := FlatStep

theorem Written.stores (wf : Wf s) {buf : List Byte} (written : Written s buf t) :
    s.flat.Stores buf t.flat := by
  obtain ⟨pad, content⟩ := written.bytes
  have start : s.flat.cursor ≤ s.flat.cells.length := by
    change s.position ≤ s.bytes.length
    rw [wf.length_bytes]
    exact wf.position.trans wf.size
  refine .of_splice start content ?_ written.position written.size
  change s.bytes.length ≤ t.bytes.length
  rw [wf.length_bytes, written.wf.length_bytes, wf.capacity, written.wf.capacity, written.baseSize]
  apply Nat.mul_le_mul_left
  by_cases empty : buf = []
  · rw [written.same empty]
  · rw [written.length empty]
    exact le_max_left _ _

/-- One completed call is one step of the flat file. -/
theorem Effect.flat (wf : Wf s) (effect : Effect s event t) : FlatStep s.flat event t.flat := by
  cases effect with
  | write written => exact .write (written.stores wf)
  | read available _ => exact .read available
  | readThrown short => exact .readThrown short
  | setPosition inside => exact .setPosition (by
      change _ ≤ s.bytes.length; rw [wf.length_bytes]; exact inside.le)
  | setPositionThrown outside => exact .setPositionThrown (by
      change s.bytes.length < _; rw [wf.length_bytes]; exact outside)
  | clear _ _ position size content =>
    exact .clear position size (by change t.bytes <+: s.bytes; rw [content]; exact List.take_prefix _ _)
  | toString => exact .toString wf.position
  | getWriteBuffers =>
    refine .getWriteBuffers ?_ rfl rfl
    change s.bytes <+: (s.grown _).bytes
    rw [bytes_grown]
    exact List.prefix_append _ _
  | setIsLittleEndian => exact .setIsLittleEndian

/-- Every run of completed calls on a fresh `ByteArray` is a run of a flat file with the same calls
and the same answers, and it ends in the flat file the last state stands for. -/
theorem refines_flat (b : ℕ) (heap : ℕ → ℕ → Byte) (base : 1 ≤ b) (events : List Event)
    (s : ByteArray) (path : (machine b heap).Path (new b heap) events s) :
    (flatMachine b).Init (new b heap).flat ∧
      (flatMachine b).Path (new b heap).flat events s.flat := by
  refine ⟨⟨?_, rfl, rfl⟩, ?_⟩
  · change (new b heap).bytes.length = b
    rw [(new_wf base heap).length_bytes]
    rfl
  · exact path.simulate flat (fun _ _ _ wf step => ((wf.effect step).wf wf).1)
      (fun _ _ _ wf step => (wf.effect step).flat wf) (new_wf base heap)

/-- Two bytes written over two nodes, a repositioning, an overwriting and two reads. -/
theorem refines_flat_overwrite : ∃ s, (flatMachine 1).Path (new 1 fun _ _ => 0).flat
    [(.write [1, 2], .ok .unit), (.setPosition 1, .ok .unit), (.write [3], .ok .unit),
      (.setPosition 0, .ok .unit), (.read 2, .ok (.bytes [1, 3])),
      (.read 1, .error (.outOfRange "not enough len"))] (flat s) := by
  have path : (machine 1 fun _ _ => 0).Path (new 1 fun _ _ => 0)
      [(.write [1, 2], .ok .unit), (.setPosition 1, .ok .unit), (.write [3], .ok .unit),
        (.setPosition 0, .ok .unit), (.read 2, .ok (.bytes [1, 3])),
        (.read 1, .error (.outOfRange "not enough len"))] _ :=
    .cons rfl (.cons rfl (.cons rfl (.cons rfl (.cons rfl (.cons rfl (.nil _))))))
  exact ⟨_, (refines_flat 1 (fun _ _ => 0) (by decide) _ _ path).2⟩

end Sylar.ByteArray
