import Mathlib.Algebra.Order.BigOperators.Group.List
import Mathlib.Algebra.Order.Ring.Int
import Sylar.Model.Socket.SSLSocket

/-! # What a transfer of several buffers reports

The total is lost when a call fails behind others that have transferred all of their buffers, since the answer of
that call is returned in its place.
-/

namespace Sylar

namespace SSLSocket

variable {buffer : Buffer} {buffers front : List Buffer} {total : ℤ}

/-- The bytes that the calls have transferred. -/
def Transfer.transferred (t : Transfer) : ℤ := (t.calls.filter (0 < ·)).sum

/-- The answer is the number of bytes transferred if there are any, and no such number if there are none. -/
def Transfer.Reports (t : Transfer) : Prop :=
  ∃ rt, t.returned = some rt ∧ (0 < t.transferred → rt = t.transferred) ∧ (rt ≤ 0 → t.transferred = 0)

/-- The call for the buffer transfers all of it, and the loop goes on. -/
def Buffer.Full (buffer : Buffer) : Prop := 0 < buffer.result.toInt ∧ buffer.result.toInt = buffer.length

/-- No call behind full ones fails, and what has been transferred with it is an `int`. -/
def Smooth (total : ℤ) (buffers : List Buffer) : Prop :=
  ∀ front buffer rest, buffers = front ++ buffer :: rest → (∀ full ∈ front, full.Full) →
    0 < buffer.result.toInt ∧
      total + (front.map fun full => full.result.toInt).sum + buffer.result.toInt < 2 ^ 31

/-- No call fails behind full ones, at least one, and what has been transferred with it is an `int`. -/
def Undisturbed (buffers : List Buffer) : Prop :=
  ∀ first front buffer rest, buffers = first :: front ++ buffer :: rest → (∀ full ∈ first :: front, full.Full) →
    0 < buffer.result.toInt ∧
      ((first :: front).map fun full => full.result.toInt).sum + buffer.result.toInt < 2 ^ 31

theorem Transfer.transferred_nonneg (t : Transfer) : 0 ≤ t.transferred :=
  List.sum_nonneg fun tmp called => le_of_lt (by simpa using (List.mem_filter.mp called).2)

theorem smooth_nil : Smooth total [] := by
  intro front buffer rest split
  simp at split

/-- The first buffer of a smooth transfer, and those behind it if the loop gets there. -/
theorem smooth_cons : Smooth total (buffer :: buffers) ↔
    (0 < buffer.result.toInt ∧ total + buffer.result.toInt < 2 ^ 31) ∧
      (buffer.Full → Smooth (total + buffer.result.toInt) buffers) := by
  constructor
  · intro smooth
    refine ⟨by simpa using smooth [] buffer buffers rfl nofun, ?_⟩
    rintro full front next rest rfl before
    have here := smooth (buffer :: front) next rest rfl (List.forall_mem_cons.mpr ⟨full, before⟩)
    rw [List.map_cons, List.sum_cons, ← add_assoc] at here
    exact here
  · rintro ⟨first, later⟩ front next rest split before
    cases front with
    | nil =>
      obtain ⟨rfl, rfl⟩ := List.cons.inj split
      simpa using first
    | cons one front =>
      obtain ⟨rfl, rfl⟩ := List.cons.inj split
      obtain ⟨full, before⟩ := List.forall_mem_cons.mp before
      rw [List.map_cons, List.sum_cons, ← add_assoc]
      exact later full front next rest rfl before

/-- A call that fails ends the loop, and the total is lost. -/
theorem transfer_failed (failed : buffer.result.toInt ≤ 0) :
    transfer total (buffer :: buffers) = ⟨some buffer.result.toInt, [buffer.result.toInt]⟩ :=
  if_pos failed

theorem transfer_overflow (positive : 0 < buffer.result.toInt) (sum : signed 32 (total + buffer.result.toInt) = none) :
    transfer total (buffer :: buffers) = ⟨none, [buffer.result.toInt]⟩ := by
  rw [transfer]
  simp only [if_neg (not_le.mpr positive), sum]

/-- A call that transfers less than the buffer ends the loop with the total. -/
theorem transfer_short (positive : 0 < buffer.result.toInt) (short : buffer.result.toInt ≠ buffer.length)
    (fits : total + buffer.result.toInt < 2 ^ 31) (least : 0 ≤ total) :
    transfer total (buffer :: buffers) = ⟨some (total + buffer.result.toInt), [buffer.result.toInt]⟩ := by
  have sum : signed 32 (total + buffer.result.toInt) = some (total + buffer.result.toInt) :=
    signed_eq_some.mpr ⟨⟨by omega, fits⟩, rfl⟩
  rw [transfer]
  simp only [if_neg (not_le.mpr positive), sum, if_pos short]

theorem transfer_full (full : buffer.Full) (fits : total + buffer.result.toInt < 2 ^ 31) (least : 0 ≤ total) :
    transfer total (buffer :: buffers) =
      ⟨(transfer (total + buffer.result.toInt) buffers).returned,
        buffer.result.toInt :: (transfer (total + buffer.result.toInt) buffers).calls⟩ := by
  have sum : signed 32 (total + buffer.result.toInt) = some (total + buffer.result.toInt) :=
    signed_eq_some.mpr ⟨⟨by have := full.1; omega, fits⟩, rfl⟩
  rw [transfer]
  simp only [if_neg (not_le.mpr full.1), sum, if_neg (not_not.mpr full.2)]

theorem Transfer.transferred_cons (positive : 0 < buffer.result.toInt) (t : Transfer) (returned : Option ℤ) :
    Transfer.transferred ⟨returned, buffer.result.toInt :: t.calls⟩ = buffer.result.toInt + t.transferred := by
  simp [Transfer.transferred, positive]

/-- Once something has been transferred, the answer is the total exactly if the rest is smooth. -/
theorem transfer_returned_iff (progress : 0 < total) (buffers : List Buffer) :
    (transfer total buffers).returned = some (total + (transfer total buffers).transferred) ↔
      Smooth total buffers := by
  induction buffers generalizing total with
  | nil => exact iff_of_true (by simp [transfer, Transfer.transferred]) smooth_nil
  | cons buffer buffers ih =>
    rw [smooth_cons]
    by_cases failed : buffer.result.toInt ≤ 0
    · rw [transfer_failed failed]
      refine iff_of_false (fun same => ?_) fun smooth => absurd smooth.1.1 (not_lt.mpr failed)
      have same := Option.some.inj same
      simp [Transfer.transferred, not_lt.mpr failed] at same
      omega
    have positive := not_le.mp failed
    by_cases fits : total + buffer.result.toInt < 2 ^ 31
    · rw [and_iff_right ⟨positive, fits⟩]
      by_cases short : buffer.result.toInt = buffer.length
      · have full : buffer.Full := ⟨positive, short⟩
        rw [forall_prop_of_true full, ← ih (by omega), transfer_full full fits progress.le,
          Transfer.transferred_cons positive, add_assoc]
      · rw [transfer_short positive short fits progress.le]
        refine iff_of_true ?_ fun full => absurd full.2 short
        simp [Transfer.transferred, positive]
    · have sum : signed 32 (total + buffer.result.toInt) = none := if_neg fun range => fits range.2
      rw [transfer_overflow positive sum]
      exact iff_of_false nofun fun smooth => fits smooth.1.2

/-- What the first call of a transfer leads to. -/
theorem transfer_reports_iff : (transfer 0 (buffer :: buffers)).Reports ↔
    (buffer.Full → Smooth buffer.result.toInt buffers) := by
  by_cases failed : buffer.result.toInt ≤ 0
  · rw [transfer_failed failed]
    refine iff_of_true ⟨_, rfl, ?_⟩ fun full => absurd full.1 (not_lt.mpr failed)
    simp [Transfer.transferred, not_lt.mpr failed]
  have positive := not_le.mp failed
  have fits : 0 + buffer.result.toInt < 2 ^ 31 := by
    rw [zero_add]
    exact BitVec.toInt_lt
  by_cases short : buffer.result.toInt = buffer.length
  · have full : buffer.Full := ⟨positive, short⟩
    rw [forall_prop_of_true full, ← transfer_returned_iff positive, transfer_full full fits le_rfl, zero_add]
    have total := Transfer.transferred_cons positive (transfer buffer.result.toInt buffers)
      (transfer buffer.result.toInt buffers).returned
    have least := (transfer buffer.result.toInt buffers).transferred_nonneg
    rw [Transfer.Reports, total]
    constructor
    · rintro ⟨rt, returned, reports, -⟩
      rw [← reports (by omega)]
      exact returned
    · exact fun returned => ⟨_, returned, fun _ => rfl, fun none => by omega⟩
  · rw [transfer_short positive short fits le_rfl, zero_add]
    refine iff_of_true ⟨_, rfl, ?_⟩ fun full => absurd full.2 short
    simp [Transfer.transferred, positive]

/-- A transfer reports its progress exactly if no call fails behind others that have transferred their buffers, and
the bytes transferred are an `int`. -/
theorem vectored_reports_iff (ssl : Bool) (buffers : List Buffer) :
    ((send ssl buffers).Reports ↔ (ssl → Undisturbed buffers)) ∧
      ((recv ssl buffers).Reports ↔ (ssl → Undisturbed buffers)) := by
  have loop : (transfer 0 buffers).Reports ↔ Undisturbed buffers := by
    cases buffers with
    | nil =>
      refine iff_of_true ⟨0, rfl, fun _ => rfl, fun _ => rfl⟩ ?_
      intro first front buffer rest split
      cases split
    | cons buffer buffers =>
      rw [transfer_reports_iff]
      constructor
      · intro smooth first front next rest split before
        obtain ⟨rfl, rfl⟩ := List.cons.inj split
        obtain ⟨full, before⟩ := List.forall_mem_cons.mp before
        rw [List.map_cons, List.sum_cons]
        exact smooth full front next rest rfl before
      · rintro undisturbed full front next rest rfl before
        have here := undisturbed buffer front next rest rfl (List.forall_mem_cons.mpr ⟨full, before⟩)
        rwa [List.map_cons, List.sum_cons] at here
  cases ssl with
  | false =>
    have unconnected : Transfer.Reports ⟨some (-1), []⟩ := ⟨-1, rfl, nofun, fun _ => rfl⟩
    exact ⟨iff_of_true unconnected nofun, iff_of_true unconnected nofun⟩
  | true =>
    rw [forall_prop_of_true rfl]
    exact ⟨loop, loop⟩

/-- Of two buffers the first one is sent, and the call for the second one fails: three bytes are gone, and the answer
is an error. -/
theorem progress_not_reported :
    send true [⟨3, 3⟩, ⟨5, -1⟩] = ⟨some (-1), [3, -1]⟩ ∧ recv true [⟨3, 3⟩, ⟨5, -1⟩] = ⟨some (-1), [3, -1]⟩ ∧
      ¬(send true [⟨3, 3⟩, ⟨5, -1⟩]).Reports ∧ ¬(recv true [⟨3, 3⟩, ⟨5, -1⟩]).Reports := by
  have sent : ¬(send true [⟨3, 3⟩, ⟨5, -1⟩]).Reports := by
    rintro ⟨rt, returned, -, none⟩
    obtain rfl := Option.some.inj (show some (-1) = some rt from returned)
    exact absurd (none (by decide)) (by decide)
  exact ⟨rfl, rfl, sent, sent⟩

end SSLSocket

end Sylar
