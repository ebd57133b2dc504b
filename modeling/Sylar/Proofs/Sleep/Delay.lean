import Mathlib.Tactic.NormNum
import Sylar.Model.Sleep

/-! # The delay a hooked sleep asks for

The product of `sleep` wraps at `2 ^ 32`, and what `nanosleep` has computed in a `long` goes through an
`int` and is extended with its sign. `usleep` only divides.
-/

namespace Sylar

theorem long_eq_some {v w : ℤ} : long v = some w ↔ (-2 ^ 63 ≤ v ∧ v < 2 ^ 63) ∧ v = w := by
  unfold long
  split_ifs with fits
  · rw [Option.some.injEq, and_iff_right fits]
  · exact iff_of_false nofun fun both => fits both.1

/-- Seconds are converted to milliseconds and a rest is added to them. -/
theorem long_bind {β : Type} {seconds rest : ℤ} (notNegative : 0 ≤ seconds) (notNegative' : 0 ≤ rest)
    (f : ℤ → Option β) :
    ((long (seconds * 1000)).bind fun product => (long (product + rest)).bind f) =
      if seconds * 1000 + rest < 2 ^ 63 then f (seconds * 1000 + rest) else none := by
  split_ifs with fits
  · have product : long (seconds * 1000) = some (seconds * 1000) := long_eq_some.mpr ⟨by omega, rfl⟩
    have sum : long (seconds * 1000 + rest) = some (seconds * 1000 + rest) :=
      long_eq_some.mpr ⟨by omega, rfl⟩
    rw [product, Option.bind_some, sum, Option.bind_some]
  · cases product : long (seconds * 1000) with
    | none => rfl
    | some v =>
      obtain ⟨_, rfl⟩ := long_eq_some.mp product
      have sum : long (seconds * 1000 + rest) = none := if_neg fun both => fits both.2
      rw [Option.bind_some, sum, Option.bind_none]

namespace Sleep

namespace Request

/-- Seconds of 64 bits that are not negative, and nanoseconds of less than a second. -/
def WellFormed : Request → Prop
  | .nanosleep req => 0 ≤ req.tvSec ∧ req.tvSec < 2 ^ 63 ∧ 0 ≤ req.tvNsec ∧ req.tvNsec < 10 ^ 9
  | _ => True

/-- The time asked for in whole milliseconds. -/
def milliseconds : Request → ℤ
  | .sleep seconds => seconds.toNat * 1000
  | .usleep usec => usec.toNat / 1000
  | .nanosleep req => (req.tvSec * 10 ^ 9 + req.tvNsec) / 10 ^ 6

/-- The milliseconds are those of an `unsigned int` in `sleep` and of an `int` in `nanosleep`. -/
def Narrow : Request → Prop
  | .sleep seconds => seconds.toNat * 1000 < 2 ^ 32
  | .usleep _ => True
  | .nanosleep req => (Request.nanosleep req).milliseconds < 2 ^ 31

instance : DecidablePred Narrow
  | .sleep _ => inferInstanceAs (Decidable (_ < _))
  | .usleep _ => inferInstanceAs (Decidable True)
  | .nanosleep _ => inferInstanceAs (Decidable (_ < _))

/-- The hook adds a timer of exactly the time asked for. -/
def Arms (request : Request) : Prop :=
  ∃ ms, request.run true = some (.addTimer ms) ∧ (ms.toNat : ℤ) = request.milliseconds

theorem arms_sleep_iff (seconds : BitVec 32) :
    (Request.sleep seconds).Arms ↔ seconds.toNat * 1000 < 2 ^ 32 := by
  have product : ((seconds * 1000).setWidth 64).toNat = seconds.toNat * 1000 % 2 ^ 32 := by
    rw [BitVec.toNat_setWidth, BitVec.toNat_mul]
    exact Nat.mod_eq_of_lt (by omega)
  constructor
  · rintro ⟨ms, ran, exact⟩
    obtain rfl : (seconds * 1000).setWidth 64 = ms := Action.addTimer.inj (Option.some.inj ran)
    have exact : (((seconds * 1000).setWidth 64).toNat : ℤ) = seconds.toNat * 1000 := exact
    omega
  · intro narrow
    refine ⟨_, rfl, ?_⟩
    change (((seconds * 1000).setWidth 64).toNat : ℤ) = seconds.toNat * 1000
    omega

theorem arms_usleep (usec : BitVec 32) : (Request.usleep usec).Arms := by
  refine ⟨_, rfl, ?_⟩
  change (((usec / 1000).setWidth 64).toNat : ℤ) = usec.toNat / 1000
  have quotient : (usec / 1000).toNat = usec.toNat / 1000 := BitVec.toNat_udiv
  rw [BitVec.toNat_setWidth, Nat.mod_eq_of_lt (by omega), quotient]
  push_cast
  rfl

/-- Seconds and nanoseconds are converted apart, which loses nothing. -/
theorem milliseconds_nanosleep {req : Timespec} (wf : (Request.nanosleep req).WellFormed) :
    (Request.nanosleep req).milliseconds = req.tvSec * 1000 + (req.tvNsec.tdiv 1000).tdiv 1000 := by
  obtain ⟨_, _, notNegative, _⟩ := wf
  rw [Int.tdiv_eq_ediv_of_nonneg notNegative, Int.tdiv_eq_ediv_of_nonneg (by omega)]
  change (req.tvSec * 10 ^ 9 + req.tvNsec) / 10 ^ 6 = _
  omega

/-- Without overflow, `nanosleep` adds a timer of what an `int` holds of the milliseconds. -/
theorem run_nanosleep {req : Timespec} (wf : (Request.nanosleep req).WellFormed) :
    (Request.nanosleep req).run true =
      if (Request.nanosleep req).milliseconds < 2 ^ 63 then
        some (.addTimer ((BitVec.ofInt 32 (Request.nanosleep req).milliseconds).signExtend 64)) else none := by
  have sum := milliseconds_nanosleep wf
  obtain ⟨sec, _, nsec, _⟩ := wf
  have rest : 0 ≤ (req.tvNsec.tdiv 1000).tdiv 1000 :=
    Int.tdiv_nonneg (Int.tdiv_nonneg nsec (by decide)) (by decide)
  rw [sum]
  exact long_bind sec rest fun sum => some (Action.addTimer ((BitVec.ofInt 32 sum).signExtend 64))

/-- A number of milliseconds comes through the `int` unchanged exactly if an `int` holds it. -/
theorem signExtend_ofInt_iff {total : ℤ} (notNegative : 0 ≤ total) (bounded : total < 2 ^ 63) :
    ((((BitVec.ofInt 32 total).signExtend 64).toNat : ℕ) : ℤ) = total ↔ total < 2 ^ 31 := by
  have signed : ((BitVec.ofInt 32 total).signExtend 64).toInt = total.bmod (2 ^ 32) := by
    rw [BitVec.toInt_signExtend_of_le (by decide), BitVec.toInt_ofInt]
  rw [BitVec.toInt_eq_toNat_cond] at signed
  rw [Int.bmod] at signed
  have positive := ((BitVec.ofInt 32 total).signExtend 64).isLt
  split_ifs at signed <;> omega

theorem arms_nanosleep_iff {req : Timespec} (wf : (Request.nanosleep req).WellFormed) :
    (Request.nanosleep req).Arms ↔ (Request.nanosleep req).milliseconds < 2 ^ 31 := by
  have ran := run_nanosleep wf
  have notNegative : 0 ≤ (Request.nanosleep req).milliseconds := by
    change 0 ≤ (req.tvSec * 10 ^ 9 + req.tvNsec) / 10 ^ 6
    obtain ⟨sec, _, nsec, _⟩ := wf
    omega
  unfold Arms
  rw [ran]
  split_ifs with fits
  · rw [← signExtend_ofInt_iff notNegative fits]
    constructor
    · rintro ⟨ms, armed, exact⟩
      obtain rfl := Action.addTimer.inj (Option.some.inj armed)
      exact exact
    · intro exact
      exact ⟨_, rfl, exact⟩
  · exact iff_of_false (fun ⟨_, armed, _⟩ => nomatch armed) (by omega)

theorem arms_iff {request : Request} (wf : request.WellFormed) : request.Arms ↔ request.Narrow := by
  cases request with
  | sleep seconds => exact arms_sleep_iff seconds
  | usleep usec => exact iff_of_true (arms_usleep usec) trivial
  | nanosleep req => exact arms_nanosleep_iff wf

end Request

/-- With hooks enabled, a request of less than `2 ^ 64` milliseconds adds a timer of exactly these
milliseconds if and only if they are those of an `unsigned int` for `sleep` and of an `int` for `nanosleep`,
and among such requests a longer one is not due earlier. -/
theorem hooked_sleep_exact_iff (request : Request) (wf : request.WellFormed) :
    ((request.milliseconds < 2 ^ 64 → request.Arms) ↔ request.Narrow ∨ 2 ^ 64 ≤ request.milliseconds) ∧
    ∀ longer : Request, longer.WellFormed → request.Narrow → longer.Narrow →
      request.milliseconds ≤ longer.milliseconds → ∃ ms ms', request.run true = some (.addTimer ms) ∧
        longer.run true = some (.addTimer ms') ∧ ms ≤ ms' ∧
        ∀ cb now, now.toNat + longer.milliseconds < 2 ^ 64 →
          (Timer.new ms cb false now).next ≤ (Timer.new ms' cb false now).next := by
  refine ⟨?_, ?_⟩
  · rw [Request.arms_iff wf, imp_iff_or_not, not_lt]
  · intro longer wf' narrow narrow' le
    obtain ⟨ms, ran, exact⟩ := (Request.arms_iff wf).mpr narrow
    obtain ⟨ms', ran', exact'⟩ := (Request.arms_iff wf').mpr narrow'
    have shorter : ms.toNat ≤ ms'.toNat := by omega
    refine ⟨ms, ms', ran, ran', BitVec.le_def.mpr shorter, fun cb now fits => ?_⟩
    change now + ms ≤ now + ms'
    rw [BitVec.le_def, BitVec.toNat_add, BitVec.toNat_add, Nat.mod_eq_of_lt (by omega),
      Nat.mod_eq_of_lt (by omega)]
    omega

/-- A second and a half. -/
theorem hooked_sleep_exact_iff_short : (Request.nanosleep ⟨1, 500000000⟩).Arms := by
  have exact := (hooked_sleep_exact_iff (.nanosleep ⟨1, 500000000⟩) (by simp [Request.WellFormed])).1
  exact exact.mpr (Or.inl (by decide)) (by decide)

/-- A sleep of 4294968 seconds is over before one of a second, and one of 2147484 seconds with
`nanosleep` is due in the past. -/
theorem hooked_sleep_wraps : (Request.sleep 4294968).WellFormed ∧
    (Request.sleep 4294968).milliseconds = 4294968000 ∧
    (Request.sleep 4294968).run true = some (.addTimer 704) ∧ ¬ (Request.sleep 4294968).Arms ∧
    (Request.sleep 1).run true = some (.addTimer 1000) ∧
    (Request.nanosleep ⟨2147484, 0⟩).run true = some (.addTimer (-2147483296)) ∧
    ¬ (Request.nanosleep ⟨2147484, 0⟩).Arms ∧
    (Timer.new (-2147483296) none false 1700000000000).next < 1700000000000 := by
  have tooLong : ¬ (Request.sleep 4294968).Arms := by
    rw [Request.arms_iff (show (Request.sleep 4294968).WellFormed from trivial)]
    decide
  have negative : ¬ (Request.nanosleep ⟨2147484, 0⟩).Arms := by
    rw [Request.arms_iff (by simp [Request.WellFormed])]
    decide
  exact ⟨trivial, rfl, rfl, tooLong, rfl, by decide, negative, by decide⟩

end Sleep

end Sylar
