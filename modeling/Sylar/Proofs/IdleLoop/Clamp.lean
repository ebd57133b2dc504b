import Sylar.Proofs.IdleLoop.Wakeups
import Sylar.ToMathlib.IntOf

/-! # The timeout `idle` passes to `epoll_wait`

The time to the next timer is a `uint64_t` and is compared as an `int`, so what matters of a long delay
are its low 32 bits. Those of a delay of `2 ^ 31` milliseconds are negative, and `epoll_wait` then
returns for an event only.
-/

namespace Sylar.IdleLoop

variable {v : BitVec 64}

theorem toInt_eq (v : BitVec 64) : toInt v = intOf v.toNat := rfl

theorem toInt_of_le (small : v.toNat ≤ 3000) : toInt v = v.toNat := by
  rw [toInt_eq]
  exact intOf_of_lt (by omega)

theorem clamp_cases (v : BitVec 64) : clamp v = v ∨ clamp v = 3000 := by
  unfold clamp
  split_ifs
  · exact Or.inr rfl
  · exact Or.inl rfl
  · exact Or.inr rfl

/-- The clamp leaves what it has clamped, so that going through it again changes nothing. -/
theorem clamp_clamp (v : BitVec 64) : clamp (clamp v) = clamp v := by
  rcases clamp_cases v with same | max
  · rw [same, same]
  · rw [max]
    decide

theorem epollTimeoutAfter_eq (failures : ℕ) (v : BitVec 64) : epollTimeoutAfter failures v = epollTimeout v := by
  have rounds : clamp (clamp^[failures] v) = clamp v := by
    induction failures with
    | zero => rfl
    | succ failures ih => rw [Function.iterate_succ_apply', clamp_clamp, ih]
  rw [epollTimeoutAfter, rounds]
  rfl

/-- A delay above the maximum is capped exactly if its low 32 bits are, as an `int`. -/
theorem epollTimeout_eq_max_iff (finite : v ≠ ~~~0#64) :
    epollTimeout v = 3000 ↔ 3000 ≤ toInt v := by
  have max : toInt 3000 = 3000 := by decide
  unfold epollTimeout
  rw [if_pos finite]
  split_ifs with large
  · exact iff_of_true max large.le
  · omega

theorem le_toInt_iff (v : BitVec 64) :
    3000 ≤ toInt v ↔ 3000 ≤ v.toNat % 2 ^ 32 ∧ v.toNat % 2 ^ 32 < 2 ^ 31 := by
  rw [toInt_eq, intOf_eq]
  split_ifs <;> omega

/-- `idle` passes `min(next_timeout, 3000)` to every `epoll_wait` exactly when there is no timer, the next
one is due within the maximum, or the low 32 bits of its delay lie between the maximum and `INT_MAX`. -/
theorem epoll_wait_timeout_sane_iff (nextTimeout : BitVec 64) :
    (∀ failures, 0 ≤ epollTimeoutAfter failures nextTimeout ∧
      epollTimeoutAfter failures nextTimeout ≤ 3000 ∧
      epollTimeoutAfter failures nextTimeout = min (nextTimeout.toNat : ℤ) 3000) ↔
    nextTimeout = ~~~0#64 ∨ nextTimeout.toNat ≤ 3000 ∨
      3000 ≤ nextTimeout.toNat % 2 ^ 32 ∧ nextTimeout.toNat % 2 ^ 32 < 2 ^ 31 := by
  simp only [epollTimeoutAfter_eq, forall_const]
  have sane : (0 ≤ epollTimeout nextTimeout ∧ epollTimeout nextTimeout ≤ 3000 ∧
      epollTimeout nextTimeout = min (nextTimeout.toNat : ℤ) 3000) ↔
      epollTimeout nextTimeout = min (nextTimeout.toNat : ℤ) 3000 := by omega
  rw [sane]
  by_cases finite : nextTimeout = ~~~0#64
  · subst finite
    exact iff_of_true (by decide) (Or.inl rfl)
  · rw [or_iff_right finite]
    rcases le_or_gt nextTimeout.toNat 3000 with small | large
    · refine iff_of_true ?_ (Or.inl small)
      have narrow := toInt_of_le small
      have capped : ¬ toInt nextTimeout > 3000 := by omega
      rw [epollTimeout, if_pos finite, if_neg capped, narrow]
      omega
    · rw [or_iff_right (not_le.mpr large), ← le_toInt_iff, ← epollTimeout_eq_max_iff finite]
      have min : min (nextTimeout.toNat : ℤ) 3000 = 3000 := by omega
      rw [min]

/-- A timer is added for `2 ^ 31` milliseconds from now, and the worker goes to sleep for no time that
`epoll_wait` could run out of. -/
theorem epoll_wait_never_times_out : ∃ s, machine.Reachable s ∧
    s.location = .waiting (some 2147483648) (-2147483648) ∧
    (s.timers.manager.getNextTimer 0).1 = 2147483648 ∧
    epollTimeoutAfter 0 2147483648 = -2147483648 ∧ ∀ t, ¬ Step s (.wake .timeout) t := by
  have start : machine.Reachable (started ⟨.new 0 fun _ => Timer.probe 0, fun _ => .idle⟩) :=
    .init ⟨_, ⟨_, _, rfl⟩, rfl⟩
  have scanned := start.step (.rest rfl rfl)
  have added := scanned.step (@Step.timer _ 1 (.addTimer 5 2147483648 (some 1) false 0) _ ⟨rfl, nofun⟩
    trivial (.addTimer rfl))
  have slept := added.path (asleep_path rfl rfl)
  refine ⟨_, slept, rfl, rfl, rfl, fun t step => ?_⟩
  cases step with
  | timeout located notNegative =>
    cases located
    exact absurd notNegative (by decide)

end Sylar.IdleLoop
