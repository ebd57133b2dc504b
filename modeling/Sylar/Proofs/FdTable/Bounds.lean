import Sylar.Model.FdIndex
import Sylar.Proofs.FdManager.OneContext
import Sylar.Proofs.FdTable.Growth

/-! # Which descriptors stay inside the tables

A negative `int` is smaller than every size, so the comparison lets it through, and becomes an index that
no table reaches. One that is not negative is let through only if it is less than the size.
-/

namespace Sylar

/-! ## One access -/

theorem fdIndex_of_nonneg (fd : BitVec 32) (notNegative : 0 ≤ fd.toInt) : (fdIndex fd : ℤ) = fd.toInt := by
  have same : (fd.signExtend 64).toInt = fd.toInt := BitVec.toInt_signExtend_of_le (by decide)
  have bound := (fd.signExtend 64).isLt
  rw [BitVec.toInt_eq_toNat_cond] at same
  unfold fdIndex
  split_ifs at same <;> omega

/-- A negative `int` is converted to the upper end of `size_t`. -/
theorem fdIndex_of_neg {fd : BitVec 32} (negative : fd.toInt < 0) : 2 ^ 63 ≤ fdIndex fd := by
  have same : (fd.signExtend 64).toInt = fd.toInt := BitVec.toInt_signExtend_of_le (by decide)
  rw [BitVec.toInt_eq_toNat_cond] at same
  unfold fdIndex
  split_ifs at same <;> omega

theorem fdSlot_isOk {α : Type} {v : List α} {fd : BitVec 32} :
    (fdSlot v fd).isOk = true ↔ fdIndex fd < v.length := by
  unfold fdSlot
  rcases Nat.lt_or_ge (fdIndex fd) v.length with inside | past
  · rw [List.getElem?_eq_getElem inside]
    exact iff_of_true rfl inside
  · rw [List.getElem?_eq_none past]
    exact iff_of_false Bool.false_ne_true (Nat.not_lt.mpr past)

/-- An `int` that is not negative is the index it is converted to. -/
theorem fdSlot_ofNat {α : Type} {v : List α} {fd : ℕ} (isInt : fd < 2 ^ 31) (inside : fd < v.length) :
    fdSlot v (BitVec.ofNat 32 fd) = .ok v[fd] := by
  have value : (BitVec.ofNat 32 fd).toInt = fd := intOf_of_lt isInt
  have index : fdIndex (BitVec.ofNat 32 fd) = fd := by
    have same := fdIndex_of_nonneg (BitVec.ofNat 32 fd) (by omega)
    omega
  rw [fdSlot, index, List.getElem?_eq_getElem inside]

theorem isOk_map {α β : Type} (f : α → β) (r : Except OutOfBounds α) : (r.map f).isOk = r.isOk := by
  cases r <;> rfl

/-- Behind the comparison, the descriptors inside the table are those that are not negative. -/
theorem fdIndex_lt_iff {size : ℕ} {fd : BitVec 32} (small : size < 2 ^ 32) (through : ¬ intOf size ≤ fd.toInt) :
    fdIndex fd < size ↔ 0 ≤ fd.toInt := by
  have le := intOf_le size
  constructor
  · intro inside
    by_contra negative
    have far := fdIndex_of_neg (Int.not_le.mp negative)
    omega
  · intro notNegative
    have same := fdIndex_of_nonneg fd notNegative
    omega

namespace FdManager

variable {m after : FdManager} {action : Action}

theorem get_isOk_iff (small : m.datas.length < 2 ^ 32) (fd : BitVec 32) :
    (m.get fd).isOk = true ↔ 0 ≤ fd.toInt ∨ m.intSize ≤ fd.toInt := by
  unfold get
  split_ifs with past
  · exact iff_of_true rfl (Or.inr past)
  · rw [fdSlot_isOk, fdIndex_lt_iff small past, or_iff_left past]

theorem del_isOk_iff (small : m.datas.length < 2 ^ 32) (fd : BitVec 32) :
    (m.del fd).isOk = true ↔ 0 ≤ fd.toInt ∨ m.intSize ≤ fd.toInt := by
  unfold del
  split_ifs with past
  · exact iff_of_true rfl (Or.inr past)
  · rw [isOk_map, fdSlot_isOk, fdIndex_lt_iff small past, or_iff_left past]

/-- A table is resized for an `int` only. -/
structure Bounded (m : FdManager) : Prop where
  small : m.datas.length < 2 ^ 32
  resizing : ∀ thread fd, m.phase thread = .resizing fd → fd < 2 ^ 31

theorem Bounded.enter {thread : ℕ} {phase : Phase} (bounded : Bounded m)
    (valid : ∀ fd, phase = .resizing fd → fd < 2 ^ 31) : Bounded (m.enter thread phase) where
  small := bounded.small
  resizing := by
    intro other fd located
    rcases eq_or_ne other thread with rfl | different
    · exact valid fd ((Function.update_self _ _ _).symm.trans located)
    · exact bounded.resizing other fd ((Function.update_of_ne different _ _).symm.trans located)

theorem Bounded.acts {answer : Option Answer} (bounded : Bounded m) (acts : Acts m action answer after) :
    Bounded after := by
  cases acts with
  | past _ => exact bounded
  | short _ isInt =>
    refine Bounded.enter (m := m.lock) { bounded with } fun fd same => ?_
    cases same
    exact isInt
  | inside _ => exact Bounded.enter (m := m.lock) { bounded with } nofun
  | @resize thread fd located =>
    refine Bounded.enter (m := (m.resize (fd * 3 / 2)).unlock) ⟨?_, bounded.resizing⟩ nofun
    have isInt := bounded.resizing thread fd located
    change (m.resize (fd * 3 / 2)).datas.length < 2 ^ 32
    rw [length_resize]
    omega
  | found _ _ _ => exact Bounded.enter (m := m.unlock) { bounded with } nofun
  | missing _ _ => exact Bounded.enter (m := m.unlock) { bounded with } nofun
  | @store thread fd _ _ _ =>
    refine Bounded.enter (m := m.store fd) ⟨?_, bounded.resizing⟩ nofun
    change (m.datas.set fd _).length < 2 ^ 32
    rw [List.length_set]
    exact bounded.small

theorem bounded_of_reachable (reached : machine.Reachable m) : Bounded m := by
  apply reached.invariant (P := Bounded)
  · rintro _ rfl
    exact ⟨by decide, nofun⟩
  · intro m action after bounded step
    exact bounded.acts (acts_of_step step)

/-- On a descriptor that is not negative, `get` is the call of the threads. -/
theorem get_answer {thread fd : ℕ} (idle : m.phase thread = .idle) (isInt : fd < 2 ^ 31) :
    m.get (BitVec.ofNat 32 fd) = .ok none ∧ m.answer (.check thread fd false) = some ⟨fd, false, none⟩ ∨
    ∃ looking slot, m.perform (.check thread fd false) = some looking ∧
      m.get (BitVec.ofNat 32 fd) = .ok slot ∧ looking.answer (.test thread) = some ⟨fd, false, slot⟩ := by
  have value : (BitVec.ofNat 32 fd).toInt = fd := intOf_of_lt isInt
  unfold get perform answer
  rw [value]
  by_cases past : m.intSize ≤ fd
  · exact Or.inl ⟨if_pos past, if_pos ⟨past, rfl⟩⟩
  · have inside : fd < m.datas.length := by
      have le : m.intSize ≤ _ := intOf_le m.datas.length
      omega
    refine Or.inr ⟨m.lock.enter thread (.testing fd false), m.datas[fd], ?_, ?_, ?_⟩
    · dsimp only
      rw [if_pos ⟨idle, isInt⟩, if_neg past]
    · rw [if_neg past, fdSlot_ofNat isInt inside]
    · have located : (m.lock.enter thread (.testing fd false)).phase thread = .testing fd false :=
        Function.update_self _ _ _
      have here : (m.lock.enter thread (.testing fd false)).datas[fd]? = some m.datas[fd] :=
        List.getElem?_eq_getElem inside
      simp only [located, here, or_true, if_true]

end FdManager

namespace FdTable

variable {m after : FdTable} {action : Action}

theorem lookup_isOk_iff (small : m.fdContexts.length < 2 ^ 32) (call : Lookup) (fd : BitVec 32) :
    (m.lookup call fd).isOk = true ↔ 0 ≤ fd.toInt ∨ m.intSize ≤ fd.toInt := by
  unfold lookup
  split_ifs with past
  · exact iff_of_true rfl (Or.inr past)
  · rw [isOk_map, fdSlot_isOk, fdIndex_lt_iff small past, or_iff_left past]

/-- On a descriptor that is not negative, the look-up is the one of the threads. -/
theorem lookup_eq_find {call : Lookup} {fd : ℕ} (isInt : fd < 2 ^ 31) :
    m.lookup call (BitVec.ofNat 32 fd) = .ok ((m.find fd).map (.taking call)) := by
  have value : (BitVec.ofNat 32 fd).toInt = fd := intOf_of_lt isInt
  unfold lookup find
  rw [value]
  split_ifs with past
  · rfl
  · have inside : fd < m.fdContexts.length := by
      have le : m.intSize ≤ _ := intOf_le m.fdContexts.length
      omega
    rw [fdSlot_ofNat isInt inside, List.getElem?_eq_getElem inside]
    rfl

/-- A table is resized for an `int` only. -/
structure Bounded (m : FdTable) : Prop where
  small : m.fdContexts.length < 2 ^ 32
  growing : ∀ thread fd event, m.phase thread = .growing fd event → fd < 2 ^ 31

theorem Bounded.enter {thread : ℕ} {phase : Phase} (bounded : Bounded m)
    (valid : ∀ fd event, phase = .growing fd event → fd < 2 ^ 31) : Bounded (m.enter thread phase) where
  small := bounded.small
  growing := by
    intro other fd event located
    rcases eq_or_ne other thread with rfl | different
    · exact valid fd event ((Function.update_self _ _ _).symm.trans located)
    · exact bounded.growing other fd event ((Function.update_of_ne different _ _).symm.trans located)

theorem Bounded.setEvents (bounded : Bounded m) (ctx : FdContextPtr) (events : BitVec 32) :
    Bounded (m.setEvents ctx events) := { bounded with }

theorem Bounded.step (bounded : Bounded m) (step : machine.Step m action after) : Bounded after := by
  have ran : m.perform action = some after := step
  cases action with
  | check thread fd event =>
    rw [perform] at ran
    split_ifs at ran with idle
    cases ran
    rw [check]
    split_ifs
    · exact bounded.enter fun _ _ same => by cases same
    · refine bounded.enter fun fd event same => ?_
      cases same
      exact idle.2
  | grow thread =>
    rw [perform] at ran
    split at ran
    next fd event located =>
      cases ran
      have isInt := bounded.growing thread fd event located
      refine Bounded.enter (m := m.contextResize (fd * 3 / 2)) ⟨?_, bounded.growing⟩ fun _ _ same => by cases same
      rw [length_contextResize]
      omega
    next => cases ran
  | register thread granted =>
    rw [perform] at ran
    split at ran
    next =>
      split_ifs at ran
      · cases ran
        exact (bounded.setEvents _ _).enter fun _ _ same => by cases same
      · cases ran
        exact bounded.enter fun _ _ same => by cases same
    next => cases ran
  | find thread fd call =>
    rw [perform] at ran
    split_ifs at ran
    split at ran
    · cases ran
      exact bounded.enter fun _ _ same => by cases same
    · cases ran
      exact bounded
  | take thread granted =>
    rw [perform] at ran
    split at ran
    next =>
      split_ifs at ran
      · cases ran
        exact bounded.enter fun _ _ same => by cases same
      · cases ran
        exact (bounded.setEvents _ _).enter fun _ _ same => by cases same
    next => cases ran
  | dispatch ctx real granted =>
    rw [perform] at ran
    split_ifs at ran
    · cases ran
      exact bounded
    · cases ran
      exact bounded.setEvents _ _

theorem bounded_of_reachable (reached : machine.Reachable m) : Bounded m := by
  apply reached.invariant (P := Bounded)
  · rintro _ rfl
    exact ⟨by decide, nofun⟩
  · intro m action after bounded step
    exact bounded.step step

end FdTable

/-- After every history of growth, and whatever `del` has cleared, each of the five calls stays inside its
table if and only if the descriptor is not negative or the size, as an `int`, does not exceed it. -/
theorem fd_in_bounds_iff (fd : BitVec 32) :
    (∀ m : FdManager, FdManager.machine.Reachable m → ∀ datas, datas.length = m.datas.length →
      ((FdManager.get fd { m with datas }).isOk = true ↔ 0 ≤ fd.toInt ∨ intOf datas.length ≤ fd.toInt) ∧
      ((FdManager.del fd { m with datas }).isOk = true ↔
        0 ≤ fd.toInt ∨ intOf datas.length ≤ fd.toInt)) ∧
    ∀ m : FdTable, FdTable.machine.Reachable m → ∀ event,
      ((m.delEvent fd event).isOk = true ↔ 0 ≤ fd.toInt ∨ intOf m.fdContexts.length ≤ fd.toInt) ∧
      ((m.cancelEvent fd event).isOk = true ↔ 0 ≤ fd.toInt ∨ intOf m.fdContexts.length ≤ fd.toInt) ∧
      ((m.cancelAll fd).isOk = true ↔ 0 ≤ fd.toInt ∨ intOf m.fdContexts.length ≤ fd.toInt) := by
  refine ⟨fun m reached datas same => ?_, fun m reached event => ?_⟩
  · have small := (FdManager.bounded_of_reachable reached).small
    rw [← same] at small
    exact ⟨FdManager.get_isOk_iff small fd, FdManager.del_isOk_iff small fd⟩
  · have small := (FdTable.bounded_of_reachable reached).small
    exact ⟨FdTable.lookup_isOk_iff small _ fd, FdTable.lookup_isOk_iff small _ fd,
      FdTable.lookup_isOk_iff small _ fd⟩

/-- The tables of a new manager hold 5. -/
theorem fd_in_bounds : (FdManager.new.get 5).isOk = true ∧ (FdTable.new.cancelAll 5).isOk = true := by
  obtain ⟨datas, contexts⟩ := fd_in_bounds_iff 5
  exact ⟨(datas _ (.init rfl) _ rfl).1.mpr (Or.inl (by decide)),
    (contexts _ (.init rfl) .read).2.2.mpr (Or.inl (by decide))⟩

/-- What a closed `Socket` passes reads the new tables in front of their first slot. -/
theorem fd_out_of_bounds : (FdManager.new.get (-1)).isOk = false ∧ (FdManager.new.del (-1)).isOk = false ∧
    (FdTable.new.delEvent (-1) .read).isOk = false ∧ (FdTable.new.cancelEvent (-1) .read).isOk = false ∧
    (FdTable.new.cancelAll (-1)).isOk = false := by
  decide

end Sylar
