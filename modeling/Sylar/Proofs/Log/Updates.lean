import Mathlib.Tactic.SplitIfs
import Sylar.Model.Log.Logger

/-! # What the members of `Logger` and `LogAppender` change

Each call in closed form, and what a series of calls on one logger leaves alone.
-/

namespace Sylar.Logs

variable {m after : Logs} {a b : LogAppenderPtr} {l k : LoggerPtr}

/-! ## Single updates -/

section Updates

variable (m a b l k) (f : LogAppender → LogAppender) (g : Logger → Logger) (val : Option LogFormatterPtr)

theorem updateAppender_appender :
    (m.updateAppender a f).appender b = if b = a then f (m.appender a) else m.appender b := Function.update_apply ..

theorem updateLogger_logger :
    (m.updateLogger l g).logger k = if k = l then g (m.logger l) else m.logger k := Function.update_apply ..

@[simp] theorem updateAppender_logger : (m.updateAppender a f).logger = m.logger := rfl

@[simp] theorem updateLogger_appender : (m.updateLogger l g).appender = m.appender := rfl

/-- The appenders do not change in anything but the formatters of those in the list. -/
theorem foldl_inherit (as : List LogAppenderPtr) (m : Logs) :
    as.foldl (inherit val) m =
      { m with appender := fun b =>
          if b ∈ as ∧ (m.appender b).hasFormatter = false then { m.appender b with formatter := val }
          else m.appender b } := by
  induction as generalizing m with
  | nil => simp
  | cons a as ih =>
    rw [List.foldl_cons, ih, inherit]
    split_ifs with own
    · congr 1
      funext b
      by_cases same : b = a
      · simp [same, own]
      · simp [same]
    · simp only [updateAppender]
      congr 1
      funext b
      by_cases same : b = a
      · subst same
        simp [own]
      · simp [same]

theorem setFormatter_appender :
    (m.setFormatter l val).appender b =
      if b ∈ (m.logger l).appenders ∧ (m.appender b).hasFormatter = false then { m.appender b with formatter := val }
      else m.appender b := by
  rw [setFormatter, foldl_inherit]
  rfl

theorem setFormatter_logger :
    (m.setFormatter l val).logger k = if k = l then { m.logger l with formatter := val } else m.logger k := by
  rw [setFormatter, foldl_inherit]
  exact Function.update_apply ..

@[simp] theorem setFormatter_loggers : (m.setFormatter l val).loggers = m.loggers := by
  rw [setFormatter, foldl_inherit]
  rfl

@[simp] theorem setFormatter_appenders : (m.setFormatter l val).appenders = m.appenders := by
  rw [setFormatter, foldl_inherit]
  rfl

theorem addAppender_appender :
    (m.addAppender l a).appender b =
      if b = a ∧ (m.appender a).formatter = none then { m.appender a with formatter := (m.logger l).formatter }
      else m.appender b := by
  unfold addAppender
  dsimp only
  split_ifs with missing here here <;> simp_all [updateAppender_appender]

theorem addAppender_logger :
    (m.addAppender l a).logger k =
      if k = l then { m.logger l with appenders := (m.logger l).appenders ++ [a] } else m.logger k := by
  unfold addAppender
  dsimp only
  split_ifs <;> simp_all [updateLogger_logger]

@[simp] theorem addAppender_loggers : (m.addAppender l a).loggers = m.loggers := by
  unfold addAppender
  dsimp only
  split_ifs <;> rfl

@[simp] theorem addAppender_appenders : (m.addAppender l a).appenders = m.appenders := by
  unfold addAppender
  dsimp only
  split_ifs <;> rfl

theorem makeAppender_appender (kind : LogAppender.Kind) :
    (m.makeAppender kind).2.appender b = if b = m.appenders then { kind } else m.appender b := Function.update_apply ..

theorem initLogger_logger (name : Text) (formatter : LogFormatterPtr) :
    (m.initLogger name formatter).logger k =
      if k = m.loggers then { name, formatter := some formatter } else m.logger k := Function.update_apply ..

variable {m k} in
theorem lt_of_initLogger {name : Text} {formatter : LogFormatterPtr}
    (known : k < (m.initLogger name formatter).loggers)
    (old : k ≠ m.loggers) : k < m.loggers :=
  Nat.lt_of_le_of_ne (Nat.le_of_lt_succ known) old

end Updates

/-! ## Calls on one logger -/

/-- What calls on one logger, with new appenders, leave alone. -/
structure Frame (l : LoggerPtr) (m after : Logs) : Prop where
  loggers : after.loggers = m.loggers
  logger : ∀ k ≠ l, after.logger k = m.logger k
  name : (after.logger l).name = (m.logger l).name
  appenders : m.appenders ≤ after.appenders
  appender : ∀ b < m.appenders, b ∉ (m.logger l).appenders → after.appender b = m.appender b
  attached : ∀ b ∈ (after.logger l).appenders, b ∈ (m.logger l).appenders ∨ m.appenders ≤ b ∧ b < after.appenders

theorem Frame.refl (l : LoggerPtr) (m : Logs) : Frame l m m :=
  ⟨rfl, fun _ _ => rfl, rfl, Nat.le_refl _, fun _ _ _ => rfl, fun _ member => .inl member⟩

theorem Frame.trans {mid : Logs} (first : Frame l m mid) (second : Frame l mid after) : Frame l m after where
  loggers := second.loggers.trans first.loggers
  logger k ne := (second.logger k ne).trans (first.logger k ne)
  name := second.name.trans first.name
  appenders := Nat.le_trans first.appenders second.appenders
  appender b old free := by
    have free' : b ∉ (mid.logger l).appenders := fun member =>
      (first.attached b member).elim free fun new => Nat.not_lt.mpr new.1 old
    rw [second.appender b (Nat.lt_of_lt_of_le old first.appenders) free', first.appender b old free]
  attached b member := by
    rcases second.attached b member with before | ⟨new, made⟩
    · exact (first.attached b before).imp_right fun new => ⟨new.1, Nat.lt_of_lt_of_le new.2 second.appenders⟩
    · exact .inr ⟨Nat.le_trans first.appenders new, made⟩

theorem Frame.updateLogger {g : Logger → Logger} (name : (g (m.logger l)).name = (m.logger l).name)
    (subset : (g (m.logger l)).appenders ⊆ (m.logger l).appenders) : Frame l m (m.updateLogger l g) where
  loggers := rfl
  logger k ne := (updateLogger_logger ..).trans (if_neg ne)
  name := by rw [updateLogger_logger, if_pos rfl, name]
  appenders := Nat.le_refl _
  appender _ _ _ := rfl
  attached b member := by
    rw [updateLogger_logger, if_pos rfl] at member
    exact .inl (subset member)

theorem Frame.setFormatter (val : Option LogFormatterPtr) : Frame l m (m.setFormatter l val) where
  loggers := setFormatter_loggers ..
  logger k ne := (setFormatter_logger ..).trans (if_neg ne)
  name := by rw [setFormatter_logger, if_pos rfl]
  appenders := Nat.le_of_eq (setFormatter_appenders ..).symm
  appender b _ free := (setFormatter_appender ..).trans (if_neg fun both => free both.1)
  attached b member := by
    rw [setFormatter_logger, if_pos rfl] at member
    exact .inl member

end Sylar.Logs
