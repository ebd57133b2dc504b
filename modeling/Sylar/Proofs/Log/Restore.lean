import Sylar.Proofs.Log.Dump

/-! # A process that is started again from the dump of its loggers

In a process whose loggers are set by values of `logs` alone, an appender has a pattern of its own or that of its
logger, and no appender is attached to two loggers. So the definitions that are printed tell everything of a logger
but a level without a name.
-/

namespace Sylar

open Logs LogIniter LoggerManager

variable {m after : Logs} {l k : LoggerPtr} {a : LogAppenderDefine} {i : LogDefine}

/-- The formatter of the appender is its own, or has the pattern of the logger. -/
def LogAppender.Settled (appender : LogAppender) (pattern : Option Text) : Prop :=
  ∃ f, appender.formatter = some f ∧
    if appender.hasFormatter then accepted f.object.pattern = true else some f.object.pattern = pattern

/-- The logger has a formatter that it could have been given as a text. -/
def Logger.Settled (logger : Logger) : Prop :=
  ∃ f, logger.formatter = some f ∧ accepted f.object.pattern = true

theorem Logger.settled_of_pattern {logger : Logger} {pattern : Text} (same : patternOf logger.formatter = some pattern)
    (accepts : accepted pattern = true) : logger.Settled := by
  obtain ⟨f, had, rfl⟩ := Option.map_eq_some_iff.mp same
  exact ⟨f, had, accepts⟩

/-- What a configuration leaves of the loggers. -/
structure Logs.Settled (m : Logs) : Prop where
  logger : ∀ l < m.loggers, (m.logger l).Settled
  appender : ∀ l < m.loggers, ∀ a ∈ (m.logger l).appenders,
    (m.appender a).Settled (patternOf (m.logger l).formatter)
  made : ∀ l < m.loggers, ∀ a ∈ (m.logger l).appenders, a < m.appenders
  apart : ∀ l < m.loggers, ∀ k < m.loggers, l ≠ k → ∀ a ∈ (m.logger l).appenders, a ∉ (m.logger k).appenders

namespace Logs.Settled

/-- Calls on one logger that leave it settled. -/
theorem frame (settled : m.Settled) (frame : Frame l m after) (known : l < m.loggers)
    (logger : (after.logger l).Settled)
    (appender : ∀ a ∈ (after.logger l).appenders, (after.appender a).Settled (patternOf (after.logger l).formatter)) :
    after.Settled := by
  have before {k : LoggerPtr} (there : k < after.loggers) : k < m.loggers := frame.loggers ▸ there
  have apart (k : LoggerPtr) (there : k < m.loggers) (other : k ≠ l) (a : LogAppenderPtr)
      (member : a ∈ (m.logger k).appenders) : a ∉ (after.logger l).appenders := by
    intro here
    rcases frame.attached a here with old | new
    · exact settled.apart k there l known other a member old
    · exact absurd (settled.made k there a member) (Nat.not_lt.mpr new.1)
  refine ⟨fun k there => ?_, fun k there a member => ?_, fun k there a member => ?_,
    fun k there j here different a member => ?_⟩
  · rcases eq_or_ne k l with rfl | other
    · exact logger
    · rw [frame.logger k other]
      exact settled.logger k (before there)
  · rcases eq_or_ne k l with rfl | other
    · exact appender a member
    · rw [frame.logger k other] at member ⊢
      have made := settled.made k (before there) a member
      rw [frame.appender a made (settled.apart k (before there) l known other a member)]
      exact settled.appender k (before there) a member
  · rcases eq_or_ne k l with rfl | other
    · rcases frame.attached a member with old | new
      · exact (settled.made k known a old).trans_le frame.appenders
      · exact new.2
    · rw [frame.logger k other] at member
      exact (settled.made k (before there) a member).trans_le frame.appenders
  · rcases eq_or_ne k l with rfl | other
    · rw [frame.logger j different.symm]
      exact fun both => apart j (before here) different.symm a both member
    · rw [frame.logger k other] at member
      rcases eq_or_ne j l with rfl | other'
      · exact apart k (before there) other a member
      · rw [frame.logger j other']
        exact settled.apart k (before there) j (before here) different a member

theorem makeFormatter (settled : m.Settled) (object : LogFormatter) : (m.makeFormatter object).2.Settled :=
  ⟨settled.logger, settled.appender, settled.made, settled.apart⟩

/-- A new logger has no appenders yet. -/
theorem initLogger (settled : m.Settled) (name : Text) {formatter : LogFormatterPtr}
    (pattern : accepted formatter.object.pattern = true) : (m.initLogger name formatter).Settled := by
  have new : (m.initLogger name formatter).logger m.loggers = { name, formatter := some formatter } :=
    (initLogger_logger ..).trans (if_pos rfl)
  have old (k : LoggerPtr) (other : k ≠ m.loggers) : (m.initLogger name formatter).logger k = m.logger k :=
    (initLogger_logger ..).trans (if_neg other)
  refine ⟨fun k there => ?_, fun k there a member => ?_, fun k there a member => ?_,
    fun k there j here different a member => ?_⟩
  · rcases eq_or_ne k m.loggers with rfl | other
    · rw [new]
      exact ⟨formatter, rfl, pattern⟩
    · rw [old k other]
      exact settled.logger k (lt_of_initLogger there other)
  · rcases eq_or_ne k m.loggers with rfl | other
    · rw [new] at member
      cases member
    · rw [old k other] at member ⊢
      exact settled.appender k (lt_of_initLogger there other) a member
  · rcases eq_or_ne k m.loggers with rfl | other
    · rw [new] at member
      cases member
    · rw [old k other] at member
      exact settled.made k (lt_of_initLogger there other) a member
  · rcases eq_or_ne k m.loggers with rfl | other
    · rw [new] at member
      cases member
    · rw [old k other] at member
      rcases eq_or_ne j m.loggers with rfl | other'
      · rw [new]
        exact List.not_mem_nil
      · rw [old j other']
        exact settled.apart k (lt_of_initLogger there other) j (lt_of_initLogger here other') different a member

end Logs.Settled

/-! ## A definition is applied -/

/-- The appender has no formatter, or one of its own that it could have been given as a text. -/
def LogAppender.Unattached (appender : LogAppender) : Prop :=
  appender.formatter = none ∧ appender.hasFormatter = false ∨
    ∃ f, appender.formatter = some f ∧ appender.hasFormatter = true ∧ accepted f.object.pattern = true

theorem unattached_of_setFormatterText {val : Text} {a : LogAppenderPtr} (present : val ≠ [])
    (lacks : (m.appender a).formatter = none) (ran : (m.appenderSetFormatterText a val).toOption = some after) :
    after.logger = m.logger ∧ (after.appender a).Unattached := by
  unfold appenderSetFormatterText at ran
  cases made : LogFormatter.new val with
  | error abort =>
    rw [made] at ran
    cases ran
  | ok object =>
    simp only [made] at ran
    split_ifs at ran with refused
    · obtain rfl := Option.some.inj ran
      refine ⟨rfl, .inl ?_⟩
      rw [updateAppender_appender, if_pos rfl]
      exact ⟨lacks, rfl⟩
    · obtain rfl := Option.some.inj ran
      refine ⟨rfl, .inr ?_⟩
      rw [appenderSetFormatter, updateAppender_appender, if_pos rfl]
      refine ⟨_, rfl, rfl, ?_⟩
      have pattern : object.pattern = val := LogFormatter.pattern_of_new made
      simpa [Logs.makeFormatter, pattern, accepted_of_new present made] using refused

/-- An appender that is attached to a logger has the formatter of the logger, if it has none of its own. -/
theorem LogAppender.Unattached.attach {a : LogAppenderPtr} (free : (m.appender a).Unattached)
    (logger : (m.logger l).Settled) :
    ((m.addAppender l a).appender a).Settled (patternOf (m.logger l).formatter) := by
  obtain ⟨f, had, -⟩ := logger
  rw [addAppender_appender]
  rcases free with ⟨lacks, none_⟩ | ⟨own, formatter, has, accepts⟩
  · rw [if_pos ⟨rfl, lacks⟩]
    refine ⟨f, had, ?_⟩
    rw [none_, had]
    rfl
  · rw [if_neg fun both => by rw [formatter] at both; exact absurd both.2 (Option.some_ne_none own)]
    refine ⟨own, formatter, ?_⟩
    rw [has]
    exact accepts

/-- The appender that a round of the loop attaches. -/
theorem appenderDefined_settled (ran : appenderDefined l m a = some after) (logger : (m.logger l).Settled) :
    (after.appender m.appenders).Settled (patternOf (m.logger l).formatter) := by
  simp only [appenderDefined, Option.bind_eq_bind, Option.bind_eq_some_iff, Option.map_eq_some_iff] at ran
  obtain ⟨_, ⟨kind, -, rfl⟩, ran⟩ := ran
  have started : ((m.makeAppender kind).2.appenderSetLevel m.appenders a.level).appender m.appenders =
      { kind, level := a.level } := by
    rw [appenderSetLevel, updateAppender_appender, if_pos rfl, makeAppender_appender, if_pos rfl]
  split_ifs at ran with present
  · obtain ⟨mid, set, attached⟩ := Option.bind_eq_some_iff.mp ran
    obtain rfl := Option.some.inj attached
    obtain ⟨same, free⟩ := unattached_of_setFormatterText present (congrArg LogAppender.formatter started) set
    have whole := free.attach (l := l) (by rw [same]; exact logger)
    rw [same] at whole
    exact whole
  · obtain ⟨mid, set, attached⟩ := Option.bind_eq_some_iff.mp ran
    obtain rfl := Option.some.inj attached
    obtain rfl := Option.some.inj set
    have free : LogAppender.Unattached
        (((m.makeAppender kind).2.appenderSetLevel m.appenders a.level).appender m.appenders) := by
      rw [started]
      exact .inl ⟨rfl, rfl⟩
    exact free.attach logger

/-- All appenders of a definition, on a logger whose appenders are settled. -/
theorem foldlM_appenderDefined_settled {as : List LogAppenderDefine}
    (ran : as.foldlM (appenderDefined l) m = some after)
    (made : ∀ b ∈ (m.logger l).appenders, b < m.appenders) (logger : (m.logger l).Settled)
    (settled : ∀ b ∈ (m.logger l).appenders, (m.appender b).Settled (patternOf (m.logger l).formatter)) :
    (after.logger l).Settled ∧
      ∀ b ∈ (after.logger l).appenders, (after.appender b).Settled (patternOf (after.logger l).formatter) := by
  induction as generalizing m with
  | nil =>
    obtain rfl := Option.some.inj ran
    exact ⟨logger, settled⟩
  | cons a as ih =>
    rw [List.foldlM_cons] at ran
    obtain ⟨mid, first, ran⟩ := Option.bind_eq_some_iff.mp ran
    obtain ⟨frame, same, old, -⟩ := appenderDefined_spec first
    have new := appenderDefined_settled first logger
    have formatter : (mid.logger l).formatter = (m.logger l).formatter := by rw [same]
    refine ih ran (fun b member => ?_) ?_ fun b member => ?_
    · exact (frame.attached b member).elim (fun before => (made b before).trans_le frame.appenders) And.right
    · rw [same]
      exact logger
    · rw [formatter]
      rw [same] at member
      rcases List.mem_append.mp member with before | here
      · rw [old b (made b before)]
        exact settled b before
      · obtain rfl := List.mem_singleton.mp here
        exact new

/-- A definition leaves its logger settled. -/
theorem configure_settled {logs : Logs} (ran : configure l i logs = some after) (settled : logs.Settled)
    (known : l < logs.loggers) : after.Settled := by
  obtain ⟨frame, -, -⟩ := configure_spec settled.made ran
  obtain ⟨mid, set, ran⟩ : ∃ mid, (if i.formatter ≠ [] then
        ((logs.setLevel l i.level).setFormatterText l i.formatter).toOption
        else some (logs.setLevel l i.level)) = some mid ∧
      i.appenders.foldlM (appenderDefined l) (mid.clearAppenders l) = some after := by
    unfold configure at ran
    dsimp only at ran
    split_ifs at ran ⊢ <;> exact Option.bind_eq_some_iff.mp ran
  have here : (logs.setLevel l i.level).logger l = { logs.logger l with level := i.level } :=
    (updateLogger_logger ..).trans (if_pos rfl)
  have logger : (mid.logger l).Settled := by
    obtain ⟨f, had, accepts⟩ := settled.logger l known
    split_ifs at set with present
    · obtain ⟨-, -, pattern⟩ := setFormatterText_spec present set
      rw [here] at pattern
      by_cases accepts' : accepted i.formatter = true
      · rw [if_pos accepts'] at pattern
        exact Logger.settled_of_pattern pattern accepts'
      · rw [if_neg accepts', had] at pattern
        exact Logger.settled_of_pattern pattern accepts
    · obtain rfl := Option.some.inj set
      rw [here]
      exact ⟨f, had, accepts⟩
  have cleared : (mid.clearAppenders l).logger l = { mid.logger l with appenders := [] } := by
    rw [clearAppenders, updateLogger_logger, if_pos rfl]
  obtain ⟨logger, appenders⟩ :=
    foldlM_appenderDefined_settled ran (by rw [cleared]; simp) (by rw [cleared]; exact logger)
    (by rw [cleared]; simp)
  exact settled.frame frame known logger appenders

/-! ## Runs -/

/-- The loggers are kept under their names, and none under no name. -/
structure LoggerManager.Settled (m : LoggerManager) : Prop where
  wf : m.Wf
  logs : m.logs.Settled
  unnamed : m.loggers [] = none

namespace LoggerManager.Settled

variable {m after : LoggerManager} {name : Text}

theorem getLogger (settled : m.Settled) (ran : m.getLogger name = some (l, after)) : after.Settled := by
  obtain ⟨wf, -, -⟩ := settled.wf.getLogger ran
  unfold LoggerManager.getLogger at ran
  split_ifs at ran with unnamed
  · obtain ⟨rfl, rfl⟩ := Prod.ext_iff.mp (Option.some.inj ran)
    exact settled
  · cases there : m.loggers name with
    | some k =>
      rw [there] at ran
      obtain ⟨rfl, rfl⟩ := Prod.ext_iff.mp (Option.some.inj ran)
      exact settled
    | none =>
      simp only [there, Option.bind_eq_bind] at ran
      obtain ⟨⟨k, logs⟩, made, ended⟩ := Option.bind_eq_some_iff.mp ran
      have notRoot : name ≠ "root".toList := by
        rintro rfl
        exact absurd (settled.wf.root.symm.trans there) (Option.some_ne_none _)
      unfold Logs.makeLogger at made
      cases pattern : LogFormatter.new defaultPattern with
      | error abort =>
        rw [pattern] at made
        cases made
      | ok object =>
        simp only [pattern, if_neg notRoot] at made
        cases made
        cases ended
        have accepts : accepted object.pattern = true := by
          rw [LogFormatter.pattern_of_new pattern]
          decide +kernel
        refine ⟨wf, (settled.logs.makeFormatter object).initLogger name accepts, ?_⟩
        exact (Function.update_of_ne (Ne.symm unnamed) ..).trans settled.unnamed

theorem defined (settled : m.Settled) (ran : LogIniter.defined m i = some after) : after.Settled := by
  obtain ⟨wf, -⟩ := settled.wf.defined ran
  unfold LogIniter.defined at ran
  obtain ⟨⟨l, mid⟩, got, ran⟩ := Option.bind_eq_some_iff.mp ran
  obtain ⟨-, here, -⟩ := settled.wf.getLogger got
  have there := settled.getLogger got
  obtain ⟨logs, configured, ended⟩ := Option.bind_eq_some_iff.mp ran
  obtain rfl := Option.some.inj ended
  exact ⟨wf, configure_settled configured there.logs (there.wf.named _ l here).1, there.unnamed⟩

theorem removed (settled : m.Settled) {new_value : LogDefines} (ran : LogIniter.removed new_value m i = some after) :
    after.Settled := by
  obtain ⟨wf, -⟩ := settled.wf.removed ran
  unfold LogIniter.removed at ran
  split_ifs at ran
  · obtain rfl := Option.some.inj ran
    exact settled
  · obtain ⟨⟨l, mid⟩, got, ran⟩ := Option.bind_eq_some_iff.mp ran
    obtain ⟨-, here, -⟩ := settled.wf.getLogger got
    have there := settled.getLogger got
    obtain rfl := Option.some.inj ran
    have known := (there.wf.named _ l here).1
    have cleared : ((mid.logs.setLevel l 100).clearAppenders l).logger l =
        { mid.logs.logger l with level := 100, appenders := [] } := by
      rw [clearAppenders, updateLogger_logger, if_pos rfl, setLevel, updateLogger_logger, if_pos rfl]
    have frame : Frame l mid.logs ((mid.logs.setLevel l 100).clearAppenders l) :=
      (Frame.updateLogger rfl (List.Subset.refl _)).trans (.updateLogger rfl (List.nil_subset _))
    obtain ⟨f, had, accepts⟩ := there.logs.logger l known
    refine ⟨wf, there.logs.frame frame known ?_ ?_, there.unnamed⟩
    · rw [cleared]
      exact ⟨f, had, accepts⟩
    · rw [cleared]
      rintro a ⟨⟩

theorem changed (settled : m.Settled) {old_value new_value : LogDefines}
    (ran : LogIniter.changed old_value new_value m = some after) : after.Settled := by
  obtain ⟨mid, first, second⟩ := Option.bind_eq_some_iff.mp ran
  have settled := List.foldlM_invariant (fun _ _ _ settled ran => defined settled ran) first settled
  exact List.foldlM_invariant (fun _ _ _ settled ran => removed settled ran) second settled

/-- The loggers of a process that has just been started. -/
theorem of_make (made : LoggerManager.make = some m) : m.Settled := by
  refine ⟨(wf_of_make made).1, ?_, ?_⟩
  · unfold LoggerManager.make at made
    obtain ⟨⟨root, logs⟩, ran, ended⟩ := Option.bind_eq_some_iff.mp made
    obtain rfl := Option.some.inj ended
    unfold Logs.makeLogger at ran
    cases pattern : LogFormatter.new defaultPattern with
    | error abort =>
      rw [pattern] at ran
      cases ran
    | ok object =>
      simp only [pattern, if_true] at ran
      obtain ⟨rfl, rfl⟩ := Prod.ext_iff.mp (Option.some.inj ran)
      have accepts : accepted object.pattern = true := by
        rw [LogFormatter.pattern_of_new pattern]
        decide +kernel
      have nobody : ({} : Logs).Settled :=
        ⟨fun _ none_ => absurd none_ (Nat.not_lt_zero _), fun _ none_ => absurd none_ (Nat.not_lt_zero _),
          fun _ none_ => absurd none_ (Nat.not_lt_zero _), fun _ none_ => absurd none_ (Nat.not_lt_zero _)⟩
      let first := (({} : Logs).makeFormatter object).2.initLogger "root".toList ⟨0, object⟩
      have settled : first.Settled := (nobody.makeFormatter object).initLogger _ accepts
      let mid := (first.makeAppender .stdout).2
      have old (b : LogAppenderPtr) (other : b ≠ first.appenders) : mid.appender b = first.appender b :=
        (makeAppender_appender ..).trans (if_neg other)
      obtain ⟨frame, logger, -⟩ := addAppender_new (m := first) (l := 0) mid rfl rfl rfl old
      have root : (first.logger 0).Settled := settled.logger 0 Nat.zero_lt_one
      have free : (mid.appender first.appenders).Unattached := by
        have new : mid.appender first.appenders = { kind := .stdout } := (makeAppender_appender ..).trans (if_pos rfl)
        rw [new]
        exact .inl ⟨rfl, rfl⟩
      have whole : (mid.addAppender 0 first.appenders).Settled := by
        refine settled.frame frame Nat.zero_lt_one (by rw [logger]; exact root) fun a member => ?_
        rw [logger] at member ⊢
        obtain rfl := List.mem_singleton.mp member
        exact free.attach root
      exact whole
  · unfold LoggerManager.make at made
    obtain ⟨⟨root, logs⟩, ran, ended⟩ := Option.bind_eq_some_iff.mp made
    obtain rfl := Option.some.inj ended
    have different : ([] : Text) ≠ "root".toList := by decide
    exact Function.update_of_ne different (some root) fun _ => none

end LoggerManager.Settled

namespace LogConfig

variable {s after : LogConfig} {history : List LogDefines}

theorem settled_of_path {fresh : LogConfig} (started : LogConfig.fresh = some fresh)
    (path : machine.Path fresh history s) :
    s.manager.Settled := by
  obtain ⟨manager, made, rfl⟩ := Option.map_eq_some_iff.mp started
  refine path.preserves (P := fun s => s.manager.Settled) (fun s v t settled ran => ?_) (.of_make made)
  have ran : s.setValue v = some t := ran
  unfold setValue at ran
  split_ifs at ran
  · obtain rfl := Option.some.inj ran
    exact settled
  · obtain ⟨manager, changed, rfl⟩ := Option.map_eq_some_iff.mp ran
    exact settled.changed changed

/-- What can be told of a logger, with the levels that its definition has. -/
def View.named (v : View) : View where
  level := v.level.named
  pattern := v.pattern
  appenders := v.appenders.map fun a => { a with level := a.level.named }

end LogConfig

open LogConfig (View AppenderView)

namespace Logs.Settled

/-- An appender is made again from its definition. -/
theorem view_define {appender : LogAppender} {pattern : Option Text} (settled : appender.Settled pattern) :
    appender.define.view pattern = some { appender.view with level := appender.level.named } := by
  obtain ⟨kind, level, hasFormatter, formatter⟩ := appender
  obtain ⟨f, had, own⟩ := settled
  dsimp only at had own
  subst had
  cases hasFormatter with
  | true =>
    have accepts : accepted f.object.pattern = true := own
    cases kind <;>
      simp [LogAppenderDefine.view, LogAppender.define, LogAppenderDefine.kind, patternOf, accepts, LogAppender.view]
  | false =>
    have same : some f.object.pattern = pattern := own
    have refuses : accepted [] = false := rfl
    cases kind <;>
      simp [LogAppenderDefine.view, LogAppender.define, LogAppenderDefine.kind, refuses, same, LogAppender.view]

/-- A definition has the pattern of its logger. -/
theorem formatter_define (settled : m.Settled) (known : l < m.loggers) :
    some (m.define l).formatter = patternOf (m.logger l).formatter ∧ accepted (m.define l).formatter = true := by
  obtain ⟨f, had, accepts⟩ := settled.logger l known
  rw [Logs.define, had]
  exact ⟨rfl, accepts⟩

/-- A logger is set up again by its definition. -/
theorem definedView_define (settled : m.Settled) (known : l < m.loggers) :
    definedView (m.define l) (some (m.define l).formatter) = (m.view l).named := by
  have pattern := (settled.formatter_define known).1
  have appenders : ((m.logger l).appenders.map fun a => (m.appender a).define).filterMap
      (fun a => a.view (patternOf (m.logger l).formatter)) =
      ((m.logger l).appenders.map fun a => (m.appender a).view).map fun a => { a with level := a.level.named } := by
    rw [List.filterMap_map, List.map_map, ← List.filterMap_eq_map]
    exact List.filterMap_congr fun a member => view_define (settled.appender l known a member)
  rw [pattern]
  exact congrArg (View.mk (m.logger l).level.named (patternOf (m.logger l).formatter)) appenders

/-- The definition can be applied. -/
theorem defineValid_define (settled : m.Settled) (known : l < m.loggers) : defineValid (m.define l) = true := by
  have constructible_of {text : Text} (accepts : accepted text = true) : constructible text = true := by
    unfold accepted at accepts
    unfold constructible
    cases new : LogFormatter.new text with
    | ok object => exact Bool.or_eq_true_iff.mpr (.inr rfl)
    | error abort =>
      rw [new] at accepts
      simp at accepts
  rw [defineValid, constructible_of (settled.formatter_define known).2, Bool.true_and, List.all_eq_true]
  intro a here
  obtain ⟨b, member, rfl⟩ := List.mem_map.mp here
  obtain ⟨g, has, own⟩ := settled.appender l known b member
  have kinded : (m.appender b).define.kind.isSome = true := by
    unfold LogAppender.define LogAppenderDefine.kind
    cases (m.appender b).kind <;> rfl
  have formatted : constructible (m.appender b).define.formatter = true := by
    unfold LogAppender.define
    rw [has]
    split_ifs at own ⊢ with yes
    · exact constructible_of own
    · rfl
  rw [appenderValid, kinded, formatted]
  rfl

end Logs.Settled

namespace LoggerManager

/-- A definition that is the only one for its logger, with a pattern that it is set to. -/
theorem foldl_defined_only {d : LogDefine} {name : Text} (here : canonical d.name = name)
    (accepts : accepted d.formatter = true) (is : List LogDefine) (only : ∀ i ∈ is, canonical i.name = name → i = d)
    (member : d ∈ is) (s : Track) :
    is.foldl (Track.defined name) s = ⟨some d.formatter, some (definedView d (some d.formatter))⟩ := by
  have set (s : Track) : s.defined name d = ⟨some d.formatter, some (definedView d (some d.formatter))⟩ := by
    rw [Track.defined, if_pos here, definedPattern, if_pos accepts]
  have kept (is : List LogDefine) (only : ∀ i ∈ is, canonical i.name = name → i = d) :
      is.foldl (Track.defined name) ⟨some d.formatter, some (definedView d (some d.formatter))⟩ =
        ⟨some d.formatter, some (definedView d (some d.formatter))⟩ := by
    induction is with
    | nil => rfl
    | cons i is ih =>
      have rest := ih fun j member => only j (List.mem_cons_of_mem _ member)
      rw [List.foldl_cons]
      by_cases same : canonical i.name = name
      · rw [only i List.mem_cons_self same, set, rest]
      · rw [Track.defined, if_neg same, rest]
  induction is generalizing s with
  | nil => cases member
  | cons i is ih =>
    have later : ∀ j ∈ is, canonical j.name = name → j = d := fun j member => only j (List.mem_cons_of_mem _ member)
    rw [List.foldl_cons]
    rcases List.mem_cons.mp member with rfl | member
    · rw [set]
      exact kept is later
    · exact ih later member _

end LoggerManager

namespace Logging

open LogConfig

variable {τ : Type} {shared : Logging τ} {fresh s : LogConfig} {history : List LogDefines}

/-- The names of the loggers that are listed. -/
theorem listed_names (wf : shared.manager.Wf) (keys : ∀ name ∈ shared.names, (shared.manager.loggers name).isSome) :
    (shared.listed.map shared.logs.define).map LogDefine.name = shared.names := by
  unfold listed
  generalize shared.names = names at keys
  induction names with
  | nil => rfl
  | cons name names ih =>
    obtain ⟨l, here⟩ := Option.isSome_iff_exists.mp (keys name List.mem_cons_self)
    have rest := ih fun other member => keys other (List.mem_cons_of_mem _ member)
    rw [List.filterMap_cons_some here, List.map_cons, List.map_cons, rest]
    exact congrArg (· :: names) (wf.named name l here).2

/-- A process whose loggers have been set by values of `logs` prints them as a text that is read as a value of `logs`,
and a process that is started with this value has the same loggers, with the same patterns and appenders; a level that
has no name becomes `UNKNOWN`. -/
theorem dump_restores (y : Yaml) (null : Option Text) (started : LogConfig.fresh = some fresh)
    (path : LogConfig.machine.Path fresh history s) (same : shared.manager = s.manager)
    (sorted : shared.names.Pairwise (· < ·))
    (keys : ∀ name, name ∈ shared.names ↔ (shared.manager.loggers name).isSome)
    (restores : ∀ node ∈ shared.dumped, y.load (y.emit (some node)) = some node) :
    ∃ text v after, (managerToYamlString y).run shared = some (some text, shared) ∧
      LogDefines.fromStr y null text = some v ∧ fresh.setValue v = some after ∧
      ∀ name ∈ shared.names, after.view name = (s.view name).map View.named := by
  have settled : shared.manager.Settled := same ▸ settled_of_path started path
  have names := listed_names settled.wf fun name member => (keys name).mp member
  have known (l : LoggerPtr) (member : l ∈ shared.listed) : l < shared.logs.loggers := by
    obtain ⟨name, -, here⟩ := List.mem_filterMap.mp member
    exact (settled.wf.named name l here).1
  have there : shared.listed ≠ [] := by
    have root : "root".toList ∈ shared.names := (keys _).mpr (Option.isSome_iff_exists.mpr ⟨_, settled.wf.root⟩)
    exact List.ne_nil_of_mem (List.mem_filterMap.mpr ⟨_, root, settled.wf.root⟩)
  let v : LogDefines := ⟨shared.listed.map shared.logs.define, by
    rw [← names] at sorted
    exact List.pairwise_map.mp sorted⟩
  have valid : v.defs.all defineValid = true := by
    rw [List.all_eq_true]
    intro d here
    obtain ⟨l, member, rfl⟩ := List.mem_map.mp here
    exact settled.logs.defineValid_define (known l member)
  obtain ⟨manager, made, rfl⟩ := Option.map_eq_some_iff.mp started
  obtain ⟨manager', changed⟩ := Option.isSome_iff_exists.mp ((changed_isSome ⟨[], .nil⟩ v manager).trans valid)
  have differs : v ≠ ⟨[], .nil⟩ := fun none_ => there (List.map_eq_nil_iff.mp (congrArg LogDefines.defs none_))
  refine ⟨_, v, { value := v, manager := manager' }, run_managerToYamlString restores there,
    fromStr_dumped restores v rfl there, ?_, fun name member => ?_⟩
  · rw [LogConfig.setValue, if_neg differs]
    exact congrArg (Option.map fun manager => LogConfig.mk v manager) changed
  · have proper {name : Text} {l : LoggerPtr} (here : shared.manager.loggers name = some l) :
        canonical name = name := by
      refine if_neg ?_
      rintro rfl
      exact absurd (settled.unnamed.symm.trans here) (Option.some_ne_none l).symm
    obtain ⟨l, here⟩ := Option.isSome_iff_exists.mp ((keys name).mp member)
    obtain ⟨bound, named⟩ := settled.wf.named name l here
    have defined : shared.logs.define l ∈ v.defs :=
      List.mem_map_of_mem (List.mem_filterMap.mpr ⟨name, member, here⟩)
    have only (i : LogDefine) (other : i ∈ v.defs) (same : canonical i.name = name) : i = shared.logs.define l := by
      obtain ⟨k, listed, rfl⟩ := List.mem_map.mp other
      obtain ⟨name', -, here'⟩ := List.mem_filterMap.mp listed
      have named' : (shared.logs.define k).name = name' := (settled.wf.named name' k here').2
      rw [named', proper here'] at same
      obtain rfl := same
      rw [Option.some.inj (here.symm.trans here')]
    have named : (shared.logs.define l).name = name := named
    have tracked (track : Track) : Track.changed ⟨[], .nil⟩ v name track = _ :=
      foldl_defined_only (d := shared.logs.define l) (by rw [named, proper here])
        (settled.logs.formatter_define bound).2 v.defs only defined track
    have known : (Track.changed ⟨[], .nil⟩ v (canonical (shared.logs.define l).name)
        ⟨currentPattern manager (canonical (shared.logs.define l).name), none⟩).view =
          some (definedView (shared.logs.define l) (some (shared.logs.define l).formatter)) := by
      rw [named, proper here, tracked]
    have viewed : LogConfig.view { value := v, manager := manager' } (shared.logs.define l).name =
        some (definedView (shared.logs.define l) (some (shared.logs.define l).formatter)) :=
      view_of_changed (s := { value := ⟨[], .nil⟩, manager }) (wf_of_make made).1 changed known
    have again : definedView (shared.logs.define l) (some (shared.logs.define l).formatter) =
        (shared.logs.view l).named := settled.logs.definedView_define bound
    rw [named, again] at viewed
    rw [viewed, LogConfig.view, ← same, settled.wf.find_eq, proper here, here]
    rfl

open LogDefines (blockText blockYaml load_blockYaml)

/-- A logger with two appenders, one of them with a pattern of its own, and one that is removed. -/
def kept : LogDefine where
  name := ['a']
  level := 2
  formatter := "%m%n".toList
  appenders := [
    { type := 1, level := 3, formatter := "%p %m%n".toList, file := "a.log".toList },
    { type := 2, level := 2 }]

def dropped : LogDefine where
  name := ['b']
  level := 4
  appenders := [{ type := 2, level := 1 }]

def keptAlone : LogDefines := ⟨[kept], List.pairwise_singleton _ _⟩

def both : LogDefines := ⟨[kept, dropped], by decide⟩

/-- The text of the three loggers after the removal. -/
def rotatedText : Text :=
  ['\n'].intercalate ["- name: a".toList, "  level: INFO".toList, "  formatter: \"%m%n\"".toList, "  appenders:".toList,
    "    - type: FileLogAppender".toList, "      file: a.log".toList, "      level: WARN".toList,
    "      formatter: \"%p %m%n\"".toList, "    - type: StdoutLogAppender".toList, "      level: INFO".toList,
    "- name: b".toList, "  level: UNKNOWN".toList, "  formatter: \"".toList ++ defaultPattern ++ "\"".toList,
    "- name: root".toList, "  level: DEBUG".toList, "  formatter: \"".toList ++ defaultPattern ++ "\"".toList,
    "  appenders:".toList, "    - type: StdoutLogAppender".toList, "      level: DEBUG".toList]

/-- The process with its loggers in the order of their names. -/
def ofConfig (s : LogConfig) : Logging (Fin 1) := { manager := s.manager, names := [['a'], ['b'], "root".toList] }

/-- One logger keeps its definition, with a file and a pattern of an appender's own, and one has been removed. -/
theorem dump_restores_removed : ∃ (y : Yaml) (fresh s after : LogConfig) (v : LogDefines),
    LogConfig.fresh = some fresh ∧ LogConfig.machine.Path fresh [both, keptAlone] s ∧
    (s.view ['b']).map View.level = some 100 ∧
    (managerToYamlString y).run (ofConfig s) = some (some rotatedText, ofConfig s) ∧
    LogDefines.fromStr y none rotatedText = some v ∧ fresh.setValue v = some after ∧
    ∀ name ∈ (ofConfig s).names, after.view name = (s.view name).map View.named := by
  have shown : (LogConfig.fresh.bind fun fresh => ([both, keptAlone].foldlM LogConfig.setValue fresh).map fun s =>
      decide ((s.view ['b']).map View.level = some 100 ∧
        (List.range s.manager.logs.loggers).map (fun l => (s.manager.logs.logger l).name) =
          ["root".toList, ['a'], ['b']] ∧
        (∀ name ∈ (ofConfig s).names, (s.manager.loggers name).isSome) ∧
        ((ofConfig s).dumped.map blockText).head? = some rotatedText ∧ ((ofConfig s).dumped.map blockText).Nodup)) =
      some true := by
    decide +kernel
  obtain ⟨fresh, started, ran⟩ := Option.bind_eq_some_iff.mp shown
  obtain ⟨s, path, shown⟩ := Machine.Path.exists_ofNext (fun _ => True) ran
  obtain ⟨removed, all, there, text, apart⟩ := of_decide_eq_true shown
  have settled := settled_of_path started path
  have keys (name : Text) : name ∈ (ofConfig s).names ↔ ((ofConfig s).manager.loggers name).isSome := by
    refine ⟨there name, fun here => ?_⟩
    obtain ⟨l, here⟩ := Option.isSome_iff_exists.mp here
    obtain ⟨known, named⟩ := settled.wf.named name l here
    have member : name ∈ (List.range s.manager.logs.loggers).map fun l => (s.manager.logs.logger l).name :=
      List.mem_map.mpr ⟨l, List.mem_range.mpr known, named⟩
    rw [all] at member
    simp only [List.mem_cons, List.not_mem_nil, or_false] at member
    obtain rfl | rfl | rfl := member <;> simp [ofConfig]
  have restores (node : YAML.Node) (member : node ∈ (ofConfig s).dumped) :
      (blockYaml (ofConfig s).dumped).load ((blockYaml (ofConfig s).dumped).emit (some node)) = some node :=
    load_blockYaml apart member
  have taken : (ofConfig s).manager = s.manager := rfl
  obtain ⟨printed, v, after, ran, read, set, same⟩ :=
    dump_restores (blockYaml (ofConfig s).dumped) none started path taken (by simp [ofConfig]; decide) keys restores
  have listed : (ofConfig s).listed ≠ [] := by
    intro none_
    obtain ⟨l, here⟩ := Option.isSome_iff_exists.mp (there ['a'] List.mem_cons_self)
    have member : l ∈ (ofConfig s).listed := List.mem_filterMap.mpr ⟨['a'], List.mem_cons_self, here⟩
    rw [none_] at member
    cases member
  have emitted := (run_managerToYamlString restores listed).symm.trans ran
  obtain rfl := Option.some.inj (Prod.ext_iff.mp (Option.some.inj emitted)).1
  have whole : (blockYaml (ofConfig s).dumped).emit
      (some (.sequence ((ofConfig s).listed.map (ofConfig s).logs.toNode))) = rotatedText := Option.some.inj text
  rw [whole] at ran read
  exact ⟨_, fresh, s, after, v, started, path, removed, ran, read, set, same⟩

end Logging

end Sylar
