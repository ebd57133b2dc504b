import Mathlib.Data.List.Induction
import Mathlib.Data.List.Pairwise
import Sylar.Model.Log.LogIniter
import Sylar.Proofs.Log.Updates

/-! # What a new value of the `logs` variable leaves in the loggers

The listener is followed by what it does to the loggers of one name: the pattern they have and what can be told
of them. The only thing of the state before that this depends on is the pattern.
-/

namespace Sylar

open LogConfig (AppenderView View)

/-- A pattern that a formatter is set to. -/
def accepted (fmt : Text) : Bool :=
  fmt ≠ [] && match LogFormatter.new fmt with
    | .ok object => !object.isError
    | .error _ => false

theorem LogFormatter.pattern_of_new {pattern : Text} {f : LogFormatter} (made : LogFormatter.new pattern = .ok f) :
    f.pattern = pattern := by
  unfold LogFormatter.new at made
  split at made
  next => cases made
  next =>
    obtain rfl := Except.ok.inj made
    rfl

theorem accepted_of_new {val : Text} {object : LogFormatter} (present : val ≠ [])
    (made : LogFormatter.new val = .ok object) : accepted val = !object.isError := by
  simp [accepted, made, present]

/-- The pattern a formatter pointer stands for. -/
def patternOf (formatter : Option LogFormatterPtr) : Option Text := formatter.map fun f => f.object.pattern

namespace Logs

variable {m after : Logs} {l k : LoggerPtr}

theorem Frame.makeFormatter (object : LogFormatter) : Frame l m (m.makeFormatter object).2 :=
  ⟨rfl, fun _ _ => rfl, rfl, Nat.le_refl _, fun _ _ _ => rfl, fun _ member => .inl member⟩

/-- `Logger::setFormatter` of a string, as far as it can be told. -/
theorem setFormatterText_spec {val : Text} (present : val ≠ [])
    (ran : (m.setFormatterText l val).toOption = some after) :
    Frame l m after ∧ (after.logger l).level = (m.logger l).level ∧
      patternOf (after.logger l).formatter = if accepted val then some val else patternOf (m.logger l).formatter := by
  unfold setFormatterText at ran
  cases made : LogFormatter.new val with
  | error abort =>
    rw [made] at ran
    cases ran
  | ok object =>
    simp only [made] at ran
    split_ifs at ran with refused
    · obtain rfl := Option.some.inj ran
      refine ⟨.makeFormatter object, rfl, (if_neg ?_).symm⟩
      simp [accepted_of_new present made, refused]
    · obtain rfl := Option.some.inj ran
      have accepts : accepted val = true := by simp [accepted_of_new present made, refused]
      refine ⟨(Frame.makeFormatter object).trans (.setFormatter _), ?_, ?_⟩
      · rw [setFormatter_logger, if_pos rfl]
        rfl
      · rw [setFormatter_logger, if_pos rfl, if_pos accepts]
        exact congrArg some (LogFormatter.pattern_of_new made)

/-- `LogAppender::setFormatter` of a string, on an appender that has no formatter. -/
theorem appenderSetFormatterText_spec {val : Text} {a : LogAppenderPtr} (present : val ≠ [])
    (lacks : (m.appender a).formatter = none) (ran : (m.appenderSetFormatterText a val).toOption = some after) :
    after.logger = m.logger ∧ after.loggers = m.loggers ∧ after.appenders = m.appenders ∧
      (∀ b ≠ a, after.appender b = m.appender b) ∧
      (after.appender a).kind = (m.appender a).kind ∧ (after.appender a).level = (m.appender a).level ∧
      patternOf (after.appender a).formatter = if accepted val then some val else none := by
  unfold appenderSetFormatterText at ran
  cases made : LogFormatter.new val with
  | error abort =>
    rw [made] at ran
    cases ran
  | ok object =>
    simp only [made] at ran
    split_ifs at ran with refused
    · obtain rfl := Option.some.inj ran
      have refuses : ¬accepted val = true := by simp [accepted_of_new present made, refused]
      rw [if_neg refuses]
      refine ⟨rfl, rfl, rfl, fun b ne => (updateAppender_appender ..).trans (if_neg ne), ?_⟩
      rw [updateAppender_appender, if_pos rfl]
      exact ⟨rfl, rfl, by simp [patternOf, makeFormatter, lacks]⟩
    · obtain rfl := Option.some.inj ran
      have accepts : accepted val = true := by simp [accepted_of_new present made, refused]
      rw [if_pos accepts]
      refine ⟨rfl, rfl, rfl, fun b ne => (updateAppender_appender ..).trans (if_neg ne), ?_⟩
      rw [appenderSetFormatter, updateAppender_appender, if_pos rfl]
      exact ⟨rfl, rfl, congrArg some (LogFormatter.pattern_of_new made)⟩

end Logs

/-! ## The appenders of a definition -/

/-- What can be told of the appender of a definition if its logger has this pattern. -/
def LogAppenderDefine.view (a : LogAppenderDefine) (pattern : Option Text) : Option AppenderView :=
  a.kind.map fun kind => ⟨kind, a.level, if accepted a.formatter then some a.formatter else pattern⟩

namespace LogIniter

open Logs

variable {m after : Logs} {l k : LoggerPtr} {a : LogAppenderDefine}

/-- What attaching a new appender changes. -/
theorem addAppender_new (mid : Logs) (logger : mid.logger = m.logger) (loggers : mid.loggers = m.loggers)
    (appenders : mid.appenders = m.appenders + 1) (old : ∀ b ≠ m.appenders, mid.appender b = m.appender b) :
    Frame l m (mid.addAppender l m.appenders) ∧ ((mid.addAppender l m.appenders).logger l) =
        { m.logger l with appenders := (m.logger l).appenders ++ [m.appenders] } ∧
      ∀ b < m.appenders, (mid.addAppender l m.appenders).appender b = m.appender b := by
  have same : (mid.addAppender l m.appenders).logger l =
      { m.logger l with appenders := (m.logger l).appenders ++ [m.appenders] } := by
    rw [addAppender_logger, if_pos rfl, logger]
  have kept (b : LogAppenderPtr) (before : b < m.appenders) :
      (mid.addAppender l m.appenders).appender b = m.appender b := by
    rw [addAppender_appender, if_neg fun both => Nat.ne_of_lt before both.1, old b (Nat.ne_of_lt before)]
  refine ⟨⟨by simp [loggers], fun k ne => ?_, by rw [same], by simp [appenders], fun b before _ => kept b before,
    fun b member => ?_⟩, same, kept⟩
  · rw [addAppender_logger, if_neg ne, logger]
  · rw [same] at member
    rcases List.mem_append.mp member with before | new
    · exact .inl before
    · obtain rfl := List.mem_singleton.mp new
      exact .inr ⟨Nat.le_refl _, by simp [appenders]⟩

/-- An attached appender uses its own pattern, or else that of the logger. -/
theorem addAppender_view (mid : Logs) (ap : LogAppenderPtr) :
    ((mid.addAppender l ap).appender ap).view = ⟨(mid.appender ap).kind, (mid.appender ap).level,
      (patternOf (mid.appender ap).formatter).or (patternOf (mid.logger l).formatter)⟩ := by
  rw [addAppender_appender]
  cases own : (mid.appender ap).formatter with
  | none => simp [LogAppender.view, patternOf]
  | some f => simp [LogAppender.view, patternOf, own]

/-- A new appender is made, and attached at the end. -/
theorem appenderDefined_spec (ran : appenderDefined l m a = some after) :
    Frame l m after ∧
      (after.logger l) = { m.logger l with appenders := (m.logger l).appenders ++ [m.appenders] } ∧
      (∀ b < m.appenders, after.appender b = m.appender b) ∧
      a.view (patternOf (m.logger l).formatter) = some (after.appender m.appenders).view := by
  simp only [appenderDefined, Option.bind_eq_bind, Option.bind_eq_some_iff, Option.map_eq_some_iff] at ran
  obtain ⟨_, ⟨kind, type, rfl⟩, ran⟩ := ran
  -- The new appender in front of `setFormatter`.
  have started : ((m.makeAppender kind).2.appenderSetLevel m.appenders a.level).appender m.appenders =
      { kind, level := a.level } := by
    rw [appenderSetLevel, updateAppender_appender, if_pos rfl, makeAppender_appender, if_pos rfl]
  have others (b : LogAppenderPtr) (ne : b ≠ m.appenders) :
      ((m.makeAppender kind).2.appenderSetLevel m.appenders a.level).appender b = m.appender b := by
    rw [appenderSetLevel, updateAppender_appender, if_neg ne, makeAppender_appender, if_neg ne]
  split_ifs at ran with present
  · obtain ⟨mid, set, attached⟩ := Option.bind_eq_some_iff.mp ran
    obtain rfl := Option.some.inj attached
    obtain ⟨logger, loggers, appenders, kept, kind', level, pattern⟩ :=
      appenderSetFormatterText_spec present (congrArg LogAppender.formatter started) set
    obtain ⟨frame, same, old⟩ := addAppender_new (l := l) (m := m) mid logger loggers appenders fun b ne =>
      (kept b ne).trans (others b ne)
    refine ⟨frame, same, old, ?_⟩
    have shown := addAppender_view (l := l) mid m.appenders
    rw [kind', level, pattern, logger] at shown
    rw [show (m.makeAppender kind).1 = m.appenders from rfl, shown, started]
    simp only [LogAppenderDefine.view, type, Option.map_some]
    cases accepted a.formatter <;> rfl
  · obtain ⟨mid, set, attached⟩ := Option.bind_eq_some_iff.mp ran
    obtain rfl := Option.some.inj attached
    obtain rfl := Option.some.inj set
    obtain ⟨frame, same, old⟩ := addAppender_new (l := l) (m := m)
      ((m.makeAppender kind).2.appenderSetLevel m.appenders a.level) rfl rfl rfl others
    refine ⟨frame, same, old, ?_⟩
    have shown := addAppender_view (l := l) ((m.makeAppender kind).2.appenderSetLevel m.appenders a.level) m.appenders
    rw [started] at shown
    rw [show (m.makeAppender kind).1 = m.appenders from rfl, shown]
    have refuses : accepted a.formatter = false := by simp [accepted, not_not.mp present]
    simp [LogAppenderDefine.view, type, refuses]
    rfl

/-- The appenders of a definition, behind those that are there. -/
theorem foldlM_appenderDefined_spec {as : List LogAppenderDefine} (ran : as.foldlM (appenderDefined l) m = some after)
    (made : ∀ b ∈ (m.logger l).appenders, b < m.appenders) :
    Frame l m after ∧ after.view l = { m.view l with
      appenders := (m.view l).appenders ++ as.filterMap fun a => a.view (m.view l).pattern } := by
  induction as generalizing m with
  | nil =>
    obtain rfl := Option.some.inj ran
    exact ⟨.refl l m, by simp⟩
  | cons a as ih =>
    rw [List.foldlM_cons] at ran
    obtain ⟨mid, first, ran⟩ := Option.bind_eq_some_iff.mp ran
    obtain ⟨frame, same, old, shown⟩ := appenderDefined_spec first
    have viewed : mid.view l = { m.view l with
        appenders := (m.view l).appenders ++ [(mid.appender m.appenders).view] } := by
      have kept : (m.logger l).appenders.map (fun b => (mid.appender b).view) =
          (m.logger l).appenders.map fun b => (m.appender b).view :=
        List.map_congr_left fun b member => congrArg LogAppender.view (old b (made b member))
      rw [view, same]
      simp [view, kept]
    obtain ⟨frame', viewed'⟩ := ih ran fun b member =>
      (frame.attached b member).elim (fun before => Nat.lt_of_lt_of_le (made b before) frame.appenders) And.right
    refine ⟨frame.trans frame', ?_⟩
    have shown' : a.view (m.view l).pattern = some (mid.appender m.appenders).view := shown
    rw [viewed', viewed, List.filterMap_cons, shown']
    simp

end LogIniter

/-! ## The loggers of one name -/

namespace LoggerManager

open Logs LogIniter

variable {m after : LoggerManager} {l k : LoggerPtr} {name other : Text}

/-- The name under which the logger is kept. -/
def canonical (name : Text) : Text := if name = [] then "root".toList else name

/-- The loggers are kept under their names, and the appenders exist. -/
structure Wf (m : LoggerManager) : Prop where
  root : m.loggers "root".toList = some m.root
  named : ∀ name l, m.loggers name = some l → l < m.logs.loggers ∧ (m.logs.logger l).name = name
  made : ∀ l < m.logs.loggers, ∀ a ∈ (m.logs.logger l).appenders, a < m.logs.appenders

theorem Wf.find_eq (wf : Wf m) (name : Text) : m.find name = m.loggers (canonical name) := by
  unfold find canonical
  split_ifs
  · exact wf.root.symm
  · rfl

theorem Wf.ne_of_ne (wf : Wf m) (here : m.loggers name = some l) (there : m.loggers other = some k)
    (ne : other ≠ name) :
    k ≠ l := by
  rintro rfl
  exact ne ((wf.named other k there).2.symm.trans (wf.named name k here).2)

/-- The appenders of the logger are attached to no other. -/
def Exclusive (m : Logs) (l : LoggerPtr) : Prop :=
  ∀ k < m.loggers, k ≠ l → ∀ a ∈ (m.logger l).appenders, a ∉ (m.logger k).appenders

/-- The pattern of the logger, or the one it would be made with. -/
def currentPattern (m : LoggerManager) (name : Text) : Option Text :=
  match m.loggers name with
  | some l => patternOf (m.logs.logger l).formatter
  | none => some defaultPattern

/-- What is known of the logger of a name: its pattern, and what can be told of it once it has been set. -/
structure Track where
  pattern : Option Text
  view : Option View

structure Simulates (name : Text) (m : LoggerManager) (s : Track) : Prop where
  pattern : currentPattern m name = s.pattern
  view : ∀ v, s.view = some v → ∃ l, m.loggers name = some l ∧ Exclusive m.logs l ∧ m.logs.view l = v

/-- Calls on the logger of one name keep what is known of the others. -/
theorem Wf.frame (wf : Wf m) {logs : Logs} (here : m.loggers name = some l) (frame : Frame l m.logs logs) :
    Wf { m with logs } ∧
      ∀ other ≠ name, ∀ s, Simulates other m s → Simulates other { m with logs } s := by
  have logger (n : Text) (k : LoggerPtr) (there : m.loggers n = some k) :
      (logs.logger k).name = (m.logs.logger k).name := by
    by_cases same : k = l
    · subst same
      exact frame.name
    · rw [frame.logger k same]
  refine ⟨⟨wf.root, fun n k there => ?_, fun k known b member => ?_⟩, fun other ne s simulates => ?_⟩
  · obtain ⟨known, same⟩ := wf.named n k there
    exact ⟨frame.loggers.symm ▸ known, (logger n k there).trans same⟩
  · have known' : k < m.logs.loggers := frame.loggers ▸ known
    by_cases same : k = l
    · subst same
      exact (frame.attached b member).elim
        (fun before => Nat.lt_of_lt_of_le (wf.made k known' b before) frame.appenders) And.right
    · have member' : b ∈ (m.logs.logger k).appenders := frame.logger k same ▸ member
      exact Nat.lt_of_lt_of_le (wf.made k known' b member') frame.appenders
  · constructor
    · rw [← simulates.pattern]
      unfold currentPattern
      cases there : m.loggers other with
      | none => rfl
      | some k =>
        show patternOf (logs.logger k).formatter = patternOf (m.logs.logger k).formatter
        rw [frame.logger k (wf.ne_of_ne here there ne)]
    · intro v told
      obtain ⟨k, there, exclusive, viewed⟩ := simulates.view v told
      have known := (wf.named other k there).1
      have ne' := wf.ne_of_ne here there ne
      have same := frame.logger k ne'
      refine ⟨k, there, fun j known' distinct b member => ?_, ?_⟩
      · have member' : b ∈ (m.logs.logger k).appenders := same ▸ member
        have free := exclusive j (frame.loggers ▸ known') distinct b member'
        by_cases here' : j = l
        · subst here'
          intro attached
          rcases frame.attached b attached with before | ⟨new, -⟩
          · exact free before
          · exact Nat.not_lt.mpr new (wf.made k known b member')
        · show b ∉ (logs.logger j).appenders
          rw [frame.logger j here']
          exact free
      · rw [← viewed]
        have appenders : (m.logs.logger k).appenders.map (fun b => (logs.appender b).view) =
            (m.logs.logger k).appenders.map fun b => (m.logs.appender b).view :=
          List.map_congr_left fun b member => congrArg LogAppender.view
            (frame.appender b (wf.made k known b member)
              (exclusive l (wf.named name l here).1 (Ne.symm ne') b member))
        simp only [Logs.view, same, appenders]

/-- One more logger, under its name. -/
def enroll (name : Text) (formatter : LogFormatterPtr) (m : LoggerManager) : LoggerManager :=
  { m with
    logs := m.logs.initLogger name formatter
    loggers := Function.update m.loggers name (some m.logs.loggers) }

section Enroll

variable (m name) (formatter : LogFormatterPtr)

theorem enroll_loggers_self : (m.enroll name formatter).loggers name = some m.logs.loggers := Function.update_self ..

variable {name} in
theorem enroll_loggers_of_ne (ne : other ≠ name) : (m.enroll name formatter).loggers other = m.loggers other :=
  Function.update_of_ne ne ..

variable {m} in
theorem enroll_logger_old (known : k < m.logs.loggers) :
    (m.enroll name formatter).logs.logger k = m.logs.logger k :=
  (initLogger_logger ..).trans (if_neg (Nat.ne_of_lt known))

theorem enroll_logger_new :
    (m.enroll name formatter).logs.logger m.logs.loggers = { name, formatter := some formatter } :=
  (initLogger_logger ..).trans (if_pos rfl)

end Enroll

theorem Wf.enroll (wf : Wf m) (missing : m.loggers name = none) (formatter : LogFormatterPtr) :
    Wf (m.enroll name formatter) := by
  refine ⟨?_, fun other k there => ?_, fun k known b member => ?_⟩
  · refine (enroll_loggers_of_ne m formatter ?_).trans wf.root
    rintro rfl
    exact absurd (wf.root.symm.trans missing) nofun
  · rcases eq_or_ne other name with rfl | ne
    · rw [enroll_loggers_self] at there
      obtain rfl := Option.some.inj there
      exact ⟨Nat.lt_succ_self _, by rw [enroll_logger_new]⟩
    · rw [enroll_loggers_of_ne m formatter ne] at there
      obtain ⟨known, same⟩ := wf.named other k there
      exact ⟨Nat.lt_succ_of_lt known, by rw [enroll_logger_old name formatter known, same]⟩
  · rcases Nat.lt_succ_iff_lt_or_eq.mp known with before | rfl
    · rw [enroll_logger_old name formatter before] at member
      exact wf.made k before b member
    · rw [enroll_logger_new] at member
      cases member

/-- A logger with nothing but its name and the pattern that is made for all tells nothing new. -/
theorem Simulates.enroll {s : Track} (simulates : Simulates other m s) (wf : Wf m) (missing : m.loggers name = none)
    {formatter : LogFormatterPtr} (pattern : patternOf (some formatter) = some defaultPattern) :
    Simulates other (m.enroll name formatter) s where
  pattern := by
    rw [← simulates.pattern, currentPattern, currentPattern]
    rcases eq_or_ne other name with rfl | ne
    · simp only [enroll_loggers_self, missing, enroll_logger_new, pattern]
    · rw [enroll_loggers_of_ne m formatter ne]
      cases there : m.loggers other with
      | none => rfl
      | some k => simp only [enroll_logger_old name formatter (wf.named other k there).1]
  view v told := by
    obtain ⟨k, there, exclusive, viewed⟩ := simulates.view v told
    have known := (wf.named other k there).1
    have ne : other ≠ name := by
      rintro rfl
      exact absurd (there.symm.trans missing) nofun
    have same := enroll_logger_old name formatter known
    refine ⟨k, (enroll_loggers_of_ne m formatter ne).trans there, fun j known' distinct b member => ?_, ?_⟩
    · rw [same] at member
      rcases Nat.lt_succ_iff_lt_or_eq.mp known' with before | rfl
      · rw [enroll_logger_old name formatter before]
        exact exclusive j before distinct b member
      · rw [enroll_logger_new]
        exact List.not_mem_nil
    · rw [← viewed]
      simp only [Logs.view, same]
      rfl

/-- The logger of a name is found or made, and nothing that is known changes. -/
theorem Wf.getLogger (wf : Wf m) (ran : m.getLogger name = some (l, after)) :
    Wf after ∧ after.loggers (canonical name) = some l ∧ ∀ other s, Simulates other m s → Simulates other after s := by
  unfold LoggerManager.getLogger at ran
  unfold canonical
  split_ifs at ran with unnamed
  · obtain ⟨rfl, rfl⟩ := Prod.ext_iff.mp (Option.some.inj ran)
    rw [if_pos unnamed]
    exact ⟨wf, wf.root, fun _ _ known => known⟩
  · rw [if_neg unnamed]
    cases there : m.loggers name with
    | some k =>
      rw [there] at ran
      obtain ⟨rfl, rfl⟩ := Prod.ext_iff.mp (Option.some.inj ran)
      exact ⟨wf, there, fun _ _ known => known⟩
    | none =>
      simp only [there, Option.bind_eq_bind] at ran
      obtain ⟨⟨k, logs⟩, made, ended⟩ := Option.bind_eq_some_iff.mp ran
      have notRoot : name ≠ "root".toList := by
        rintro rfl
        exact absurd (wf.root.symm.trans there) nofun
      unfold Logs.makeLogger at made
      cases pattern : LogFormatter.new defaultPattern with
      | error abort =>
        rw [pattern] at made
        cases made
      | ok object =>
        simp only [pattern, if_neg notRoot] at made
        cases made
        cases ended
        have wf' : Wf { m with logs := (m.logs.makeFormatter object).2 } := ⟨wf.root, wf.named, wf.made⟩
        have same : patternOf (some (m.logs.makeFormatter object).1) = some defaultPattern :=
          congrArg some (LogFormatter.pattern_of_new pattern)
        refine ⟨wf'.enroll there _, Function.update_self .., fun other s simulates => ?_⟩
        have simulates' : Simulates other { m with logs := (m.logs.makeFormatter object).2 } s :=
          ⟨simulates.pattern, simulates.view⟩
        exact simulates'.enroll wf' there same

/-! ## The two loops -/

/-- The pattern of a logger after a definition. -/
def definedPattern (i : LogDefine) (before : Option Text) : Option Text :=
  if accepted i.formatter then some i.formatter else before

/-- What can be told of a logger after a definition. -/
def definedView (i : LogDefine) (pattern : Option Text) : View :=
  ⟨i.level, pattern, i.appenders.filterMap fun a => a.view pattern⟩

/-- What a round of the loop over the new value does to what is known of a name. -/
def Track.defined (name : Text) (s : Track) (i : LogDefine) : Track :=
  if canonical i.name = name then
    { pattern := definedPattern i s.pattern, view := some (definedView i (definedPattern i s.pattern)) }
  else s

/-- What a round of the loop over the old value does to it. -/
def Track.removed (new_value : LogDefines) (name : Text) (s : Track) (i : LogDefine) : Track :=
  if canonical i.name = name ∧ new_value.defs.any (fun other => other.name = i.name) = false then
    { s with view := s.view.map fun v => { v with level := 100, appenders := [] } }
  else s

/-- A definition and the logger it is for. -/
theorem configure_spec {logs after : Logs} {i : LogDefine}
    (made : ∀ k < logs.loggers, ∀ a ∈ (logs.logger k).appenders, a < logs.appenders)
    (ran : configure l i logs = some after) :
    Frame l logs after ∧ Exclusive after l ∧
      after.view l = definedView i (definedPattern i (patternOf (logs.logger l).formatter)) := by
  obtain ⟨mid, set, ran⟩ : ∃ mid, (if i.formatter ≠ [] then
        ((logs.setLevel l i.level).setFormatterText l i.formatter).toOption
        else some (logs.setLevel l i.level)) = some mid ∧
      i.appenders.foldlM (appenderDefined l) (mid.clearAppenders l) = some after := by
    unfold configure at ran
    dsimp only at ran
    split_ifs at ran ⊢ <;> exact Option.bind_eq_some_iff.mp ran
  have level : Frame l logs (logs.setLevel l i.level) := .updateLogger rfl (List.Subset.refl _)
  have clear : Frame l mid (mid.clearAppenders l) := .updateLogger rfl (List.nil_subset _)
  have empty : ((mid.clearAppenders l).logger l).appenders = [] := by
    rw [clearAppenders, updateLogger_logger, if_pos rfl]
  obtain ⟨appended, viewed⟩ := foldlM_appenderDefined_spec ran (by rw [empty]; nofun)
  have started : Frame l logs mid ∧ (mid.logger l).level = i.level ∧
      patternOf (mid.logger l).formatter = definedPattern i (patternOf (logs.logger l).formatter) := by
    have here : (logs.setLevel l i.level).logger l = { logs.logger l with level := i.level } :=
      (updateLogger_logger ..).trans (if_pos rfl)
    split_ifs at set with present
    · obtain ⟨frame, same, pattern⟩ := setFormatterText_spec present set
      rw [here] at same pattern
      exact ⟨level.trans frame, same, pattern⟩
    · obtain rfl := Option.some.inj set
      rw [here]
      refine ⟨level, rfl, ?_⟩
      simp [definedPattern, accepted, not_not.mp present]
  obtain ⟨frame, same, pattern⟩ := started
  refine ⟨(frame.trans clear).trans appended, fun k known ne a member => ?_, ?_⟩
  · rcases appended.attached a member with before | ⟨new, -⟩
    · rw [empty] at before
      cases before
    · have unchanged := ((frame.trans clear).trans appended).logger k ne
      rw [unchanged]
      intro old
      have known' : k < logs.loggers := ((frame.trans clear).trans appended).loggers ▸ known
      exact Nat.not_lt.mpr (Nat.le_trans (frame.trans clear).appenders new) (made k known' a old)
  · have cleared : (mid.clearAppenders l).view l =
        ⟨i.level, definedPattern i (patternOf (logs.logger l).formatter), []⟩ := by
      rw [Logs.view, clearAppenders, updateLogger_logger, if_pos rfl, ← pattern, ← same]
      rfl
    rw [viewed, cleared]
    rfl

/-- One round of the loop over the new value. -/
theorem Wf.defined (wf : Wf m) {i : LogDefine} (ran : LogIniter.defined m i = some after) :
    Wf after ∧ ∀ name s, Simulates name m s → Simulates name after (s.defined name i) := by
  unfold LogIniter.defined at ran
  obtain ⟨⟨l, mid⟩, got, ran⟩ := Option.bind_eq_some_iff.mp ran
  obtain ⟨wf, here, known⟩ := wf.getLogger got
  obtain ⟨logs, configured, ended⟩ := Option.bind_eq_some_iff.mp ran
  obtain rfl := Option.some.inj ended
  obtain ⟨frame, exclusive, viewed⟩ := configure_spec wf.made configured
  obtain ⟨wf', others⟩ := wf.frame here frame
  refine ⟨wf', fun name s simulates => ?_⟩
  have simulates' := known name s simulates
  unfold Track.defined
  split_ifs with same
  · subst same
    have before : patternOf (mid.logs.logger l).formatter = s.pattern := by
      rw [← simulates'.pattern, currentPattern, here]
    rw [before] at viewed
    refine ⟨?_, fun v told => ⟨l, here, exclusive, viewed.trans (Option.some.inj told)⟩⟩
    have pattern : patternOf (logs.logger l).formatter = definedPattern i s.pattern := congrArg View.pattern viewed
    simp only [currentPattern, here, pattern]
  · exact others name (Ne.symm same) s simulates'

/-- One round of the loop over the old value. -/
theorem Wf.removed (wf : Wf m) {new_value : LogDefines} {i : LogDefine}
    (ran : LogIniter.removed new_value m i = some after) :
    Wf after ∧ ∀ name s, Simulates name m s → Simulates name after (s.removed new_value name i) := by
  unfold LogIniter.removed at ran
  by_cases present : (new_value.defs.any fun other => other.name = i.name) = true
  · rw [if_pos present] at ran
    obtain rfl := Option.some.inj ran
    refine ⟨wf, fun name s simulates => ?_⟩
    rwa [Track.removed, if_neg (by simp [present])]
  · rw [if_neg present] at ran
    obtain ⟨⟨l, mid⟩, got, ran⟩ := Option.bind_eq_some_iff.mp ran
    obtain rfl := Option.some.inj ran
    obtain ⟨wf, here, known⟩ := wf.getLogger got
    have level : Frame l mid.logs (mid.logs.setLevel l 100) := .updateLogger rfl (List.Subset.refl _)
    have clear : Frame l (mid.logs.setLevel l 100) ((mid.logs.setLevel l 100).clearAppenders l) :=
      .updateLogger rfl (List.nil_subset _)
    obtain ⟨wf', others⟩ := wf.frame here (level.trans clear)
    refine ⟨wf', fun name s simulates => ?_⟩
    have simulates' := known name s simulates
    have logger : ((mid.logs.setLevel l 100).clearAppenders l).logger l =
        { mid.logs.logger l with level := 100, appenders := [] } := by
      rw [clearAppenders, updateLogger_logger, if_pos rfl, setLevel, updateLogger_logger, if_pos rfl]
    unfold Track.removed
    split_ifs with same
    · obtain ⟨rfl, -⟩ := same
      refine ⟨?_, fun v told => ⟨l, here, fun k _ _ a member => ?_, ?_⟩⟩
      · rw [← simulates'.pattern]
        simp only [currentPattern, here, logger]
      · rw [logger] at member
        cases member
      · obtain ⟨w, told', rfl⟩ := Option.map_eq_some_iff.mp told
        obtain ⟨k, there, -, viewed⟩ := simulates'.view w told'
        obtain rfl := Option.some.inj (here.symm.trans there)
        rw [← viewed, Logs.view, logger]
        rfl
    · refine others name (fun same' => same ⟨same'.symm, Bool.eq_false_iff.mpr present⟩) s simulates'

/-- A loop does to what is known what its rounds do. -/
theorem simulates_foldlM {α : Type} {f : LoggerManager → α → Option LoggerManager} {g : Text → Track → α → Track}
    (round : ∀ m i after, Wf m → f m i = some after →
      Wf after ∧ ∀ name s, Simulates name m s → Simulates name after (g name s i))
    {is : List α} (wf : Wf m) (ran : is.foldlM f m = some after) :
    Wf after ∧ ∀ name s, Simulates name m s → Simulates name after (is.foldl (g name) s) := by
  induction is generalizing m with
  | nil =>
    obtain rfl := Option.some.inj ran
    exact ⟨wf, fun _ _ known => known⟩
  | cons i is ih =>
    rw [List.foldlM_cons] at ran
    obtain ⟨mid, first, ran⟩ := Option.bind_eq_some_iff.mp ran
    obtain ⟨wf, known⟩ := round m i mid wf first
    obtain ⟨wf', known'⟩ := ih wf ran
    exact ⟨wf', fun name s simulates => known' name _ (known name s simulates)⟩

/-- What the listener leaves of a logger, by the pattern it had before. -/
def Track.changed (old_value new_value : LogDefines) (name : Text) (s : Track) : Track :=
  old_value.defs.foldl (Track.removed new_value name) (new_value.defs.foldl (Track.defined name) s)

theorem Wf.changed (wf : Wf m) {old_value new_value : LogDefines}
    (ran : LogIniter.changed old_value new_value m = some after) :
    Wf after ∧ ∀ name s, Simulates name m s → Simulates name after (s.changed old_value new_value name) := by
  obtain ⟨mid, first, second⟩ := Option.bind_eq_some_iff.mp ran
  obtain ⟨wf, known⟩ := simulates_foldlM (fun _ _ _ wf ran => wf.defined ran) wf first
  obtain ⟨wf', known'⟩ := simulates_foldlM (fun _ _ _ wf ran => wf.removed ran) wf second
  exact ⟨wf', fun name s simulates => known' name _ (known name s simulates)⟩

/-! ## When the listener comes to its end -/

/-- The constructor of a formatter does not throw, if it is called. -/
def constructible (fmt : Text) : Bool := fmt = [] || (LogFormatter.new fmt).toOption.isSome

def appenderValid (a : LogAppenderDefine) : Bool := a.kind.isSome && constructible a.formatter

def defineValid (i : LogDefine) : Bool := constructible i.formatter && i.appenders.all appenderValid

theorem isSome_foldlM {σ α : Type} {f : σ → α → Option σ} {p : α → Bool} (round : ∀ s i, (f s i).isSome = p i)
    (is : List α) (s : σ) : (is.foldlM f s).isSome = is.all p := by
  induction is generalizing s with
  | nil => rfl
  | cons i is ih =>
    rw [List.foldlM_cons, List.all_cons, ← round s i]
    cases f s i with
    | none => rfl
    | some t => exact ih t

theorem setFormatterText_isSome (logs : Logs) (l : LoggerPtr) (fmt : Text) :
    (logs.setFormatterText l fmt).toOption.isSome = (LogFormatter.new fmt).toOption.isSome := by
  unfold Logs.setFormatterText
  cases LogFormatter.new fmt with
  | error => rfl
  | ok object =>
    dsimp only
    split_ifs <;> rfl

theorem appenderSetFormatterText_isSome (logs : Logs) (a : LogAppenderPtr) (fmt : Text) :
    (logs.appenderSetFormatterText a fmt).toOption.isSome = (LogFormatter.new fmt).toOption.isSome := by
  unfold Logs.appenderSetFormatterText
  cases LogFormatter.new fmt with
  | error => rfl
  | ok object =>
    dsimp only
    split_ifs <;> rfl

theorem appenderDefined_isSome (l : LoggerPtr) (logs : Logs) (a : LogAppenderDefine) :
    (appenderDefined l logs a).isSome = appenderValid a := by
  unfold appenderDefined appenderValid constructible
  cases a.kind with
  | none => rfl
  | some kind =>
    simp only [Option.map_some, Option.bind_eq_bind, Option.bind_some]
    split_ifs with present
    · have set := appenderSetFormatterText_isSome
        (appenderSetLevel (makeAppender kind logs).1 a.level (makeAppender kind logs).2)
          (makeAppender kind logs).1 a.formatter
      simp only [Option.isSome_some, Bool.true_and, decide_eq_false present, Bool.false_or, ← set]
      cases (appenderSetFormatterText (makeAppender kind logs).1 a.formatter
        (appenderSetLevel (makeAppender kind logs).1 a.level (makeAppender kind logs).2)).toOption <;> rfl
    · simp [not_not.mp present]

theorem configure_isSome (l : LoggerPtr) (i : LogDefine) (logs : Logs) :
    (configure l i logs).isSome = defineValid i := by
  have appended (mid : Logs) := isSome_foldlM (appenderDefined_isSome l) i.appenders (mid.clearAppenders l)
  unfold configure defineValid constructible
  dsimp only
  split_ifs with present
  · have set := setFormatterText_isSome (logs.setLevel l i.level) l i.formatter
    simp only [decide_eq_false present, Bool.false_or, ← set]
    cases (setFormatterText l i.formatter (logs.setLevel l i.level)).toOption with
    | none => rfl
    | some mid => simpa using appended mid
  · simpa [not_not.mp present] using appended _

theorem makeLogger_isSome (name : Text) (logs : Logs) : (logs.makeLogger name).toOption.isSome = true := by
  have default : (LogFormatter.new defaultPattern).toOption.isSome = true := by decide +kernel
  unfold Logs.makeLogger
  cases made : LogFormatter.new defaultPattern with
  | error abort =>
    rw [made] at default
    cases default
  | ok object =>
    dsimp only
    split_ifs <;> rfl

theorem getLogger_isSome (name : Text) (m : LoggerManager) : (m.getLogger name).isSome = true := by
  unfold LoggerManager.getLogger
  split_ifs
  · rfl
  · cases m.loggers name with
    | some l => rfl
    | none =>
      obtain ⟨made, same⟩ := Option.isSome_iff_exists.mp (makeLogger_isSome name m.logs)
      simp [same]

theorem defined_isSome (m : LoggerManager) (i : LogDefine) : (LogIniter.defined m i).isSome = defineValid i := by
  obtain ⟨⟨l, mid⟩, got⟩ := Option.isSome_iff_exists.mp (getLogger_isSome i.name m)
  rw [← configure_isSome l i mid.logs, LogIniter.defined, got]
  show ((configure l i mid.logs).bind _).isSome = _
  cases configure l i mid.logs <;> rfl

theorem removed_isSome (new_value : LogDefines) (m : LoggerManager) (i : LogDefine) :
    (LogIniter.removed new_value m i).isSome = true := by
  unfold LogIniter.removed
  split_ifs
  · rfl
  · obtain ⟨got, same⟩ := Option.isSome_iff_exists.mp (getLogger_isSome i.name m)
    rw [same]
    rfl

/-- Whether the listener comes to its end depends on the new value alone. -/
theorem changed_isSome (old_value new_value : LogDefines) (m : LoggerManager) :
    (LogIniter.changed old_value new_value m).isSome = new_value.defs.all defineValid := by
  rw [← isSome_foldlM defined_isSome new_value.defs m, LogIniter.changed]
  cases new_value.defs.foldlM LogIniter.defined m with
  | none => rfl
  | some mid =>
    exact (isSome_foldlM (p := fun _ => true) (removed_isSome new_value) old_value.defs mid).trans (by simp)

/-! ## What is known after both loops -/

section Track

variable {is : List LogDefine} {s : Track} {p q : Option Text}

/-- The last definition of a name counts, with the pattern that its logger has then. -/
theorem foldl_defined_view (name : Text) (p : Option Text) (is : List LogDefine) :
    (is.foldl (Track.defined name) ⟨p, none⟩).view =
      ((is.filter fun i => canonical i.name = name).getLast?).map fun i =>
        definedView i (is.foldl (Track.defined name) ⟨p, none⟩).pattern := by
  induction is using List.reverseRecOn with
  | nil => rfl
  | append_singleton is i ih =>
    rw [List.foldl_append, List.foldl_cons, List.foldl_nil, List.filter_append, Track.defined]
    split_ifs with same
    · simp [same]
    · rw [ih]
      simp [same]

/-- The pattern a logger has then depends on the one before until a definition sets it. -/
theorem foldl_defined_pattern (name : Text) (p q : Option Text) (v w : Option View) (is : List LogDefine) :
    (is.foldl (Track.defined name) ⟨p, v⟩).pattern = (is.foldl (Track.defined name) ⟨q, w⟩).pattern ↔
      (∃ i ∈ is, canonical i.name = name ∧ accepted i.formatter) ∨ p = q := by
  induction is generalizing p q v w with
  | nil => simp
  | cons i is ih =>
    rw [List.foldl_cons, List.foldl_cons, Track.defined, Track.defined]
    by_cases same : canonical i.name = name
    · rw [if_pos same, if_pos same, ih]
      by_cases accepts : accepted i.formatter = true
      · simp [definedPattern, accepts, same]
      · simp [definedPattern, accepts]
    · rw [if_neg same, if_neg same, ih]
      simp [same]

/-- A logger is removed if the old value has it under a name that the new one has not. -/
theorem foldl_removed (new_value : LogDefines) (name : Text) (s : Track) (is : List LogDefine) :
    is.foldl (Track.removed new_value name) s =
      if ∃ i ∈ is, canonical i.name = name ∧ ∀ other ∈ new_value.defs, other.name ≠ i.name then
        { s with view := s.view.map fun v => { v with level := 100, appenders := [] } }
      else s := by
  induction is generalizing s with
  | nil => simp
  | cons i is ih =>
    rw [List.foldl_cons, ih, Track.removed]
    have absent : (canonical i.name = name ∧ new_value.defs.any (fun other => other.name = i.name) = false) ↔
        canonical i.name = name ∧ ∀ other ∈ new_value.defs, other.name ≠ i.name := by
      simp [List.any_eq_false]
    by_cases here : canonical i.name = name ∧ ∀ other ∈ new_value.defs, other.name ≠ i.name
    · have whole : ∃ j ∈ i :: is, canonical j.name = name ∧ ∀ other ∈ new_value.defs, other.name ≠ j.name :=
        ⟨i, List.mem_cons_self .., here⟩
      rw [if_pos (absent.mpr here), if_pos whole]
      split_ifs
      · simp [Function.comp_def]
      · rfl
    · rw [if_neg fun both => here (absent.mp both)]
      refine if_congr ?_ rfl rfl
      simp [here]

end Track

/-! ## The result -/

variable {old_value new_value : LogDefines} {d : LogDefine}

/-- A definition of the new value is the only one for its logger if the old value has the logger under a name
that the new one has not. -/
theorem eq_of_removed {o e : LogDefine} (member : d ∈ new_value.defs) (member' : e ∈ new_value.defs)
    (same : canonical o.name = canonical d.name) (same' : canonical e.name = canonical d.name)
    (absent : ∀ other ∈ new_value.defs, other.name ≠ o.name) : e = d := by
  have names : e.name = d.name := by
    have notHere := absent d member
    have notThere := absent e member'
    unfold canonical at same same'
    split_ifs at same same' <;> simp_all
  by_contra ne
  have distinct := new_value.sorted.imp (S := fun one other => one.name ≠ other.name) fun less same =>
    absurd (same ▸ less) (List.lt_irrefl _)
  have : Std.Symm fun one other : LogDefine => one.name ≠ other.name := ⟨fun _ _ => Ne.symm⟩
  exact distinct.forall member' member ne names

theorem exists_last (member : d ∈ new_value.defs) :
    ∃ e, (new_value.defs.filter fun i => canonical i.name = canonical d.name).getLast? = some e := by
  cases last : (new_value.defs.filter fun i => canonical i.name = canonical d.name).getLast? with
  | some e => exact ⟨e, rfl⟩
  | none =>
    have here : d ∈ new_value.defs.filter fun i => canonical i.name = canonical d.name := by simp [member]
    rw [List.getLast?_eq_none_iff.mp last] at here
    cases here

/-- The logger of a definition is known once the listener has run. -/
theorem exists_view (old_value : LogDefines) (member : d ∈ new_value.defs) (p : Option Text) :
    ∃ w, (Track.changed old_value new_value (canonical d.name) ⟨p, none⟩).view = some w := by
  obtain ⟨e, last⟩ := exists_last member
  have viewed := foldl_defined_view (canonical d.name) p new_value.defs
  simp only [last, Option.map_some] at viewed
  rw [← Option.isSome_iff_exists, Track.changed, foldl_removed]
  split_ifs <;> simp [viewed]

/-- What is known of the logger of a definition, once the listener has run, is the same for two patterns before
just if a definition sets the pattern or they are the same, and it has not been removed, but for a definition
that asks for what a removal leaves. -/
theorem changed_view_iff (member : d ∈ new_value.defs) (valid : ∀ a ∈ d.appenders, a.kind.isSome)
    (p q : Option Text) :
    (Track.changed old_value new_value (canonical d.name) ⟨p, none⟩).view =
        (Track.changed ⟨[], .nil⟩ new_value (canonical d.name) ⟨q, none⟩).view ↔
      ((∃ e ∈ new_value.defs, canonical e.name = canonical d.name ∧ accepted e.formatter) ∨ p = q) ∧
        ((∃ o ∈ old_value.defs, canonical o.name = canonical d.name ∧ ∀ e ∈ new_value.defs, e.name ≠ o.name) →
          d.level = 100 ∧ d.appenders = []) := by
  rw [← foldl_defined_pattern (canonical d.name) p q none none]
  obtain ⟨e, last⟩ := exists_last member
  have viewed (r : Option Text) := foldl_defined_view (canonical d.name) r new_value.defs
  simp only [last, Option.map_some] at viewed
  have none_removed : ¬∃ o ∈ ([] : List LogDefine), canonical o.name = canonical d.name ∧
      ∀ e ∈ new_value.defs, e.name ≠ o.name := nofun
  simp only [Track.changed, foldl_removed, if_neg none_removed, viewed q]
  by_cases gone : ∃ o ∈ old_value.defs, canonical o.name = canonical d.name ∧ ∀ e ∈ new_value.defs, e.name ≠ o.name
  · obtain ⟨o, -, same, absent⟩ := id gone
    have memberLast := List.mem_of_getLast? last
    simp only [List.mem_filter, decide_eq_true_eq] at memberLast
    obtain rfl := eq_of_removed member memberLast.1 same memberLast.2 absent
    rw [if_pos gone, viewed p]
    have empty (r : Option Text) : (e.appenders.filterMap fun a => a.view r) = [] ↔ e.appenders = [] := by
      rw [List.filterMap_eq_nil_iff]
      refine ⟨fun nothing => List.eq_nil_iff_forall_not_mem.mpr fun a here => ?_, fun same => by rw [same]; nofun⟩
      have viewless := nothing a here
      rw [LogAppenderDefine.view, Option.map_eq_none_iff] at viewless
      have kinded := valid a here
      rw [viewless] at kinded
      cases kinded
    simp only [definedView, Option.map_some, Option.some.injEq, View.mk.injEq]
    constructor
    · rintro ⟨level, pattern, appenders⟩
      exact ⟨pattern, fun _ => ⟨level.symm, (empty _).mp appenders.symm⟩⟩
    · rintro ⟨pattern, removed⟩
      obtain ⟨level, appenders⟩ := removed gone
      exact ⟨level.symm, pattern, ((empty _).mpr appenders).symm⟩
  · rw [if_neg gone, viewed p]
    have shown (r r' : Option Text) : some (definedView e r) = some (definedView e r') ↔ r = r' :=
      ⟨fun same => congrArg View.pattern (Option.some.inj same), fun same => same ▸ rfl⟩
    rw [shown]
    exact ⟨fun same => ⟨same, fun removed => absurd removed gone⟩, And.left⟩

/-- The loggers of a process that has just been started. -/
theorem wf_of_make (made : LoggerManager.make = some m) :
    Wf m ∧ ∀ name, currentPattern m name = some defaultPattern := by
  unfold LoggerManager.make at made
  obtain ⟨⟨root, logs⟩, ran, ended⟩ := Option.bind_eq_some_iff.mp made
  obtain rfl := Option.some.inj ended
  unfold Logs.makeLogger at ran
  cases pattern : LogFormatter.new defaultPattern with
  | error abort =>
    rw [pattern] at ran
    cases ran
  | ok object =>
    simp only [pattern, if_true] at ran
    obtain ⟨rfl, rfl⟩ := Prod.ext_iff.mp (Option.some.inj ran)
    dsimp only
    refine ⟨⟨?_, fun name l there => ?_, fun l known a member => ?_⟩, fun name => ?_⟩
    · dsimp only
      rw [Function.update_self]
    · dsimp only at there
      rw [Function.update_apply] at there
      split_ifs at there with same
      obtain rfl := Option.some.inj there
      exact ⟨Nat.zero_lt_one, same.symm⟩
    · obtain rfl : l = 0 := Nat.lt_one_iff.mp known
      obtain rfl : a = 0 := List.mem_singleton.mp member
      exact Nat.zero_lt_one
    · rw [currentPattern]
      dsimp only
      rw [Function.update_apply]
      split_ifs
      · exact congrArg some (LogFormatter.pattern_of_new pattern)
      · rfl

end LoggerManager

namespace LogConfig

open LoggerManager

variable {s after : LogConfig} {v : LogDefines}

theorem setValue_spec (wf : s.manager.Wf) (ran : s.setValue v = some after) :
    after.manager.Wf ∧ after.value = v ∧
      (v ≠ s.value → LogIniter.changed s.value v s.manager = some after.manager) := by
  unfold setValue at ran
  split_ifs at ran with same
  · obtain rfl := Option.some.inj ran
    exact ⟨wf, same.symm, fun differs => absurd same differs⟩
  · obtain ⟨manager, changed, rfl⟩ := Option.map_eq_some_iff.mp ran
    exact ⟨(wf.changed changed).1, rfl, fun _ => changed⟩

/-- What the listener leaves of a logger of the new value can be told from the pattern it had before. -/
theorem view_of_changed (wf : s.manager.Wf) (changed : LogIniter.changed s.value v s.manager = some after.manager)
    {d : LogDefine} {w : View}
    (known : (Track.changed s.value v (canonical d.name)
      ⟨currentPattern s.manager (canonical d.name), none⟩).view = some w) :
    after.view d.name = some w := by
  obtain ⟨wf', simulates⟩ := wf.changed changed
  obtain ⟨l, here, -, viewed⟩ :=
    (simulates _ ⟨currentPattern s.manager (canonical d.name), none⟩ ⟨rfl, nofun⟩).view w known
  rw [LogConfig.view, wf'.find_eq, here, Option.map_some, viewed]

/-- When the loggers named in a value do not depend on what was there before: each of them gets a pattern from
the value or has the one that loggers are made with, and none of them is also a logger of the value before under
another of its names. -/
def Independent (s : LogConfig) (v : LogDefines) : Prop :=
  ∀ d ∈ v.defs,
    ((∃ e ∈ v.defs, canonical e.name = canonical d.name ∧ accepted e.formatter) ∨
      currentPattern s.manager (canonical d.name) = some Logs.defaultPattern) ∧
    ((∃ o ∈ s.value.defs, canonical o.name = canonical d.name ∧ ∀ e ∈ v.defs, e.name ≠ o.name) →
      d.level = 100 ∧ d.appenders = [])

/-- After any values, a further one leaves the loggers it names as in a process that has just been started, just
if these are independent of what was there before. -/
theorem reload {start fresh : LogConfig} {history : List LogDefines} (wf : start.manager.Wf)
    (path : machine.Path start history s) (started : LogConfig.fresh = some fresh) (differs : v ≠ s.value)
    (ran : s.setValue v = some after) :
    ∃ after', fresh.setValue v = some after' ∧ ((∀ d ∈ v.defs, after.view d.name = after'.view d.name) ↔
      Independent s v) := by
  have wf' : s.manager.Wf :=
    path.preserves (P := fun s => s.manager.Wf) (fun _ _ _ wf ran => (setValue_spec wf ran).1) wf
  have changed := (setValue_spec wf' ran).2.2 differs
  obtain ⟨manager, made, rfl⟩ := Option.map_eq_some_iff.mp started
  obtain ⟨wfFresh, patterns⟩ := wf_of_make made
  have valid : v.defs.all defineValid = true := by rw [← changed_isSome, changed]; rfl
  have kinded (d : LogDefine) (member : d ∈ v.defs) (a : LogAppenderDefine) (here : a ∈ d.appenders) :
      a.kind.isSome = true := by
    have defined := List.all_eq_true.mp valid d member
    simp only [defineValid, Bool.and_eq_true, List.all_eq_true] at defined
    exact (Bool.and_eq_true_iff.mp (defined.2 a here)).1
  by_cases empty : v = ⟨[], .nil⟩
  · subst empty
    exact ⟨_, if_pos rfl, ⟨fun _ => nofun, fun _ => nofun⟩⟩
  · obtain ⟨manager', changed'⟩ := Option.isSome_iff_exists.mp ((changed_isSome ⟨[], .nil⟩ v manager).trans valid)
    refine ⟨{ value := v, manager := manager' }, ?_, forall₂_congr fun d member => ?_⟩
    · rw [setValue, if_neg empty]
      show (LogIniter.changed ⟨[], .nil⟩ v manager).map _ = _
      rw [changed']
      rfl
    · obtain ⟨w, known⟩ := exists_view s.value member (currentPattern s.manager (canonical d.name))
      obtain ⟨w', known'⟩ := exists_view ⟨[], .nil⟩ member (currentPattern manager (canonical d.name))
      have fresh' : Track.changed ⟨[], .nil⟩ v (canonical d.name) ⟨some Logs.defaultPattern, none⟩ =
          Track.changed ⟨[], .nil⟩ v (canonical d.name) ⟨currentPattern manager (canonical d.name), none⟩ := by
        rw [patterns]
      rw [view_of_changed wf' changed known, ← known]
      have viewed' : LogConfig.view { value := v, manager := manager' } d.name = some w' :=
        view_of_changed (s := { value := ⟨[], .nil⟩, manager }) wfFresh changed' known'
      rw [viewed', ← known', ← fresh', changed_view_iff member (kinded d member)]

/-- One logger, with this pattern and one appender. -/
def systemLogger (formatter : Text) : LogDefines :=
  ⟨[{ name := "system".toList, formatter, appenders := [{ type := 2 }] }], List.pairwise_singleton ..⟩

/-- One pattern after the other. -/
theorem reload_pattern : ∃ fresh s after after' : LogConfig, LogConfig.fresh = some fresh ∧
    fresh.setValue (systemLogger "%m".toList) = some s ∧ s.setValue (systemLogger "%m%n".toList) = some after ∧
    fresh.setValue (systemLogger "%m%n".toList) = some after' ∧
      after.view "system".toList = after'.view "system".toList := by
  have ends : (LogConfig.fresh.bind fun fresh => (fresh.setValue (systemLogger "%m".toList)).bind fun s =>
      s.setValue (systemLogger "%m%n".toList)).isSome = true := by decide +kernel
  obtain ⟨after, ran⟩ := Option.isSome_iff_exists.mp ends
  obtain ⟨fresh, started, ran⟩ := Option.bind_eq_some_iff.mp ran
  obtain ⟨s, first, second⟩ := Option.bind_eq_some_iff.mp ran
  have wf : fresh.manager.Wf := by
    obtain ⟨manager, made, rfl⟩ := Option.map_eq_some_iff.mp started
    exact (wf_of_make made).1
  have value := (setValue_spec wf first).2.1
  have differs : systemLogger "%m%n".toList ≠ s.value := by
    rw [value]
    decide
  obtain ⟨after', ran', iff⟩ := reload wf (.cons first (.nil _)) started differs second
  refine ⟨fresh, s, after, after', started, first, second, ran',
    iff.mpr (fun d member => ?_) _ (List.mem_singleton_self _)⟩
  obtain rfl := List.mem_singleton.mp member
  refine ⟨.inl ⟨_, List.mem_singleton_self _, rfl, by decide +kernel⟩, ?_⟩
  rintro ⟨o, old, -, absent⟩
  rw [value] at old
  obtain rfl := List.mem_singleton.mp old
  have renamed := absent _ (List.mem_cons_self ..)
  exact absurd rfl renamed

/-- A pattern that is left out of the value stays with the logger. -/
theorem not_reload : ∃ fresh s after after' : LogConfig, LogConfig.fresh = some fresh ∧
    fresh.setValue (systemLogger "%m".toList) = some s ∧ systemLogger [] ≠ s.value ∧
    s.setValue (systemLogger []) = some after ∧ fresh.setValue (systemLogger []) = some after' ∧
    ∃ d ∈ (systemLogger []).defs, after.view d.name ≠ after'.view d.name := by
  have ends : (LogConfig.fresh.bind fun fresh => (fresh.setValue (systemLogger "%m".toList)).bind fun s =>
      (s.setValue (systemLogger [])).bind fun after => (fresh.setValue (systemLogger [])).map fun after' =>
        decide (systemLogger [] ≠ s.value ∧ after.view "system".toList ≠ after'.view "system".toList)) = some true := by
    decide +kernel
  obtain ⟨fresh, started, ran⟩ := Option.bind_eq_some_iff.mp ends
  obtain ⟨s, first, ran⟩ := Option.bind_eq_some_iff.mp ran
  obtain ⟨after, second, ran⟩ := Option.bind_eq_some_iff.mp ran
  obtain ⟨after', alone, ran⟩ := Option.map_eq_some_iff.mp ran
  obtain ⟨differs, views⟩ := of_decide_eq_true ran
  exact ⟨fresh, s, after, after', started, first, differs, second, alone, _, List.mem_singleton_self _, views⟩

end LogConfig

end Sylar
