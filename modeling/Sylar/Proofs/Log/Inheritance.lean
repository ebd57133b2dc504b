import Sylar.Proofs.Log.Updates

/-! # Which formatter an appender uses

An appender without a formatter of its own uses that of its logger. A call can break this in two ways: an
appender is attached that still has the formatter of a logger it was attached to earlier, or a pattern is
refused for an appender that has a formatter of its own.
-/

namespace Sylar.Logs

variable {m after : Logs} {action : Action} {a b : LogAppenderPtr} {l k : LoggerPtr}

/-! ## The invariant -/

/-- A pattern that makes a formatter with an error. -/
def Refused (fmt : Text) : Prop := ∃ object, LogFormatter.new fmt = .ok object ∧ object.isError = true

/-- An appender is attached to one logger at a time. -/
def Apart (m : Logs) : Action → Prop
  | .addAppender l a => ∀ k < m.loggers, k ≠ l → a ∉ (m.logger k).appenders
  | _ => True

/-- What is attached has a formatter of its own, none, or the logger's; and a pattern that is refused is not
meant for an appender with a formatter of its own. -/
def Keeps (m : Logs) : Action → Prop
  | .addAppender l a => (m.appender a).hasFormatter = true ∨ (m.appender a).formatter = none ∨
      (m.appender a).formatter = (m.logger l).formatter
  | .appenderSetFormatterText a fmt => Refused fmt → (m.appender a).hasFormatter = false
  | _ => True

instance (fmt : Text) : Decidable (Refused fmt) :=
  match made : LogFormatter.new fmt with
  | .error _ => .isFalse fun ⟨_, same, _⟩ => nomatch made.symm.trans same
  | .ok object => decidable_of_iff (object.isError = true)
      ⟨fun error => ⟨object, made, error⟩, fun ⟨_, same, error⟩ => Except.ok.inj (made.symm.trans same) ▸ error⟩

instance (m : Logs) (action : Action) : Decidable (Apart m action) :=
  match action with
  | .addAppender l a => inferInstanceAs (Decidable (∀ k < m.loggers, k ≠ l → a ∉ (m.logger k).appenders))
  | .makeLogger _ | .makeAppender _ | .setFormatter _ _ | .setFormatterText _ _ | .delAppender _ _
  | .clearAppenders _ | .appenderSetFormatter _ _ | .appenderSetFormatterText _ _ => .isTrue trivial

instance (m : Logs) (action : Action) : Decidable (Keeps m action) :=
  match action with
  | .addAppender l a => inferInstanceAs (Decidable ((m.appender a).hasFormatter = true ∨
      (m.appender a).formatter = none ∨ (m.appender a).formatter = (m.logger l).formatter))
  | .appenderSetFormatterText a fmt => inferInstanceAs (Decidable (Refused fmt → (m.appender a).hasFormatter = false))
  | .makeLogger _ | .makeAppender _ | .setFormatter _ _ | .setFormatterText _ _ | .delAppender _ _
  | .clearAppenders _ | .appenderSetFormatter _ _ => .isTrue trivial

/-- Every attached appender has a formatter, its own or its logger's. -/
structure Inherits (m : Logs) : Prop where
  present : ∀ l < m.loggers, ∀ a ∈ (m.logger l).appenders, (m.appender a).formatter ≠ none
  inherits : ∀ l < m.loggers, ∀ a ∈ (m.logger l).appenders, (m.appender a).hasFormatter = false →
    (m.appender a).formatter = (m.logger l).formatter

structure Sound (m : Logs) : Prop where
  formatted : ∀ l < m.loggers, (m.logger l).formatter ≠ none
  owned : ∀ a, (m.appender a).hasFormatter = true → (m.appender a).formatter ≠ none
  made : ∀ l < m.loggers, ∀ a ∈ (m.logger l).appenders, a < m.appenders
  apart : ∀ l < m.loggers, ∀ k < m.loggers, ∀ a ∈ (m.logger l).appenders, a ∈ (m.logger k).appenders → l = k
  inherits : ∀ l < m.loggers, ∀ a ∈ (m.logger l).appenders, (m.appender a).hasFormatter = false →
    (m.appender a).formatter = (m.logger l).formatter

theorem Sound.inherits_all (sound : Sound m) : Inherits m where
  present l known a member := by
    cases own : (m.appender a).hasFormatter with
    | true => exact sound.owned a own
    | false => exact sound.inherits l known a member own ▸ sound.formatted l known
  inherits := sound.inherits

theorem Sound.empty : Sound {} := ⟨nofun, nofun, nofun, nofun, nofun⟩

/-- A call that attaches nothing. -/
theorem Sound.of_subset (sound : Sound m) (loggers : after.loggers = m.loggers)
    (appenders : after.appenders = m.appenders)
    (subset : ∀ k, (after.logger k).appenders ⊆ (m.logger k).appenders)
    (formatted : ∀ k < m.loggers, (after.logger k).formatter ≠ none)
    (owned : ∀ a, (after.appender a).hasFormatter = true → (after.appender a).formatter ≠ none)
    (inherits : ∀ k < m.loggers, ∀ a ∈ (m.logger k).appenders, (after.appender a).hasFormatter = false →
      (after.appender a).formatter = (after.logger k).formatter) : Sound after where
  formatted k known := formatted k (loggers ▸ known)
  owned := owned
  made k known a member := appenders ▸ sound.made k (loggers ▸ known) a (subset k member)
  apart k known k' known' a member member' :=
    sound.apart k (loggers ▸ known) k' (loggers ▸ known') a (subset k member) (subset k' member')
  inherits k known a member := inherits k (loggers ▸ known) a (subset k member)

theorem Sound.setFormatter (sound : Sound m) (known : l < m.loggers) (val : LogFormatterPtr) :
    Sound (m.setFormatter l (some val)) := by
  refine sound.of_subset (by simp) (by simp) (fun k => ?_) (fun k known => ?_) (fun a own => ?_)
    fun k known' a member lacks => ?_
  · rw [setFormatter_logger]
    split_ifs with same
    · subst same
      exact List.Subset.refl _
    · exact List.Subset.refl _
  · rw [setFormatter_logger]
    split_ifs
    · nofun
    · exact sound.formatted k known
  · rw [setFormatter_appender] at own ⊢
    split_ifs at own ⊢
    · nofun
    · exact sound.owned a own
  · rw [setFormatter_appender] at lacks ⊢
    rw [setFormatter_logger]
    by_cases same : k = l
    · subst same
      rw [if_pos rfl]
      split_ifs at lacks ⊢ with pushed
      · rfl
      · exact absurd ⟨member, lacks⟩ pushed
    · rw [if_neg same]
      have elsewhere : a ∉ (m.logger l).appenders := fun here => same (sound.apart k known' l known a member here)
      rw [if_neg fun both => elsewhere both.1] at lacks ⊢
      exact sound.inherits k known' a member lacks

/-- What is attached is made, attached nowhere else and has a formatter that it may keep. -/
theorem Sound.addAppender (sound : Sound m) (known : l < m.loggers) (made : a < m.appenders)
    (apart : ∀ k < m.loggers, k ≠ l → a ∉ (m.logger k).appenders)
    (keeps : (m.appender a).hasFormatter = true ∨ (m.appender a).formatter = none ∨
      (m.appender a).formatter = (m.logger l).formatter) : Sound (m.addAppender l a) := by
  have members (k : LoggerPtr) (b : LogAppenderPtr) (member : b ∈ ((m.addAppender l a).logger k).appenders) :
      b ∈ (m.logger k).appenders ∨ k = l ∧ b = a := by
    rw [addAppender_logger] at member
    split_ifs at member with same
    · subst same
      exact (List.mem_append.mp member).imp_right fun last => ⟨rfl, List.mem_singleton.mp last⟩
    · exact .inl member
  have formatters (k : LoggerPtr) : ((m.addAppender l a).logger k).formatter = (m.logger k).formatter := by
    rw [addAppender_logger]
    split_ifs with same
    · rw [same]
    · rfl
  refine ⟨fun k known' => ?_, fun b own => ?_, fun k known' b member => ?_,
    fun k known' k' known'' b member member' => ?_,
    fun k known' b member lacks => ?_⟩
  · rw [formatters]
    exact sound.formatted k (by simpa using known')
  · rw [addAppender_appender] at own ⊢
    split_ifs at own ⊢ with given
    · exact sound.formatted l known
    · exact sound.owned b own
  · rw [addAppender_appenders]
    rcases members k b member with old | ⟨-, rfl⟩
    · exact sound.made k (by simpa using known') b old
    · exact made
  · rw [addAppender_loggers] at known' known''
    rcases members k b member with old | ⟨rfl, rfl⟩ <;> rcases members k' b member' with old' | ⟨rfl, same⟩
    · exact sound.apart k known' k' known'' b old old'
    · subst same
      by_contra ne
      exact apart k known' ne old
    · by_contra ne
      exact apart k' known'' (Ne.symm ne) old'
    · rfl
  · rw [addAppender_loggers] at known'
    rw [formatters]
    rw [addAppender_appender] at lacks ⊢
    rcases members k b member with old | ⟨rfl, rfl⟩
    · split_ifs at lacks ⊢ with given
      · obtain ⟨rfl, -⟩ := given
        by_cases same : k = l
        · rw [same]
        · exact absurd old (apart k known' same)
      · exact sound.inherits k known' b old lacks
    · split_ifs at lacks ⊢ with given
      · rfl
      · rcases keeps with own | missing | same
        · rw [own] at lacks
          cases lacks
        · exact absurd ⟨rfl, missing⟩ given
        · exact same

theorem Sound.updateLogger_appenders (sound : Sound m) (f : List LogAppenderPtr → List LogAppenderPtr)
    (subset : ∀ as, f as ⊆ as) :
    Sound (m.updateLogger l fun logger => { logger with appenders := f logger.appenders }) := by
  have formatters (k : LoggerPtr) :
      ((m.updateLogger l fun logger => { logger with appenders := f logger.appenders }).logger k).formatter =
        (m.logger k).formatter := by
    rw [updateLogger_logger]
    split_ifs with same
    · rw [same]
    · rfl
  refine sound.of_subset rfl rfl (fun k => ?_) (fun k known => ?_) sound.owned fun k known a member lacks => ?_
  · rw [updateLogger_logger]
    split_ifs with same
    · subst same
      exact subset _
    · exact List.Subset.refl _
  · rw [formatters]
    exact sound.formatted k known
  · rw [formatters]
    exact sound.inherits k known a member lacks

theorem Sound.delAppender (sound : Sound m) : Sound (m.delAppender l a) :=
  sound.updateLogger_appenders (fun as => as.erase a) fun _ => List.erase_subset

theorem Sound.clearAppenders (sound : Sound m) : Sound (m.clearAppenders l) :=
  sound.updateLogger_appenders (fun _ => []) fun _ => List.nil_subset _

/-- An appender that gets a formatter of its own, or that is told to have none it has not had. -/
theorem Sound.updateAppender (sound : Sound m) {f : LogAppender → LogAppender}
    (owned : (f (m.appender a)).hasFormatter = true → (f (m.appender a)).formatter ≠ none)
    (lacks : (f (m.appender a)).hasFormatter = false →
      (m.appender a).hasFormatter = false ∧ (f (m.appender a)).formatter = (m.appender a).formatter) :
    Sound (m.updateAppender a f) := by
  refine sound.of_subset rfl rfl (fun k => List.Subset.refl _) sound.formatted (fun b own => ?_)
    fun k known b member lacks' => ?_
  · rw [updateAppender_appender] at own ⊢
    split_ifs at own ⊢
    · exact owned own
    · exact sound.owned b own
  · rw [updateAppender_appender] at lacks' ⊢
    split_ifs at lacks' ⊢ with same
    · subst same
      obtain ⟨lacked, same⟩ := lacks lacks'
      exact same.trans (sound.inherits k known b member lacked)
    · exact sound.inherits k known b member lacks'

theorem Sound.makeFormatter (sound : Sound m) (object : LogFormatter) : Sound (m.makeFormatter object).2 :=
  ⟨sound.formatted, sound.owned, sound.made, sound.apart, sound.inherits⟩

theorem Sound.setFormatterText (sound : Sound m) (known : l < m.loggers) (val : Text) :
    Sound (m.orSame (m.setFormatterText l val)) := by
  unfold Logs.setFormatterText
  cases LogFormatter.new val with
  | error abort => exact sound
  | ok object =>
    dsimp only
    split_ifs
    · exact sound.makeFormatter object
    · exact (sound.makeFormatter object).setFormatter known _

theorem Sound.appenderSetFormatter (sound : Sound m) (val : LogFormatterPtr) :
    Sound (m.appenderSetFormatter a (some val)) :=
  sound.updateAppender (fun _ => nofun) nofun

theorem Sound.appenderSetFormatterText (sound : Sound m) {fmt : Text}
    (keeps : Refused fmt → (m.appender a).hasFormatter = false) :
    Sound (m.orSame (m.appenderSetFormatterText a fmt)) := by
  unfold Logs.appenderSetFormatterText
  cases made : LogFormatter.new fmt with
  | error abort => exact sound
  | ok object =>
    dsimp only
    split_ifs with refused
    · have lacked : ((m.makeFormatter object).2.appender a).hasFormatter = false := keeps ⟨object, made, refused⟩
      exact (sound.makeFormatter object).updateAppender (f := fun appender => { appender with hasFormatter := false })
        nofun fun _ => ⟨lacked, rfl⟩
    · exact (sound.makeFormatter object).appenderSetFormatter _

theorem Sound.makeAppender (sound : Sound m) (kind : LogAppender.Kind) : Sound (m.makeAppender kind).2 := by
  refine ⟨sound.formatted, fun b own => ?_, fun k known b member => ?_, sound.apart, fun k known b member lacks => ?_⟩
  · rw [makeAppender_appender] at own ⊢
    split_ifs at own ⊢
    exact sound.owned b own
  · exact Nat.lt_succ_of_lt (sound.made k known b member)
  · rw [makeAppender_appender, if_neg (Nat.ne_of_lt (sound.made k known b member))] at lacks ⊢
    exact sound.inherits k known b member lacks

theorem Sound.initLogger (sound : Sound m) (name : Text) (formatter : LogFormatterPtr) :
    Sound (m.initLogger name formatter) := by
  refine ⟨fun k known => ?_, sound.owned, fun k known b member => ?_, fun k known k' known' b member member' => ?_,
    fun k known b member lacks => ?_⟩
  · rw [initLogger_logger]
    split_ifs with new
    · nofun
    · exact sound.formatted k (lt_of_initLogger known new)
  · rw [initLogger_logger] at member
    split_ifs at member with new
    · cases member
    · exact sound.made k (lt_of_initLogger known new) b member
  · rw [initLogger_logger] at member member'
    by_cases new : k = m.loggers
    · rw [if_pos new] at member
      cases member
    · by_cases new' : k' = m.loggers
      · rw [if_pos new'] at member'
        cases member'
      · rw [if_neg new] at member
        rw [if_neg new'] at member'
        exact sound.apart k (lt_of_initLogger known new) k' (lt_of_initLogger known' new') b member member'
  · rw [initLogger_logger] at member ⊢
    split_ifs at member ⊢ with new
    · cases member
    · exact sound.inherits k (lt_of_initLogger known new) b member lacks

theorem Sound.makeLogger (sound : Sound m) (name : Text) : Sound (m.orSame ((m.makeLogger name).map Prod.snd)) := by
  unfold Logs.makeLogger
  cases LogFormatter.new defaultPattern with
  | error abort => exact sound
  | ok object =>
    have started := (sound.makeFormatter object).initLogger name (m.makeFormatter object).1
    dsimp only [Except.map, orSame]
    split_ifs
    · refine (started.makeAppender .stdout).addAppender (Nat.lt_succ_self _) (Nat.lt_succ_self _)
        (fun k known _ member => ?_) ?_
      · exact Nat.lt_irrefl _ (started.made k known _ member)
      · exact .inr (.inl (by rw [makeAppender_appender]; exact congrArg LogAppender.formatter (if_pos rfl)))
    · exact started

/-! ## Runs -/

theorem Sound.step (sound : Sound m) (step : machine.Step m action after) (apart : Apart m action)
    (keeps : Keeps m action) : Sound after := by
  have ran : m.perform action = some after := step
  cases action with
  | makeLogger name =>
    cases ran
    exact sound.makeLogger name
  | makeAppender kind =>
    cases ran
    exact sound.makeAppender kind
  | setFormatter l val =>
    simp only [perform] at ran
    split_ifs at ran with known
    cases ran
    exact sound.setFormatter known val
  | setFormatterText l val =>
    simp only [perform] at ran
    split_ifs at ran with known
    cases ran
    exact sound.setFormatterText known val
  | addAppender l a =>
    simp only [perform] at ran
    split_ifs at ran with known
    cases ran
    exact sound.addAppender known.1 known.2 apart keeps
  | delAppender l a =>
    simp only [perform] at ran
    split_ifs at ran with known
    cases ran
    exact sound.delAppender
  | clearAppenders l =>
    simp only [perform] at ran
    split_ifs at ran with known
    cases ran
    exact sound.clearAppenders
  | appenderSetFormatter a val =>
    simp only [perform] at ran
    split_ifs at ran with known
    cases ran
    exact sound.appenderSetFormatter val
  | appenderSetFormatterText a fmt =>
    simp only [perform] at ran
    split_ifs at ran with known
    cases ran
    exact sound.appenderSetFormatterText keeps

/-- A pattern that is refused leaves every logger and appender as it was. -/
def RefusalKeeps (m after : Logs) : Action → Prop
  | .setFormatterText _ fmt | .appenderSetFormatterText _ fmt =>
      Refused fmt → after.logger = m.logger ∧ after.appender = m.appender
  | _ => True

/-- What `LogAppender::setFormatter` does with a pattern that is refused. -/
theorem eq_of_refused {fmt : Text} (step : machine.Step m (.appenderSetFormatterText a fmt) after)
    (refused : Refused fmt) :
    after = { m with formatters := m.formatters + 1 }.updateAppender a
      fun appender => { appender with hasFormatter := false } := by
  have ran : m.perform (.appenderSetFormatterText a fmt) = some after := step
  obtain ⟨object, made, error⟩ := refused
  simp only [perform, appenderSetFormatterText, made, error, if_true] at ran
  split_ifs at ran
  exact (Option.some.inj ran).symm

theorem refusalKeeps_of_keeps (step : machine.Step m action after) (keeps : Keeps m action) :
    RefusalKeeps m after action := by
  have ran : m.perform action = some after := step
  cases action with
  | setFormatterText l val =>
    rintro ⟨object, made, refused⟩
    simp only [perform, setFormatterText, made, refused, if_true] at ran
    split_ifs at ran
    cases ran
    exact ⟨rfl, rfl⟩
  | appenderSetFormatterText a fmt =>
    intro refused
    have lacked := keeps refused
    obtain rfl := eq_of_refused step refused
    refine ⟨rfl, funext fun b => (updateAppender_appender ..).trans ?_⟩
    split_ifs with same
    · subst same
      exact congrArg (fun own => { m.appender b with hasFormatter := own }) lacked.symm
    · rfl
  | _ => trivial

/-- A call outside the condition breaks what it is to keep at once. -/
theorem keeps_of_inherits (step : machine.Step m action after) (refusal : RefusalKeeps m after action)
    (inherits : Inherits after) : Keeps m action := by
  have ran : m.perform action = some after := step
  cases action with
  | addAppender l a =>
    simp only [perform] at ran
    split_ifs at ran with known
    cases ran
    have member : a ∈ ((m.addAppender l a).logger l).appenders := by
      rw [addAppender_logger, if_pos rfl]
      exact List.mem_append_right _ (List.mem_singleton_self a)
    have same := inherits.inherits l (by simpa using known.1) a member
    rw [addAppender_logger, if_pos rfl, addAppender_appender] at same
    rcases Bool.eq_false_or_eq_true (m.appender a).hasFormatter with own | lacks
    · exact .inl own
    · by_cases missing : (m.appender a).formatter = none
      · exact .inr (.inl missing)
      · rw [if_neg fun both => missing both.2] at same
        exact .inr (.inr (same lacks))
  | appenderSetFormatterText a fmt =>
    intro refused
    have unchanged := (refusal refused).2
    obtain rfl := eq_of_refused step refused
    have here := congrArg LogAppender.hasFormatter (congrFun unchanged a)
    rw [updateAppender_appender, if_pos rfl] at here
    exact here.symm
  | _ => trivial

/-- After calls that keep to the condition every attached appender has a formatter, its own or its logger's, and
a further call keeps this and what it is refused for just if it keeps to the condition. -/
theorem inheritance (reached : (machine.restrict fun m action => Apart m action ∧ Keeps m action).Reachable m) :
    Inherits m ∧ ∀ action after, machine.Step m action after → Apart m action →
      (RefusalKeeps m after action ∧ Inherits after ↔ Keeps m action) := by
  have sound : Sound m := by
    refine reached.invariant (fun s start => ?_) fun s action t sound step => ?_
    · obtain rfl : s = {} := start
      exact .empty
    · exact sound.step step.2 step.1.1 step.1.2
  refine ⟨sound.inherits_all, fun action after step apart => ⟨fun both => ?_, fun keeps => ⟨?_, ?_⟩⟩⟩
  · exact keeps_of_inherits step both.1 both.2
  · exact refusalKeeps_of_keeps step keeps
  · exact (sound.step step apart keeps).inherits_all

/-- An appender follows its logger from one pattern to the next, and is left alone by one that is refused. -/
theorem inheritance_follows : ∃ m : Logs,
    (machine.restrict fun m action => Apart m action ∧ Keeps m action).Path {}
      [.makeLogger "system".toList, .makeAppender .stdout, .addAppender 0 0, .setFormatterText 0 "%m%n".toList,
        .appenderSetFormatterText 0 "%".toList] m ∧
      ((m.appender 0).formatter.map fun f => f.object.pattern) = some "%m%n".toList ∧ Inherits m := by
  have ran : ([.makeLogger "system".toList, .makeAppender .stdout, .addAppender 0 0,
      .setFormatterText 0 "%m%n".toList, .appenderSetFormatterText 0 "%".toList].foldlM
        (fun m action => if Apart m action ∧ Keeps m action then perform m action else none) {}).map
      (fun m : Logs => (m.appender 0).formatter.map fun f => f.object.pattern) = some (some "%m%n".toList) := by
    decide +kernel
  obtain ⟨m, path, shown⟩ := Machine.Path.exists_ofNext (· = {}) ran
  rw [← Machine.restrict_ofNext] at path
  exact ⟨m, path, shown, (inheritance ⟨_, _, rfl, path⟩).1⟩

/-- An appender that is moved from one logger to another keeps the formatter of the first, and one that has a
formatter of its own does not any more once a pattern has been refused. -/
theorem not_inheritance :
    (∃ m : Logs, (machine.restrict Apart).Path {}
      [.makeLogger "system".toList, .makeLogger "http".toList, .makeAppender .stdout, .addAppender 0 0,
        .delAppender 0 0, .addAppender 1 0] m ∧ ¬Inherits m) ∧
    ∃ m after : Logs, (machine.restrict Apart).Path {}
      [.makeAppender .stdout, .appenderSetFormatterText 0 "%m%n".toList] m ∧
        machine.Step m (.appenderSetFormatterText 0 "%".toList) after ∧
        ¬RefusalKeeps m after (.appenderSetFormatterText 0 "%".toList) := by
  constructor
  · have ran : ([.makeLogger "system".toList, .makeLogger "http".toList, .makeAppender .stdout, .addAppender 0 0,
        .delAppender 0 0, .addAppender 1 0].foldlM
          (fun m action => if Apart m action then perform m action else none) {}).map
        (fun m : Logs => decide (1 < m.loggers ∧ 0 ∈ (m.logger 1).appenders ∧ (m.appender 0).hasFormatter = false ∧
          (m.appender 0).formatter ≠ (m.logger 1).formatter)) = some true := by
      decide +kernel
    obtain ⟨m, path, shown⟩ := Machine.Path.exists_ofNext (· = {}) ran
    obtain ⟨known, member, lacks, stale⟩ := of_decide_eq_true shown
    rw [← Machine.restrict_ofNext] at path
    exact ⟨m, path, fun inherits => stale (inherits.inherits 1 known 0 member lacks)⟩
  · have ran : ([.makeAppender .stdout, .appenderSetFormatterText 0 "%m%n".toList].foldlM
        (fun m action => if Apart m action then perform m action else none) {}).map
        (fun m : Logs => decide (0 < m.appenders ∧ (m.appender 0).hasFormatter = true)) = some true := by
      decide +kernel
    obtain ⟨m, path, shown⟩ := Machine.Path.exists_ofNext (· = {}) ran
    obtain ⟨known, own⟩ := of_decide_eq_true shown
    rw [← Machine.restrict_ofNext] at path
    have step : machine.Step m (.appenderSetFormatterText 0 "%".toList) _ := if_pos known
    have refused : Refused "%".toList := by decide +kernel
    refine ⟨m, _, path, step, fun keeps => ?_⟩
    have unchanged := congrArg LogAppender.hasFormatter (congrFun (keeps refused).2 0)
    rw [eq_of_refused step refused, updateAppender_appender, if_pos rfl, own] at unchanged
    cases unchanged

end Sylar.Logs
