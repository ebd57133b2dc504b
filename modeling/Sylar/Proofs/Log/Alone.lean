import Sylar.Proofs.Log.Threads

/-! # Calls that nobody interrupts

When no other thread is in a call, the steps of a call on a logger or an appender come to what the same call is as
one step on the objects.
-/

namespace Sylar.Logging

variable {τ : Type} {root : LoggerPtr} {t : τ} {s : Logging τ} {l : LoggerPtr} {a : LogAppenderPtr} {m : Logs}
  {strftime : Text → BitVec 64 → Text} {y : Yaml}

/-- The call as one of those the threads make. -/
def opOf : Logs.Action → Op
  | .makeLogger name => .makeLogger name
  | .makeAppender kind => .makeAppender kind
  | .setFormatter l val => .setFormatter l (some val)
  | .setFormatterText l val => .setFormatterText l val
  | .addAppender l a => .addAppender l a
  | .delAppender l a => .delAppender l a
  | .clearAppenders l => .clearAppenders l
  | .appenderSetFormatter a val => .appenderSetFormatter a (some val)
  | .appenderSetFormatterText a fmt => .appenderSetFormatterText a fmt

/-- What a program returns, and what it leaves of the loggers and appenders. -/
def Leaves {α : Type} (code : Code τ α) (s : Logging τ) (found : α) (m : Logs) : Prop :=
  ∃ s', code.run s = some (found, s') ∧ s'.logs = m

namespace Leaves

variable {α β : Type} {code : Code τ α} {next : α → Code τ β} {found : α} {b : β} {mid : Logs}

theorem bind (first : Leaves code s found mid) (second : ∀ s' : Logging τ, s'.logs = mid → Leaves (next found) s' b m) :
    Leaves (code.bind next) s b m := by
  obtain ⟨s', ran, same⟩ := first
  obtain ⟨s'', ran', same'⟩ := second s' same
  refine ⟨s'', ?_, same'⟩
  rw [Program.run_bind, ran]
  exact ran'

theorem locked {l : Mutex} (leaves : Leaves code s found m) : Leaves (Program.locked l code) s found m := by
  obtain ⟨s', ran, same⟩ := leaves
  exact ⟨s', by rw [Program.run_locked, ran], same⟩

theorem discard (leaves : Leaves code s found m) : Leaves (Logging.discard code) s () m :=
  leaves.bind fun s' same => ⟨s', rfl, same⟩

theorem updateLogs (f : Logs → Logs) (s : Logging τ) :
    Leaves (Program.modify (Logging.updateLogs f)) s () (f s.logs) := ⟨_, rfl, rfl⟩

end Leaves

theorem leaves_addAppender (l : LoggerPtr) (a : LogAppenderPtr) (s : Logging τ) :
    Leaves (addAppender l a) s () (s.logs.addAppender l a) := by
  have got : Leaves (appenderGetFormatter a) s (s.logs.appender a).formatter s.logs := .locked ⟨s, rfl, rfl⟩
  refine .locked (got.bind fun s' same => ?_)
  rw [← same]
  unfold Logs.addAppender
  cases had : (s'.logs.appender a).formatter with
  | none =>
    rw [if_pos rfl]
    exact .bind (.locked (.updateLogs _ s')) fun s'' same => same ▸ .updateLogs _ s''
  | some _ =>
    rw [if_neg (Option.some_ne_none _)]
    exact .bind ⟨s', rfl, rfl⟩ fun s'' same => same ▸ .updateLogs _ s''

theorem leaves_makeFormatter {pattern : Text} {object : LogFormatter} (made : LogFormatter.new pattern = .ok object)
    (s : Logging τ) : Leaves (makeFormatter pattern) s (some (s.logs.makeFormatter object).1)
      (s.logs.makeFormatter object).2 := by
  rw [makeFormatter, made]
  exact ⟨_, rfl, rfl⟩

/-- Nothing has been made if the constructor throws. -/
theorem leaves_thrown {pattern : Text} {abort : LogFormatter.Abort} (thrown : LogFormatter.new pattern = .error abort)
    (s : Logging τ) : Leaves (makeFormatter pattern) s none s.logs := by
  rw [makeFormatter, thrown]
  exact ⟨s, rfl, rfl⟩

theorem leaves_setFormatter (l : LoggerPtr) (val : LogFormatterPtr) (s : Logging τ) :
    Leaves (setFormatter l (some val)) s () (s.logs.setFormatter l (some val)) := by
  have rounds (all : List LogAppenderPtr) (s : Logging τ) (formatter : (s.logs.logger l).formatter = some val) :
      Leaves (Program.forEach (fun a => Program.locked (Mutex.appender a) (Program.modify (updateLogs fun logs =>
        Logs.inherit (logs.logger l).formatter logs a))) all) s () (all.foldl (Logs.inherit (some val)) s.logs) := by
    induction all generalizing s with
    | nil => exact ⟨s, rfl, rfl⟩
    | cons a all ih =>
      have round : Leaves (Program.modify (updateLogs fun logs => Logs.inherit (logs.logger l).formatter logs a)) s ()
          (Logs.inherit (some val) s.logs a) := formatter ▸ .updateLogs _ s
      refine .bind (.locked round) fun s' same => ?_
      rw [List.foldl_cons, ← same]
      apply ih s'
      rw [same, Logs.inherit]
      split_ifs <;> exact formatter
  refine .locked (.bind (.updateLogs _ s) fun s' same => .bind ⟨s', rfl, rfl⟩ fun s'' same' => ?_)
  have formatter : (s''.logs.logger l).formatter = some val := by
    rw [same', same, Logs.updateLogger_logger, if_pos rfl]
  have appenders : (s'.logs.logger l).appenders = (s.logs.logger l).appenders := by
    rw [same, Logs.updateLogger_logger, if_pos rfl]
  have all : s.logs.setFormatter l (some val) =
      (s'.logs.logger l).appenders.foldl (Logs.inherit (some val)) s''.logs := by
    rw [appenders, same', same, Logs.setFormatter]
  rw [all]
  exact rounds _ s'' formatter

theorem leaves_reopen (filename : Text) (a : LogAppenderPtr) (s : Logging τ) :
    ∃ isOpen, Leaves (reopen filename a) s isOpen s.logs := by
  obtain ⟨_, s', ran, same⟩ : ∃ (isOpen : Bool) (s' : Logging τ),
      (reopen filename a).run s = some (isOpen, s') ∧ s'.logs = s.logs := by
    unfold reopen
    rw [Program.run_locked]
    cases h : (s.stream a).isSome <;> simp [h] <;> rfl
  exact ⟨_, s', ran, same⟩

theorem leaves_makeAppender (kind : LogAppender.Kind) (s : Logging τ) :
    Leaves (makeAppender kind) s s.logs.appenders (s.logs.makeAppender kind).2 := by
  have made : Leaves (Program.act (fun s => { updateLogs (fun logs => (logs.makeAppender kind).2) s with
      stream := Function.update s.stream s.logs.appenders none,
      lastTime := Function.update s.lastTime s.logs.appenders 0 }) fun s => .done s.logs.appenders) s s.logs.appenders
      (s.logs.makeAppender kind).2 := ⟨_, rfl, rfl⟩
  refine made.bind fun s' same => ?_
  cases kind with
  | stdout => exact ⟨s', rfl, same⟩
  | file filename =>
    obtain ⟨_, reopened⟩ := leaves_reopen filename s.logs.appenders s'
    exact same ▸ reopened.bind fun s'' same => ⟨s'', rfl, same⟩

theorem leaves_makeLogger (name : Text) (s : Logging τ) :
    ∃ made, Leaves (makeLogger name) s made (s.logs.orSame ((s.logs.makeLogger name).map Prod.snd)) := by
  unfold Logs.makeLogger
  cases new : LogFormatter.new Logs.defaultPattern with
  | error abort => exact ⟨none, (leaves_thrown new s).bind fun s' same => ⟨s', rfl, same⟩⟩
  | ok object =>
    refine ⟨some s.logs.loggers, (leaves_makeFormatter new s).bind fun mid same => ?_⟩
    have init : Leaves (Program.act (updateLogs (Logs.initLogger name (s.logs.makeFormatter object).1)) fun s =>
        Program.done s.logs.loggers) mid mid.logs.loggers (mid.logs.initLogger name (s.logs.makeFormatter object).1) :=
      ⟨_, rfl, rfl⟩
    rw [same] at init
    refine init.bind fun mid same => ?_
    dsimp only
    split_ifs with root
    · subst root
      have adds : Leaves (do
          let a ← makeAppender .stdout
          addAppender s.logs.loggers a) mid () _ :=
        (leaves_makeAppender .stdout mid).bind fun last same => same ▸ leaves_addAppender s.logs.loggers _ last
      rw [same] at adds
      exact adds.bind fun last same => ⟨last, rfl, same⟩
    · simp only [root, decide_false]
      exact ⟨mid, rfl, same⟩

theorem leaves_setFormatterText (l : LoggerPtr) (val : Text) (s : Logging τ) :
    Leaves (setFormatterText l val) s () (s.logs.orSame (s.logs.setFormatterText l val)) := by
  unfold Logs.setFormatterText
  cases new : LogFormatter.new val with
  | error abort => exact (leaves_thrown new s).bind fun mid same => ⟨mid, rfl, same⟩
  | ok object =>
    refine (leaves_makeFormatter new s).bind fun mid same => ?_
    dsimp only [Logs.makeFormatter] at same ⊢
    rw [← same]
    split_ifs with wrong
    · exact ⟨mid, rfl, rfl⟩
    · exact leaves_setFormatter l _ mid

theorem leaves_appenderSetFormatter (a : LogAppenderPtr) (val : LogFormatterPtr) (s : Logging τ) :
    Leaves (appenderSetFormatter a (some val)) s () (s.logs.appenderSetFormatter a (some val)) :=
  .locked (.updateLogs _ s)

theorem leaves_appenderSetFormatterText (a : LogAppenderPtr) (fmt : Text) (s : Logging τ) :
    Leaves (appenderSetFormatterText a fmt) s () (s.logs.orSame (s.logs.appenderSetFormatterText a fmt)) := by
  unfold Logs.appenderSetFormatterText
  cases new : LogFormatter.new fmt with
  | error abort => exact (leaves_thrown new s).bind fun mid same => ⟨mid, rfl, same⟩
  | ok object =>
    refine (leaves_makeFormatter new s).bind fun mid same => ?_
    dsimp only [Logs.makeFormatter] at same ⊢
    rw [← same]
    split_ifs with wrong
    · exact .updateLogs _ mid
    · exact leaves_appenderSetFormatter a _ mid

/-- The call leaves what it leaves as one step on the loggers and appenders. -/
theorem leaves_body (strftime : Text → BitVec 64 → Text) (y : Yaml) (t : τ) {action : Logs.Action}
    (performed : s.logs.perform action = some m) :
    (opOf action).Exists s ∧ Leaves (body strftime y t (opOf action)) s () m := by
  have here {known : Prop} [Decidable known] {after : Logs}
      (performed : (if known then some after else none) = some m) : known ∧ after = m := by simpa using performed
  cases action with
  | makeLogger name =>
    obtain rfl := Option.some.inj performed
    obtain ⟨_, leaves⟩ := leaves_makeLogger name s
    exact ⟨trivial, leaves.discard⟩
  | makeAppender kind =>
    obtain rfl := Option.some.inj performed
    exact ⟨trivial, (leaves_makeAppender kind s).discard⟩
  | setFormatter l val =>
    obtain ⟨known, rfl⟩ := here performed
    exact ⟨known, leaves_setFormatter l val s⟩
  | setFormatterText l val =>
    obtain ⟨known, rfl⟩ := here performed
    exact ⟨known, leaves_setFormatterText l val s⟩
  | addAppender l a =>
    obtain ⟨known, rfl⟩ := here performed
    exact ⟨known, leaves_addAppender l a s⟩
  | delAppender l a =>
    obtain ⟨known, rfl⟩ := here performed
    exact ⟨known, .locked (.updateLogs _ s)⟩
  | clearAppenders l =>
    obtain ⟨known, rfl⟩ := here performed
    exact ⟨known, .locked (.updateLogs _ s)⟩
  | appenderSetFormatter a val =>
    obtain ⟨made, rfl⟩ := here performed
    exact ⟨made, leaves_appenderSetFormatter a val s⟩
  | appenderSetFormatterText a fmt =>
    obtain ⟨made, rfl⟩ := here performed
    exact ⟨made, leaves_appenderSetFormatterText a fmt s⟩

/-! ## Runs -/

variable [DecidableEq τ] {c c' : Threads τ Mutex (Logging τ)}

/-- No thread is in a call. -/
def Idle (c : Threads τ Mutex (Logging τ)) : Prop := ∀ t, c.program t = .done ()

/-- A call that is let run alone. -/
theorem exists_alone {action : Logs.Action} (reached : (machine Op.given strftime y).Reachable c) (idle : Idle c)
    (performed : c.shared.logs.perform action = some m) (t : τ) :
    ∃ n c', (machine Op.given strftime y).Path c (.call t (opOf action) :: List.replicate n (.step t)) c' ∧ Idle c' ∧
      c'.shared.logs = m := by
  have sound := sound_of_reachable given_of_given reached
  obtain ⟨exists_, s', ran, same⟩ := leaves_body strftime y t performed
  have free (l : Mutex) : c.owner l = none := by
    by_contra owned
    obtain ⟨t, owner⟩ := Option.ne_none_iff_exists'.mp owned
    obtain ⟨held, -, owns, safe⟩ := sound.safe t
    rw [idle t] at safe
    obtain ⟨rfl, -⟩ := safe.now
    cases (owns l).mp owner
  let called : Threads τ Mutex (Logging τ) :=
    { c with program := Function.update c.program t (body strftime y t (opOf action)) }
  have given : (opOf action).given := by cases action <;> rfl
  have finishes : Discipline.Finishes Fresh (body strftime y) (fun op s => op.Exists s ∧ op.given) _ t s' called :=
    Discipline.finishes (Function.update_self t _ c.program)
      (fun l => (free l).trans (if_neg List.not_mem_nil).symm) List.nodup_nil
      (body_safe t (opOf action) _ sound.inv exists_ given False.elim).now ran
  obtain ⟨n, c', locks, path, programs, rfl, ⟨rfl, -⟩, -⟩ := finishes
  refine ⟨n, c', .cons ⟨⟨exists_, given⟩, Threads.call_iff.mpr ⟨idle t, rfl⟩⟩ path, fun other => ?_, same⟩
  rw [programs, Function.update_idem, Function.update_apply]
  split_ifs
  · rfl
  · exact idle other

/-- Whatever calls on loggers and appenders are made one after the other as single steps, the threads can make them one
after the other, each by any thread, and the loggers and appenders are the same after them. -/
theorem calls_alone (strftime : Text → BitVec 64 → Text) (y : Yaml)
    (reached : (machine Op.given strftime y).Reachable c) (idle : Idle c) (calls : List (τ × Logs.Action))
    (path : Logs.machine.Path c.shared.logs (calls.map Prod.snd) m) :
    ∃ events c', (machine Op.given strftime y).Path c events c' ∧ Idle c' ∧ c'.shared.logs = m ∧
      events.filterMap Threads.Event.called = calls.map fun call => (call.1, opOf call.2) := by
  induction calls generalizing c with
  | nil =>
    obtain rfl := Machine.Path.nil_iff.mp path
    exact ⟨[], c, .nil c, idle, rfl, rfl⟩
  | cons call calls ih =>
    obtain ⟨mid, performed, path⟩ := Machine.Path.cons_iff.mp path
    obtain ⟨n, c', alone, idle, rfl⟩ := exists_alone reached idle performed call.1
    obtain ⟨events, last, rest, idle, same, called⟩ := ih (reached.path alone) idle path
    refine ⟨_, last, alone.append rest, idle, same, ?_⟩
    have steps : (List.replicate n (Threads.Event.step call.1)).filterMap (Threads.Event.called (ω := Op)) = [] := by
      simp [Threads.Event.called]
    have first : Threads.Event.called (.call call.1 (opOf call.2)) = some (call.1, opOf call.2) := rfl
    rw [List.cons_append, List.filterMap_cons_some first, List.filterMap_append, steps, called]
    rfl

/-- One thread makes an appender, and another one gives it to the root. -/
theorem calls_alone_two : ∃ (initial c : Threads (Fin 2) Mutex (Logging (Fin 2)))
    (events : List (Threads.Event (Fin 2) Op)),
    (machine Op.given plain.1 plain.2).Init initial ∧ (machine Op.given plain.1 plain.2).Path initial events c ∧
    Idle c ∧
      (c.shared.logs.logger 0).appenders = [0, 1] ∧
      events.filterMap Threads.Event.called = [(0, .makeAppender .stdout), (1, .addAppender 0 1)] := by
  have shown : LoggerManager.make.map (fun manager => decide (manager.logs.loggers = 1) &&
      (decide (manager.logs.appenders = 1) && decide ((manager.logs.logger 0).appenders = [0]))) = some true := by
    decide +kernel
  obtain ⟨manager, made, shown⟩ := Option.map_eq_some_iff.mp shown
  simp only [Bool.and_eq_true, decide_eq_true_eq] at shown
  obtain ⟨loggers, appenders, old⟩ := shown
  let initial : Threads (Fin 2) Mutex (Logging (Fin 2)) := { shared := { manager, names := ["root".toList] } }
  have init : (machine Op.given plain.1 plain.2).Init initial := ⟨⟨manager, made, rfl⟩, fun _ => rfl, fun _ => rfl⟩
  have known : 0 < (manager.logs.makeAppender .stdout).2.loggers ∧
      1 < (manager.logs.makeAppender .stdout).2.appenders := by
    constructor
    · exact loggers ▸ Nat.zero_lt_one
    · exact appenders ▸ Nat.lt_succ_self 1
  have path : Logs.machine.Path manager.logs [.makeAppender .stdout, .addAppender 0 1]
      ((manager.logs.makeAppender .stdout).2.addAppender 0 1) :=
    .cons rfl (.cons (if_pos known) (.nil _))
  obtain ⟨events, c, ran, idle, same, called⟩ := calls_alone plain.1 plain.2 (Machine.Reachable.init init)
    (fun _ => rfl) [(0, .makeAppender .stdout), (1, .addAppender 0 1)] path
  refine ⟨initial, c, events, init, ran, idle, ?_, called⟩
  rw [same, Logs.addAppender_logger, if_pos rfl]
  exact congrArg (· ++ [1]) old

end Sylar.Logging
