import Sylar.Proofs.Log.Delivery
import Sylar.Proofs.Log.Reload

/-! # Runs of the threads that log

Every call that sets no null formatter keeps to the discipline, so no run of such calls comes to a null formatter or to
a deadlock, every call of `log` leaves the records it should, and as long as the clock is not turned back no line goes
to a file that had been moved away before the second of the line.
-/

namespace Sylar.Logging

variable {forward : Prop} {τ : Type} {root : LoggerPtr} {t : τ} {s : Logging τ}
  {strftime : Text → BitVec 64 → Text} {y : Yaml}

theorem Fresh.sound (fresh : Fresh s) : Sound forward 0 s := by
  obtain ⟨manager, made, rfl⟩ := fresh
  unfold LoggerManager.make at made
  obtain ⟨⟨root, logs⟩, ran, ended⟩ := Option.bind_eq_some_iff.mp made
  obtain rfl := Option.some.inj ended
  unfold Logs.makeLogger at ran
  cases pattern : LogFormatter.new Logs.defaultPattern with
  | error abort =>
    rw [pattern] at ran
    cases ran
  | ok object =>
    simp only [pattern, if_true] at ran
    obtain ⟨rfl, rfl⟩ := Prod.ext_iff.mp (Option.some.inj ran)
    refine
      { root_eq := rfl
        root_made := Nat.zero_lt_one
        found := fun name l found => ?_
        fallback := by rintro l k ⟨⟩
        ready := ⟨fun l known => ?_, fun l a member => ?_⟩
        disk := ⟨by rintro _ _ ⟨⟩, by rintro _ _ _ ⟨⟩, by rintro _ _ ⟨⟩⟩
        lastTime := fun _ _ => Nat.le_refl _
        dated := fun _ _ _ _ _ _ => Nat.zero_le _
        records := by rintro _ _ ⟨⟩ }
    · dsimp only at found
      rw [Function.update_apply] at found
      split_ifs at found
      obtain rfl := Option.some.inj found
      exact Nat.zero_lt_one
    · obtain rfl : l = 0 := Nat.lt_one_iff.mp known
      exact Option.some_ne_none _
    · dsimp only [logs] at member ⊢
      rw [Logs.addAppender_logger] at member
      split_ifs at member
      · obtain rfl := List.mem_singleton.mp member
        exact ⟨Nat.zero_lt_one, Option.some_ne_none _⟩
      · next other =>
        have none_ : a ∈ ((Logs.initLogger "root".toList ⟨0, object⟩ {}).logger l).appenders := member
        rw [Logs.initLogger_logger, if_neg other] at none_
        cases none_

/-- Each call is safe where the loggers and the appenders it is about have been made. -/
theorem body_safe [DecidableEq τ] (t : τ) (op : Op) (s : Logging τ) (sound : Sound forward root s)
    (exists_ : op.Exists s) (given : op.given) (steady : forward → op.steady) :
    (discipline forward τ root).Safe t [] (body strftime y t op)
      (fun locks _ s => locks = [] ∧ Sound forward root s ∧ True) s := by
  have known (l : LoggerPtr) := (steady_known (τ := τ) forward root l).stable t []
  have made (a : LogAppenderPtr) := (steady_made (τ := τ) forward root a).stable t []
  have quiet {α : Type} {code : Code τ α} {Q : α → Logging τ → Prop}
      (triple : (discipline forward τ root).Triple t [] (fun _ => True) code Q) :
      (discipline forward τ root).Safe t [] (discard code)
        (fun locks _ s => locks = [] ∧ Sound forward root s ∧ True) s :=
    (Discipline.Triple.bind triple fun _ => .done fun _ _ _ => trivial).safe .true sound trivial
  cases op with
  | log l level event =>
    exact (log_triple.post fun _ _ _ _ => trivial).safe stable_before sound ⟨exists_, rfl⟩
  | logLevel l level event =>
    exact (logLevel_triple.post fun _ _ _ _ => trivial).safe stable_before sound ⟨exists_, rfl⟩
  | makeLogger name => exact quiet (makeLogger_triple (by simp) name)
  | getLogger name => exact quiet (getLogger_triple name)
  | setLevel l level =>
    exact (updateLogger_triple (g := fun logger => { logger with level }) (P := fun _ => True) (fun _ => id)
      (fun _ => List.Subset.refl _) (.inr fun _ => rfl)).safe .true sound trivial
  | setFormatter l val =>
    exact (setFormatter_triple (Option.isSome_iff_ne_none.mp given)).safe (known l) sound exists_
  | setFormatterText l val => exact (setFormatterText_triple val).safe (known l) sound exists_
  | addAppender l a => exact (addAppender_triple (by simp)).safe ((known l).and (made a)) sound exists_
  | delAppender l a => exact delAppender_triple.safe .true sound trivial
  | clearAppenders l => exact clearAppenders_triple.safe .true sound trivial
  | makeAppender kind => exact quiet (makeAppender_triple (by simp) kind)
  | appenderSetLevel a level =>
    exact (updateAppender_triple (f := fun appender => { appender with level }) (P := fun _ => True) (fun _ => rfl)
      fun _ => id).safe .true sound trivial
  | appenderSetFormatter a val =>
    exact (appenderSetFormatter_triple (by simp) (Option.isSome_iff_ne_none.mp given)).safe .true sound trivial
  | appenderSetFormatterText a fmt => exact (appenderSetFormatterText_triple (by simp) fmt).safe .true sound trivial
  | toYamlString l => exact quiet (toYamlString_triple y (by simp))
  | managerToYamlString => exact quiet (managerToYamlString_triple y)
  | tick =>
    exact (disk_triple (f := fun d => { d with clock := d.clock + 1 }) (fun _ sound => ⟨sound.named, sound.apart,
      sound.removed⟩) fun _ => ⟨fun _ => Nat.le_succ _, fun _ _ _ => .inl⟩).safe .true sound trivial
  | turnBack =>
    have never (goes : forward) : False := Bool.false_ne_true (steady goes)
    exact (disk_triple (f := fun d => { d with clock := d.clock - 1 }) (fun _ sound => ⟨sound.named, sound.apart,
      sound.removed⟩) fun _ => ⟨fun goes => (never goes).elim, fun goes => (never goes).elim⟩).safe .true sound trivial
  | remove name => exact (disk_triple (fun _ sound => sound.remove) fun _ => .remove name).safe .true sound trivial
  | setOpenable name openable =>
    exact (disk_triple (f := fun d => { d with openable := Function.update d.openable name openable }) (fun _ sound =>
      ⟨sound.named, sound.apart, sound.removed⟩) fun _ => ⟨fun _ => Nat.le_refl _, fun _ _ _ => .inl⟩).safe
        .true sound trivial

variable [DecidableEq τ] {c c' : Threads τ Mutex (Logging τ)} {events : List (Threads.Event τ Op)}

variable {allowed : Op → Bool}

theorem sound_of_reachable (given : ∀ op, allowed op → op.given ∧ (forward → op.steady))
    (reached : (machine allowed strftime y).Reachable c) : (discipline forward τ 0).Sound (fun _ _ => True) c := by
  obtain ⟨initial, events, ⟨fresh, idle, free⟩, run⟩ := reached
  have safe (t : τ) (op : Op) (_ : .call t op ∈ events) (s : Logging τ) (sound : Sound forward 0 s)
      (meets : op.Exists s ∧ allowed op) : (discipline forward τ 0).Safe t [] (body strftime y t op)
        (fun locks _ s => locks = [] ∧ Sound forward 0 s ∧ True) s :=
    body_safe t op s sound meets.1 (given op meets.2).1 (given op meets.2).2
  refine Discipline.Sound.path safe run ⟨fresh.sound, fun t => ?_⟩
  refine ⟨[], List.nodup_nil, fun l => ?_, ?_⟩
  · rw [free l]
    simp
  · rw [idle t]
    exact (Discipline.Triple.done (P := fun _ => True) fun _ _ _ => trivial).safe .true fresh.sound trivial

theorem given_of_given (op : Op) (given : op.given) : op.given ∧ (False → op.steady) := ⟨given, False.elim⟩

theorem given_of_steady (op : Op) (steady : op.steady) : op.given ∧ (True → op.steady) := by
  refine ⟨?_, fun _ => steady⟩
  cases op <;> first | rfl | exact steady

/-- Whatever the threads call and however they are interleaved, if they set no null formatter, nothing undefined is
done, and there is no deadlock: as long as a thread has not returned, one of the threads can go on. Without new calls
they come to an end. -/
theorem never_stuck (strftime : Text → BitVec 64 → Text) (y : Yaml) (n : ℕ)
    (c : Threads (Fin n) Mutex (Logging (Fin n))) (reached : (machine Op.given strftime y).Reachable c) :
    (∀ t, c.program t ≠ .fail) ∧
      ((∃ t, c.program t ≠ .done ()) → ∃ t c', (machine Op.given strftime y).Step c (.step t) c') ∧
      Acc (fun c' c => ∃ t, (machine Op.given strftime y).Step c (.step t) c') c := by
  have sound := sound_of_reachable given_of_given reached
  refine ⟨fun t failed => ?_, ?_, ?_⟩
  · obtain ⟨held, _, _, safe⟩ := sound.safe t
    rw [failed] at safe
    exact safe.now
  · rintro ⟨t, busy⟩
    obtain ⟨other, c', step⟩ := sound.progress rank_le busy
    exact ⟨other, c', trivial, Threads.steps_iff.mpr step⟩
  · refine Subrelation.accessible ?_ (Threads.wellFounded_steps.apply c)
    rintro c' c ⟨t, -, step⟩
    exact ⟨t, Threads.steps_iff.mp step⟩

/-- A run of two threads from the start of the process. -/
def evaluate (allowed : Op → Bool) (strftime : Text → BitVec 64 → Text) (y : Yaml)
    (events : List (Threads.Event (Fin 2) Op)) : Option (Threads (Fin 2) Mutex (Logging (Fin 2))) :=
  LoggerManager.make.bind fun manager => events.foldlM (fun c event =>
    if Threads.Meets (fun op s => op.Exists s ∧ allowed op) c event then Threads.perform (body strftime y) c event
    else none) { shared := { manager, names := ["root".toList] } }

/-- What an evaluation shows of its end. -/
theorem exists_run {events : List (Threads.Event (Fin 2) Op)} {shown : Threads (Fin 2) Mutex (Logging (Fin 2)) → Bool}
    (ran : (evaluate allowed strftime y events).map shown = some true) :
    ∃ initial c, (machine allowed strftime y).Init initial ∧ initial.shared.records = [] ∧
      (machine allowed strftime y).Path initial events c ∧ shown c = true := by
  obtain ⟨c, ran, shown⟩ := Option.map_eq_some_iff.mp ran
  obtain ⟨manager, made, ran⟩ := Option.bind_eq_some_iff.mp ran
  refine ⟨{ shared := { manager, names := ["root".toList] } }, c,
    ⟨⟨manager, made, rfl⟩, fun _ => rfl, fun _ => rfl⟩, rfl, ?_, shown⟩
  rw [machine, Threads.machine, Machine.restrict_ofNext]
  exact Machine.Path.ofNext_iff.mpr ran

/-- An event of the root logger. -/
def hello : LogEvent where
  content := "hello".toList
  elapse := 0
  loggerName := "root".toList
  threadId := 1
  fiberId := 0
  threadName := "main".toList
  time := 0
  file := "main.cpp".toList
  line := 1

/-- Dates are not written out, and nothing is read from text. -/
def plain : (Text → BitVec 64 → Text) × Yaml := ⟨fun _ _ => [], ⟨fun _ => [], fun _ => none, fun _ => none⟩⟩

/-- One thread logs to the root, and the other is about to take the appenders away. -/
theorem never_stuck_two : ∃ c, (machine (τ := Fin 2) Op.given plain.1 plain.2).Reachable c ∧
    c.owner (.logger 0) = some 0 ∧ c.program 1 ≠ .done () ∧
    ∃ t c', (machine Op.given plain.1 plain.2).Step c (.step t) c' := by
  have ran : (evaluate Op.given plain.1 plain.2
      [.call 0 (.log 0 1 hello), .step 0, .step 0, .step 0, .call 1 (.clearAppenders 0)]).map
      (fun c => decide (c.owner (.logger 0) = some 0) && !(c.program 1).returned) = some true := by
    decide +kernel
  obtain ⟨initial, c, init, -, path, shown⟩ := exists_run ran
  obtain ⟨owner, busy⟩ := Bool.and_eq_true_iff.mp shown
  have busy : c.program 1 ≠ .done () := by
    intro idle
    rw [idle] at busy
    cases busy
  have reached : (machine Op.given plain.1 plain.2).Reachable c := ⟨initial, _, init, path⟩
  exact ⟨c, reached, of_decide_eq_true owner, busy, (never_stuck _ _ _ c reached).2.1 ⟨1, busy⟩⟩

/-- As long as the clock is not turned back, a line is never written to a file that lost its name in an earlier second
than that of the line. -/
theorem lines_dated (reached : (machine Op.steady strftime y).Reachable c) (t : τ) (l : LoggerPtr)
    (appenders : List LogAppenderPtr) (a : LogAppenderPtr) (file now : ℕ) (line : Text)
    (written : ⟨t, l, .asked appenders a (.file (some file) now line)⟩ ∈ c.shared.records) (second : ℕ)
    (removed : c.shared.disk.removed file = some second) : now ≤ second :=
  ((sound_of_reachable given_of_steady reached).inv.records trivial _ written).2 second removed

/-- The record is of a line that the appender 1 has written to this file. -/
def Record.wrote (file now : ℕ) (record : Record (Fin 2)) : Bool :=
  match record.entry with
  | .asked _ 1 (.file (some opened) second _) => opened == file && second == now
  | _ => false

/-- The file is moved away in the second after its line, and the next line goes to a new one. -/
def rotating {τ : Type} (t other : τ) : List (Threads.Event τ Op) :=
  [.call t (.makeAppender (.file "a.log".toList))] ++ List.replicate 6 (.step t) ++
    [.call t (.addAppender 0 1)] ++ List.replicate 9 (.step t) ++
    [.call t (.log 0 1 hello)] ++ List.replicate 16 (.step t) ++
    [.call other .tick, .step other, .call other (.remove "a.log".toList), .step other, .call t (.log 0 1 hello)] ++
    List.replicate 23 (.step t)

theorem lines_dated_rotated : ∃ (c : Threads (Fin 2) Mutex (Logging (Fin 2))) (t : Fin 2) (l : LoggerPtr)
    (appenders : List LogAppenderPtr) (line : Text), (machine Op.steady plain.1 plain.2).Reachable c ∧
      ⟨t, l, .asked appenders 1 (.file (some 0) 0 line)⟩ ∈ c.shared.records ∧
      (∃ later ∈ c.shared.records, later.wrote 1 1) ∧ c.shared.disk.removed 0 = some 1 ∧ 0 ≤ 1 := by
  have ran : (evaluate Op.steady plain.1 plain.2 (rotating 0 1)).map (fun c =>
      c.shared.records.any (Record.wrote 0 0) &&
        (c.shared.records.any (Record.wrote 1 1) && decide (c.shared.disk.removed 0 = some 1))) = some true := by
    decide +kernel
  obtain ⟨initial, c, init, -, path, shown⟩ := exists_run ran
  obtain ⟨first, rest⟩ := Bool.and_eq_true_iff.mp shown
  obtain ⟨second, removed⟩ := Bool.and_eq_true_iff.mp rest
  obtain ⟨⟨t, l, entry⟩, member, wrote⟩ := List.any_eq_true.mp first
  have removed := of_decide_eq_true removed
  unfold Record.wrote at wrote
  split at wrote
  · next appenders opened now line same =>
    obtain ⟨here, there⟩ := Bool.and_eq_true_iff.mp wrote
    obtain rfl := beq_iff_eq.mp here
    obtain rfl := beq_iff_eq.mp there
    dsimp only at same
    subst same
    have reached : (machine Op.steady plain.1 plain.2).Reachable c := ⟨initial, _, init, path⟩
    exact ⟨c, t, l, appenders, line, reached, member, List.any_eq_true.mp second, removed,
      lines_dated reached t l appenders 1 0 0 line member 1 removed⟩
  · cases wrote

end Sylar.Logging
