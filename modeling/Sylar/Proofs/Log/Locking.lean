import Sylar.Machine.Interference
import Sylar.Model.Log.Logging
import Sylar.Proofs.Log.Updates

/-! # What the threads that log may do to each other

Under its lock a logger keeps its appenders, and an appender that has a formatter keeps one. The locks are taken from
the manager to a logger, from a logger to the root and from there to an appender. A stream that is open leads to a
file that had its name in the second noted in `m_lastTime`, or had it later.
-/

namespace Sylar

/-! ## The disk -/

namespace Disk

variable {forward : Prop} {d d' : Disk} {name : Text}

/-- A name stands for one file that has not lost it, and files lose their names in the past. -/
structure Sound (d : Disk) : Prop where
  named : ∀ name file, d.named name = some file → file < d.files ∧ d.removed file = none
  apart : ∀ name other file, d.named name = some file → d.named other = some file → name = other
  removed : ∀ file second, d.removed file = some second → file < d.files

/-- A file that loses its name loses it now, and if the clock is not turned back it goes on. -/
structure Moves (forward : Prop) (d d' : Disk) : Prop where
  clock : forward → d.clock ≤ d'.clock
  removed : forward → ∀ file second, d'.removed file = some second → d.removed file = some second ∨ d.clock ≤ second

theorem Moves.refl (d : Disk) : Moves forward d d := ⟨fun _ => Nat.le_refl _, fun _ _ _ => .inl⟩

theorem removed_openFile : (d.openFile name).2.removed = d.removed := by
  unfold openFile
  split
  · split <;> rfl
  · rfl

theorem clock_openFile : (d.openFile name).2.clock = d.clock := by
  unfold openFile
  split
  · split <;> rfl
  · rfl

theorem Moves.openFile (name : Text) : Moves forward d (d.openFile name).2 where
  clock _ := clock_openFile.ge
  removed _ file second := by
    rw [removed_openFile]
    exact .inl

/-- What has been opened has its name. -/
theorem Sound.opened (sound : d.Sound) {file : ℕ} (opened : (d.openFile name).1 = some file) :
    d.removed file = none := by
  unfold Disk.openFile at opened
  split at opened
  · split at opened
    · next found =>
      obtain rfl := Option.some.inj opened
      exact (sound.named name _ found).2
    · obtain rfl := Option.some.inj opened
      by_contra present
      obtain ⟨second, removed⟩ := Option.ne_none_iff_exists'.mp present
      exact Nat.lt_irrefl _ (sound.removed _ second removed)
  · cases opened

theorem Sound.openFile (sound : d.Sound) : (d.openFile name).2.Sound := by
  unfold Disk.openFile
  split
  · split
    · exact sound
    · next missing =>
      have new (other : Text) : Function.update d.named name (some d.files) other =
          if other = name then some d.files else d.named other := Function.update_apply ..
      refine ⟨?_, ?_, fun file second removed => Nat.lt_succ_of_lt (sound.removed file second removed)⟩
      · intro other file found
        dsimp only at found ⊢
        rw [new] at found
        split_ifs at found
        · obtain rfl := Option.some.inj found
          refine ⟨Nat.lt_succ_self _, ?_⟩
          by_contra present
          obtain ⟨second, removed⟩ := Option.ne_none_iff_exists'.mp present
          exact Nat.lt_irrefl _ (sound.removed _ second removed)
        · exact ⟨Nat.lt_succ_of_lt (sound.named other file found).1, (sound.named other file found).2⟩
      · intro one other file found found'
        dsimp only at found found'
        rw [new] at found found'
        split_ifs at found found' with here there there
        · rw [here, there]
        · obtain rfl := Option.some.inj found
          exact absurd (sound.named other _ found').1 (Nat.lt_irrefl _)
        · obtain rfl := Option.some.inj found'
          exact absurd (sound.named one _ found).1 (Nat.lt_irrefl _)
        · exact sound.apart one other file found found'
  · exact sound

theorem Moves.remove (name : Text) : Moves forward d (d.remove name) := by
  unfold Disk.remove
  split
  · next lost found =>
    refine ⟨fun _ => Nat.le_refl _, fun _ file second removed => ?_⟩
    dsimp only at removed
    rw [Function.update_apply] at removed
    split_ifs at removed
    · exact .inr (Option.some.inj removed).le
    · exact .inl removed
  · exact .refl d

theorem Sound.remove (sound : d.Sound) : (d.remove name).Sound := by
  unfold Disk.remove
  split
  · next lost found =>
    have kept {other : Text} {file : ℕ} (found' : Function.update d.named name none other = some file) :
        d.named other = some file ∧ file ≠ lost := by
      rw [Function.update_apply] at found'
      split_ifs at found' with here
      refine ⟨found', ?_⟩
      rintro rfl
      exact here (sound.apart other name _ found' found)
    refine ⟨fun other file found' => ?_, fun one other file one' other' => ?_, fun file second removed => ?_⟩
    · obtain ⟨old, different⟩ := kept found'
      refine ⟨(sound.named other file old).1, ?_⟩
      dsimp only
      rw [Function.update_of_ne different]
      exact (sound.named other file old).2
    · exact sound.apart one other file (kept one').1 (kept other').1
    · dsimp only at removed
      rw [Function.update_apply] at removed
      split_ifs at removed with here
      · exact here ▸ (sound.named name lost found).1
      · exact sound.removed file second removed
  · exact sound

end Disk

/-! ## Loggers and appenders -/

namespace Logs

open Logging (Mutex)

variable {m m' : Logs} {held : List Mutex} {l : LoggerPtr} {a : LogAppenderPtr}

/-- Every logger has a formatter, and every appender of a logger. -/
structure Ready (m : Logs) : Prop where
  formatted : ∀ l < m.loggers, (m.logger l).formatter ≠ none
  attached : ∀ l, ∀ a ∈ (m.logger l).appenders, a < m.appenders ∧ (m.appender a).formatter ≠ none

/-- Nothing is unmade, no formatter is taken away, and appenders come and go under the lock of their logger. -/
structure Moves (held : List Mutex) (m m' : Logs) : Prop where
  loggers : m.loggers ≤ m'.loggers
  appenders : m.appenders ≤ m'.appenders
  kind : ∀ a < m.appenders, (m'.appender a).kind = (m.appender a).kind
  formatter : ∀ a < m.appenders, (m.appender a).formatter ≠ none → (m'.appender a).formatter ≠ none
  kept : ∀ l < m.loggers, .logger l ∉ held → (m'.logger l).appenders = (m.logger l).appenders

theorem Moves.refl (held : List Mutex) (m : Logs) : Moves held m m :=
  ⟨Nat.le_refl _, Nat.le_refl _, fun _ _ => rfl, fun _ _ => id, fun _ _ _ => rfl⟩

/-- An appender changes, but for its class, and does not lose its formatter. -/
theorem Ready.updateAppender (ready : m.Ready) (held : List Mutex) {f : LogAppender → LogAppender}
    (kind : (f (m.appender a)).kind = (m.appender a).kind)
    (formatter : (m.appender a).formatter ≠ none → (f (m.appender a)).formatter ≠ none) :
    (m.updateAppender a f).Ready ∧ Moves held m (m.updateAppender a f) := by
  have formatters (b : LogAppenderPtr) (had : (m.appender b).formatter ≠ none) :
      ((m.updateAppender a f).appender b).formatter ≠ none := by
    rw [updateAppender_appender]
    split_ifs with same
    · exact formatter (same ▸ had)
    · exact had
  refine ⟨⟨ready.formatted, fun l b member => ?_⟩, ⟨Nat.le_refl _, Nat.le_refl _, fun b _ => ?_,
    fun b _ => formatters b,
    fun _ _ _ => rfl⟩⟩
  · exact ⟨(ready.attached l b member).1, formatters b (ready.attached l b member).2⟩
  · rw [updateAppender_appender]
    split_ifs with same
    · rw [kind, same]
    · rfl

/-- A logger changes, and its appenders under its lock only. -/
theorem Ready.updateLogger (ready : m.Ready) {g : Logger → Logger}
    (formatter : (m.logger l).formatter ≠ none → (g (m.logger l)).formatter ≠ none)
    (attached : ∀ a ∈ (g (m.logger l)).appenders, a ∈ (m.logger l).appenders ∨
      a < m.appenders ∧ (m.appender a).formatter ≠ none)
    (lock : .logger l ∈ held ∨ (g (m.logger l)).appenders = (m.logger l).appenders) :
    (m.updateLogger l g).Ready ∧ Moves held m (m.updateLogger l g) := by
  refine ⟨⟨fun k known => ?_, fun k b member => ?_⟩, ⟨Nat.le_refl _, Nat.le_refl _, fun _ _ => rfl, fun _ _ => id,
    fun k known free => ?_⟩⟩
  · rw [updateLogger_logger]
    split_ifs with same
    · exact formatter (ready.formatted l (same ▸ known))
    · exact ready.formatted k known
  · rw [updateLogger_logger] at member
    split_ifs at member
    · exact (attached b member).elim (ready.attached l b) id
    · exact ready.attached k b member
  · rw [updateLogger_logger]
    split_ifs with same
    · subst same
      exact lock.resolve_left free
    · rfl

theorem Ready.makeFormatter (ready : m.Ready) (held : List Mutex) (object : LogFormatter) :
    (m.makeFormatter object).2.Ready ∧ Moves held m (m.makeFormatter object).2 :=
  ⟨⟨ready.formatted, ready.attached⟩, ⟨Nat.le_refl _, Nat.le_refl _, fun _ _ => rfl, fun _ _ => id, fun _ _ _ => rfl⟩⟩

theorem Ready.makeAppender (ready : m.Ready) (held : List Mutex) (kind : LogAppender.Kind) :
    (m.makeAppender kind).2.Ready ∧ Moves held m (m.makeAppender kind).2 := by
  have old (b : LogAppenderPtr) (made : b < m.appenders) : (m.makeAppender kind).2.appender b = m.appender b := by
    rw [makeAppender_appender, if_neg made.ne]
  refine ⟨⟨ready.formatted, fun l b member => ?_⟩, ⟨Nat.le_refl _, Nat.le_succ _, fun b made => ?_,
    fun b made had => ?_,
    fun _ _ _ => rfl⟩⟩
  · obtain ⟨made, had⟩ := ready.attached l b member
    refine ⟨Nat.lt_succ_of_lt made, ?_⟩
    rwa [old b made]
  · rw [old b made]
  · rwa [old b made]

theorem Ready.initLogger (ready : m.Ready) (held : List Mutex) (name : Text) (formatter : LogFormatterPtr) :
    (m.initLogger name formatter).Ready ∧ Moves held m (m.initLogger name formatter) := by
  refine ⟨⟨fun k known => ?_, fun k b member => ?_⟩, ⟨Nat.le_succ _, Nat.le_refl _, fun _ _ => rfl, fun _ _ => id,
    fun k known _ => ?_⟩⟩
  · rw [initLogger_logger]
    split_ifs with new
    · exact Option.some_ne_none _
    · exact ready.formatted k (lt_of_initLogger known new)
  · rw [initLogger_logger] at member
    split_ifs at member
    · cases member
    · exact ready.attached k b member
  · rw [initLogger_logger, if_neg known.ne]

/-- A logger gives its formatter to an appender that has none of its own. -/
theorem Ready.inherit (ready : m.Ready) (held : List Mutex) (known : l < m.loggers) (a : LogAppenderPtr) :
    (m.inherit (m.logger l).formatter a).Ready ∧ Moves held m (m.inherit (m.logger l).formatter a) := by
  unfold Logs.inherit
  split_ifs
  · exact ⟨ready, .refl held m⟩
  · exact ready.updateAppender held rfl fun _ => ready.formatted l known

end Logs

/-! ## What is shared -/

namespace Logging

variable {forward : Prop} {τ : Type} {root : LoggerPtr} {t : τ} {held : List Mutex} {s s' : Logging τ} {l : LoggerPtr}
  {a : LogAppenderPtr} {now : ℕ}

/-- What the stream has open had its name in that second, or has it. -/
def Dated (a : LogAppenderPtr) (now : ℕ) (s : Logging τ) : Prop :=
  ∀ file, s.stream a = some file → ∀ second, s.disk.removed file = some second → now ≤ second

/-- A line goes to a file that had its name when `time(0)` was asked, or later. -/
def Answer.Dated (d : Disk) : Answer → Prop
  | .file (some opened) now _ => now ≤ d.clock ∧ ∀ second, d.removed opened = some second → now ≤ second
  | _ => True

def Entry.Dated (d : Disk) : Entry → Prop
  | .asked _ _ answer => Answer.Dated d answer
  | _ => True

/-- What always holds of the loggers, of which `root` is the root, and of the files if the clock is not turned back. -/
structure Sound (forward : Prop) (root : LoggerPtr) (s : Logging τ) : Prop where
  root_eq : s.manager.root = root
  root_made : root < s.logs.loggers
  found : ∀ name l, s.manager.loggers name = some l → l < s.logs.loggers
  fallback : ∀ l k, s.fallback l = some k → k = root ∧ l ≠ root
  ready : s.logs.Ready
  disk : s.disk.Sound
  lastTime : forward → ∀ a, s.lastTime a ≤ s.disk.clock
  dated : forward → ∀ a, Dated a (s.lastTime a) s
  records : forward → ∀ record ∈ s.records, record.entry.Dated s.disk

/-- What a thread may do with the locks it holds. -/
structure Moves (forward : Prop) (t : τ) (held : List Mutex) (s s' : Logging τ) : Prop where
  logs : Logs.Moves held s.logs s'.logs
  disk : Disk.Moves forward s.disk s'.disk
  dated : forward → ∀ a < s.logs.appenders, ∀ now ≤ s.disk.clock, Dated a now s → Dated a now s'
  records : ∃ new, s'.records = s.records ++ new ∧ ∀ record ∈ new, record.thread = t

/-- The locks are taken from the manager to the appenders. -/
def rank (root : LoggerPtr) : Mutex → ℕ
  | .manager => 0
  | .logger l => if l = root then 2 else 1
  | .appender _ => 3

def discipline (forward : Prop) (τ : Type) (root : LoggerPtr) : Discipline τ Mutex (Logging τ) where
  rank := rank root
  Inv := Sound forward root
  Allowed := Moves forward

theorem rank_le (l : Mutex) : rank root l ≤ 3 := by
  cases l with
  | manager => exact Nat.zero_le _
  | logger l =>
    simp only [rank]
    split_ifs <;> decide
  | appender a => exact Nat.le_refl _

theorem Moves.refl (t : τ) (held : List Mutex) (s : Logging τ) : Moves forward t held s s :=
  ⟨.refl held _, .refl _, fun _ _ _ _ _ => id, [], (List.append_nil _).symm, by simp⟩

theorem Answer.Dated.moves {d d' : Disk} (moves : Disk.Moves forward d d') (goes : forward) {answer : Answer}
    (dated : Answer.Dated d answer) : Answer.Dated d' answer := by
  unfold Answer.Dated at dated ⊢
  split
  · next opened now line =>
    refine ⟨dated.1.trans (moves.clock goes), fun second removed => ?_⟩
    exact (moves.removed goes opened second removed).elim (dated.2 second) dated.1.trans
  · trivial

theorem Entry.Dated.moves {d d' : Disk} (moves : Disk.Moves forward d d') (goes : forward) {entry : Entry}
    (dated : Entry.Dated d entry) : Entry.Dated d' entry := by
  cases entry with
  | asked _ _ answer => exact Answer.Dated.moves moves goes dated
  | lower => trivial
  | unheard => trivial
  | forwarded _ => trivial

theorem Dated.moves {now : ℕ} (dated : Dated a now s) (stream : s'.stream a = s.stream a)
    (moves : Disk.Moves forward s.disk s'.disk) (goes : forward) (past : now ≤ s.disk.clock) : Dated a now s' := by
  intro file opened second removed
  rw [stream] at opened
  exact (moves.removed goes file second removed).elim (dated file opened second) past.trans

/-! ## What a step leaves -/

/-- A step on the loggers and appenders. -/
theorem Sound.updateLogs (sound : Sound forward root s) (t : τ) {f : Logs → Logs} (held : List Mutex)
    (step : (f s.logs).Ready ∧ Logs.Moves held s.logs (f s.logs)) :
    Sound forward root (s.updateLogs f) ∧ Moves forward t held s (s.updateLogs f) :=
  ⟨{ root_eq := sound.root_eq
     root_made := sound.root_made.trans_le step.2.loggers
     found := fun name l found => (sound.found name l found).trans_le step.2.loggers
     fallback := sound.fallback
     ready := step.1
     disk := sound.disk
     lastTime := sound.lastTime
     dated := sound.dated
     records := sound.records },
    step.2, .refl _, fun _ _ _ _ _ => id, [], (List.append_nil _).symm, by simp⟩

/-- Something is recorded. -/
theorem Sound.record (sound : Sound forward root s) (t : τ) (held : List Mutex) (l : LoggerPtr) (entry : Entry)
    (dated : forward → entry.Dated s.disk) :
    Sound forward root (s.record t l entry) ∧ Moves forward t held s (s.record t l entry) := by
  refine ⟨{ sound with records := fun goes record member => ?_ }, ⟨.refl held _, .refl _, fun _ _ _ _ _ => id, ?_⟩⟩
  · rcases List.mem_append.mp member with old | new
    · exact sound.records goes record old
    · obtain rfl := List.mem_singleton.mp new
      exact dated goes
  · exact ⟨[⟨t, l, entry⟩], rfl, by simp⟩

/-- A step on the files and the streams. -/
theorem Sound.files (sound : Sound forward root s) (t : τ) (held : List Mutex) {stream : LogAppenderPtr → Option ℕ}
    {lastTime : LogAppenderPtr → ℕ} {disk : Disk} (soundDisk : disk.Sound) (moves : Disk.Moves forward s.disk disk)
    (past : forward → ∀ a, lastTime a ≤ disk.clock)
    (dated : forward → ∀ a, Dated a (lastTime a) { s with stream, lastTime, disk })
    (kept : forward → ∀ a < s.logs.appenders, ∀ now ≤ s.disk.clock, Dated a now s →
      Dated a now { s with stream, lastTime, disk }) :
    Sound forward root { s with stream, lastTime, disk } ∧
      Moves forward t held s { s with stream, lastTime, disk } :=
  ⟨{ sound with
      disk := soundDisk
      lastTime := past
      dated := dated
      records := fun goes record member => (sound.records goes record member).moves moves goes },
    .refl held _, moves, kept, [], (List.append_nil _).symm, by simp⟩

/-- A step on the map of the manager and on `m_root` of a logger that is not the root. -/
theorem Sound.registry (sound : Sound forward root s) (t : τ) (held : List Mutex) (names : List Text)
    {loggers : Text → Option LoggerPtr} {fallback : LoggerPtr → Option LoggerPtr}
    (found : ∀ name l, loggers name = some l → l < s.logs.loggers)
    (chain : ∀ l k, fallback l = some k → k = root ∧ l ≠ root) :
    Sound forward root { s with manager := { s.manager with loggers }, fallback, names } ∧
      Moves forward t held s { s with manager := { s.manager with loggers }, fallback, names } :=
  ⟨{ sound with
      root_made := sound.root_made
      ready := sound.ready
      found
      fallback := chain },
    .refl held _, .refl _, fun _ _ _ _ _ => id, [], (List.append_nil _).symm, by simp⟩

end Logging

end Sylar
