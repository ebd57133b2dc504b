import Sylar.Proofs.Log.Locking

/-! # The calls of the threads that log

Each of the calls keeps to the discipline, whatever the other threads do in between.
-/

namespace Sylar.Logging

open Discipline (Triple Stable)

variable {forward : Prop} {τ α : Type} {root : LoggerPtr} {t : τ} {held : List Mutex} {l : LoggerPtr}
  {a : LogAppenderPtr} {now : ℕ}
  {P : Logging τ → Prop} {Q : α → Logging τ → Prop}

/-! ## What others leave alone -/

theorem steady_known (forward : Prop) (root l : LoggerPtr) :
    (discipline forward τ root).Steady fun s => l < s.logs.loggers := by
  intro t locks s s' _ _ moves known
  exact known.trans_le moves.logs.loggers

theorem steady_made (forward : Prop) (root : LoggerPtr) (a : LogAppenderPtr) :
    (discipline forward τ root).Steady fun s => a < s.logs.appenders := by
  intro t locks s s' _ _ moves made
  exact made.trans_le moves.logs.appenders

/-- An appender, and a second that has come. -/
def MadeBy (forward : Prop) (a : LogAppenderPtr) (now : ℕ) (s : Logging τ) : Prop :=
  a < s.logs.appenders ∧ (forward → now ≤ s.disk.clock)

theorem steady_madeBy : (discipline forward τ root).Steady (MadeBy forward a now) := by
  rintro t locks s s' _ _ moves ⟨made, past⟩
  exact ⟨made.trans_le moves.logs.appenders, fun goes => (past goes).trans (moves.disk.clock goes)⟩

theorem steady_dated :
    (discipline forward τ root).Steady fun s => MadeBy forward a now s ∧ (forward → Dated a now s) := by
  rintro t locks s s' inv inv' moves ⟨here, dated⟩
  exact ⟨steady_madeBy t locks s s' inv inv' moves here,
    fun goes => moves.dated goes a here.1 now (here.2 goes) (dated goes)⟩

/-- An appender that has a formatter. -/
def Formatted (a : LogAppenderPtr) (s : Logging τ) : Prop := a < s.logs.appenders ∧ (s.logs.appender a).formatter ≠ none

theorem steady_formatted (forward : Prop) (root : LoggerPtr) (a : LogAppenderPtr) :
    (discipline forward τ root).Steady (Formatted a) := by
  rintro t locks s s' _ _ moves ⟨made, had⟩
  exact ⟨made.trans_le moves.logs.appenders, moves.logs.formatter a made had⟩

/-! ## Single accesses -/

theorem get_triple {f : Logging τ → α} (found : ∀ s, Sound forward root s → P s → Q (f s) s)
    (stable : ∀ a, (discipline forward τ root).Stable t held (Q a)) :
    (discipline forward τ root).Triple t held P (Program.get f) Q :=
  .get (fun s _ => .refl t held s) found stable

theorem updateLogs_triple {f : Logs → Logs} {Q : Unit → Logging τ → Prop}
    (step : ∀ s, Sound forward root s → P s →
      ((f s.logs).Ready ∧ Logs.Moves held s.logs (f s.logs)) ∧ Q () (s.updateLogs f))
    (stable : (discipline forward τ root).Stable t held (Q ())) :
    (discipline forward τ root).Triple t held P (Program.modify (updateLogs f)) Q := by
  refine .modify (fun s sound holds => ?_) stable
  obtain ⟨moves, after⟩ := step s sound holds
  exact ⟨(sound.updateLogs t held moves).1, (sound.updateLogs t held moves).2, after⟩

/-- A step on the files alone. -/
theorem files_triple (stream : Logging τ → LogAppenderPtr → Option ℕ) (lastTime : Logging τ → LogAppenderPtr → ℕ)
    (disk : Logging τ → Disk) {Q : Unit → Logging τ → Prop}
    (step : ∀ s, Sound forward root s → P s → (disk s).Sound ∧ Disk.Moves forward s.disk (disk s) ∧
      (forward → ∀ a, lastTime s a ≤ (disk s).clock) ∧
      (forward → ∀ a, Dated a (lastTime s a) { s with stream := stream s, lastTime := lastTime s, disk := disk s }) ∧
      (forward → ∀ a < s.logs.appenders, ∀ now ≤ s.disk.clock, Dated a now s →
        Dated a now { s with stream := stream s, lastTime := lastTime s, disk := disk s }) ∧
      Q () { s with stream := stream s, lastTime := lastTime s, disk := disk s })
    (stable : (discipline forward τ root).Stable t held (Q ())) :
    (discipline forward τ root).Triple t held P
      (Program.modify fun s => { s with stream := stream s, lastTime := lastTime s, disk := disk s }) Q := by
  refine .modify (fun s sound holds => ?_) stable
  obtain ⟨soundDisk, moves, past, dated, kept, after⟩ := step s sound holds
  obtain ⟨inv, allowed⟩ := sound.files t held soundDisk moves past dated kept
  exact ⟨inv, allowed, after⟩

/-- What happens to the disk from outside. -/
theorem disk_triple {f : Disk → Disk} (sound : ∀ d, d.Sound → (f d).Sound) (moves : ∀ d, Disk.Moves forward d (f d)) :
    (discipline forward τ root).Triple t held (fun _ => True)
      (Program.modify fun s => { s with disk := f s.disk }) fun _ _ =>
      True := by
  refine files_triple Logging.stream Logging.lastTime (fun s => f s.disk) (fun s inv _ => ?_) .true
  have kept (goes : forward) (a : LogAppenderPtr) (now : ℕ) (past : now ≤ s.disk.clock) (dated : Dated a now s) :
      Dated a now { s with disk := f s.disk } := dated.moves rfl (moves s.disk) goes past
  exact ⟨sound _ inv.disk, moves _, fun goes a => (inv.lastTime goes a).trans ((moves _).clock goes),
    fun goes a => kept goes a _ (inv.lastTime goes a) (inv.dated goes a), fun goes a _ => kept goes a, trivial⟩

/-! ## `reopen` -/

/-- What does not depend on the files. -/
def Apart (P : Logging τ → Prop) : Prop :=
  ∀ s stream lastTime disk, P s → P { s with stream, lastTime, disk }

theorem closeStream_triple (stable : (discipline forward τ root).Stable t held P) (apart : Apart P) :
    (discipline forward τ root).Triple t held (fun s => P s ∧ MadeBy forward a now s)
      (Program.modify (closeStream a)) fun _ s => P s ∧ MadeBy forward a now s := by
  refine files_triple _ _ _ (fun s sound holds => ?_) (stable.and (steady_madeBy.stable t _))
  have dated (b : LogAppenderPtr) (now : ℕ) (before : Dated b now s) :
      Dated b now { s with stream := Function.update s.stream a none } := by
    intro file opened
    dsimp only at opened
    rw [Function.update_apply] at opened
    split_ifs at opened
    exact before file opened
  exact ⟨sound.disk, .refl _, sound.lastTime, fun goes b => dated b _ (sound.dated goes b),
    fun _ b _ now _ => dated b now, apart _ _ _ _ holds.1, holds.2⟩

theorem openStream_triple (stable : (discipline forward τ root).Stable t held P) (apart : Apart P) (filename : Text) :
    (discipline forward τ root).Triple t held (fun s => P s ∧ MadeBy forward a now s)
      (Program.modify (openStream filename a)) fun _ s => P s ∧ MadeBy forward a now s ∧ (forward → Dated a now s) := by
  refine files_triple _ _ _ (fun s sound holds => ?_) (stable.and (steady_dated.stable t _))
  have opened (now : ℕ) : Dated a now (s.openStream filename a) := by
    intro file opened second removed
    dsimp only [openStream] at opened removed
    rw [Function.update_self] at opened
    rw [Disk.removed_openFile, sound.disk.opened opened] at removed
    cases removed
  have dated (b : LogAppenderPtr) (now : ℕ) (before : Dated b now s) : Dated b now (s.openStream filename a) := by
    rcases eq_or_ne b a with rfl | other
    · exact opened now
    · intro file found second removed
      dsimp only [openStream] at found removed
      rw [Function.update_of_ne other] at found
      rw [Disk.removed_openFile] at removed
      exact before file found second removed
  refine ⟨sound.disk.openFile, .openFile filename, fun goes b => ?_, fun goes b => dated b _ (sound.dated goes b),
    fun _ b _ now _ => dated b now, apart _ _ _ _ holds.1, ⟨holds.2.1, fun goes => ?_⟩, fun _ => opened now⟩
  · exact (sound.lastTime goes b).trans Disk.clock_openFile.ge
  · exact (holds.2.2 goes).trans Disk.clock_openFile.ge

/-- The stream leads to a file that has its name. -/
theorem reopen_triple (now : ℕ) (order : ∀ h ∈ held, rank root h < 3)
    (stable : (discipline forward τ root).Stable t held P)
    (apart : Apart P) (filename : Text) :
    (discipline forward τ root).Triple t held (fun s => P s ∧ MadeBy forward a now s) (reopen filename a) fun _ s =>
      P s ∧ MadeBy forward a now s ∧ (forward → Dated a now s) := by
  have stable' := stable.mono (List.subset_cons_self (.appender a) held)
  refine .locked order (stable'.and (steady_madeBy.stable t _)) ?_ fun _ => stable.and (steady_dated.stable t _)
  refine .bind (Q := fun _ s => P s ∧ MadeBy forward a now s)
    (get_triple (fun _ _ => id) fun _ => stable'.and (steady_madeBy.stable t _)) ?_
  intro isOpen
  refine .bind (Q := fun _ s => P s ∧ MadeBy forward a now s)
    (.when (fun _ => closeStream_triple stable' apart) fun _ _ _ => id) ?_
  intro _
  refine .bind (openStream_triple stable' apart filename) fun _ => ?_
  exact get_triple (fun _ _ => id) fun _ => stable'.and (steady_dated.stable t _)

/-! ## Appenders -/

theorem rank_logger (l : LoggerPtr) : 1 ≤ rank root (.logger l) ∧ rank root (.logger l) < 3 := by
  simp only [rank]
  split_ifs <;> decide

/-- A step on one appender that leaves it its formatter. -/
theorem updateAppender_triple {f : LogAppender → LogAppender} (kind : ∀ appender, (f appender).kind = appender.kind)
    (formatter : ∀ appender : LogAppender, appender.formatter ≠ none → (f appender).formatter ≠ none) :
    (discipline forward τ root).Triple t held P (Program.modify (updateLogs (Logs.updateAppender a f)))
      fun _ _ => True :=
  updateLogs_triple (fun _ sound _ => ⟨sound.ready.updateAppender held (kind _) (formatter _), trivial⟩) .true

theorem appenderSetFormatter_triple (order : ∀ h ∈ held, rank root h < 3) {val : Option LogFormatterPtr}
    (given : val ≠ none) :
    (discipline forward τ root).Triple t held (fun _ => True) (appenderSetFormatter a val) fun _ _ => True :=
  .locked order .true (updateAppender_triple (fun _ => rfl) fun _ _ => given) fun _ => .true

theorem makeFormatter_triple (pattern : Text) :
    (discipline forward τ root).Triple t held (fun _ => True) (makeFormatter pattern) fun _ _ => True := by
  unfold makeFormatter
  split
  · exact .done fun _ _ _ => trivial
  · next object _ =>
    refine .act (R := fun _ _ => True) (fun s sound _ => ?_) (fun _ => .true) fun _ => .done fun _ _ _ => trivial
    obtain ⟨inv, moves⟩ := sound.updateLogs t (f := fun logs => (logs.makeFormatter object).2) held
      (sound.ready.makeFormatter held object)
    exact ⟨inv, moves, trivial⟩

theorem appenderSetFormatterText_triple (order : ∀ h ∈ held, rank root h < 3) (fmt : Text) :
    (discipline forward τ root).Triple t held (fun _ => True) (appenderSetFormatterText a fmt) fun _ _ => True := by
  refine .bind (makeFormatter_triple fmt) fun made => ?_
  cases made with
  | none => exact .done fun _ _ _ => trivial
  | some new_val =>
    dsimp only
    split_ifs
    · exact updateAppender_triple (fun _ => rfl) fun _ => id
    · exact appenderSetFormatter_triple order (Option.some_ne_none new_val)

/-- A new appender has its place. -/
theorem makeAppender_triple (order : ∀ h ∈ held, rank root h < 3) (kind : LogAppender.Kind) :
    (discipline forward τ root).Triple t held (fun _ => True) (makeAppender kind) fun a s => a < s.logs.appenders := by
  refine .bind (Q := fun a s => a < s.logs.appenders) ?_ fun a => ?_
  · refine .act (R := fun before s => before.logs.appenders < s.logs.appenders) (fun s sound _ => ?_)
      (fun before => (steady_made forward root before.logs.appenders).stable t held) fun before => .done fun _ _ => id
    obtain ⟨inv, moves⟩ := sound.updateLogs t (f := fun logs => (logs.makeAppender kind).2) held
      (sound.ready.makeAppender held kind)
    have dated (b : LogAppenderPtr) (now : ℕ) (before : Dated b now s) :
        Dated b now { s.updateLogs (fun logs => (logs.makeAppender kind).2) with
          stream := Function.update s.stream s.logs.appenders none,
          lastTime := Function.update s.lastTime s.logs.appenders 0 } := by
      intro file opened
      dsimp only at opened
      rw [Function.update_apply] at opened
      split_ifs at opened
      exact before file opened
    have past (goes : forward) (b : LogAppenderPtr) :
        Function.update s.lastTime s.logs.appenders 0 b ≤ s.disk.clock := by
      rw [Function.update_apply]
      split_ifs
      · exact Nat.zero_le _
      · exact sound.lastTime goes b
    have noted (goes : forward) (b : LogAppenderPtr) : Dated b (Function.update s.lastTime s.logs.appenders 0 b)
        { s.updateLogs (fun logs => (logs.makeAppender kind).2) with
          stream := Function.update s.stream s.logs.appenders none,
          lastTime := Function.update s.lastTime s.logs.appenders 0 } := by
      rw [Function.update_apply]
      split_ifs
      · exact fun _ _ _ _ => Nat.zero_le _
      · exact dated b _ (sound.dated goes b)
    have files := inv.files t held inv.disk (.refl _) past noted fun _ b _ now _ => dated b now
    exact ⟨files.1, ⟨moves.logs, moves.disk, fun _ b _ now _ => dated b now, moves.records⟩, Nat.lt_succ_self _⟩
  · cases kind with
    | stdout => exact .done fun _ _ => id
    | file filename =>
      refine .bind (Q := fun _ s => a < s.logs.appenders) ?_ fun _ => .done fun _ _ => id
      exact (reopen_triple (P := fun _ => True) 0 order .true (fun _ _ _ _ _ => trivial) filename).consequence
        (fun _ _ made => ⟨trivial, made, fun _ => Nat.zero_le _⟩) fun _ _ _ after => after.2.1.1

/-! ## Loggers -/

theorem addAppender_triple (order : ∀ h ∈ held, rank root h < 1) :
    (discipline forward τ root).Triple t held (fun s => l < s.logs.loggers ∧ a < s.logs.appenders)
      (addAppender l a) fun _ _ =>
      True := by
  have known := (steady_known (τ := τ) forward root l).and (steady_made forward root a)
  have inner : ∀ h ∈ Mutex.logger l :: held, rank root h < 3 := by
    intro h member
    rcases List.mem_cons.mp member with rfl | member
    · exact (rank_logger l).2
    · exact (order h member).trans (by decide)
  refine .locked (fun h member => (order h member).trans_le (rank_logger l).1) (known.stable t _) ?_ fun _ => .true
  refine .bind (Q := fun formatter s => (l < s.logs.loggers ∧ a < s.logs.appenders) ∧
    (formatter ≠ none → Formatted a s)) ?_ fun formatter => ?_
  · have stable (formatter : Option LogFormatterPtr) (locks : List Mutex) :
        (discipline forward τ root).Stable t locks fun s =>
        (l < s.logs.loggers ∧ a < s.logs.appenders) ∧ (formatter ≠ none → Formatted a s) := by
      intro s s' inv inv' other different locks disjoint moves holds
      exact ⟨known other locks s s' inv inv' moves holds.1,
        fun had => steady_formatted forward root a other locks s s' inv inv' moves (holds.2 had)⟩
    refine .locked inner (known.stable t _) ?_ fun formatter => stable formatter _
    exact get_triple (fun s _ holds => ⟨holds, fun had => ⟨holds.2, had⟩⟩) fun formatter => stable formatter _
  refine .bind (Q := fun _ s => l < s.logs.loggers ∧ Formatted a s)
    (.when (fun _ => ?_) fun had s _ holds => ?_) fun _ => ?_
  · -- The appender has no formatter yet, and that of the logger is not null.
    have after := (steady_known (τ := τ) forward root l).and (steady_formatted forward root a)
    refine .pre (.locked inner (known.stable t _) ?_ fun _ => after.stable t _) fun _ _ holds => holds.1
    refine updateLogs_triple (fun s sound holds => ?_) (after.stable t _)
    have had := sound.ready.formatted l holds.1
    refine ⟨sound.ready.updateAppender _ rfl fun _ => had, holds.1, holds.2, ?_⟩
    dsimp only [updateLogs, logs]
    rw [Logs.updateAppender_appender, if_pos rfl]
    exact had
  · exact ⟨holds.1.1, holds.2 (by rintro rfl; cases had)⟩
  · refine updateLogs_triple (fun s sound holds =>
      ⟨sound.ready.updateLogger (fun had => had) ?_ (.inl List.mem_cons_self), trivial⟩) .true
    intro b member
    rcases List.mem_append.mp member with old | new
    · exact .inl old
    · obtain rfl := List.mem_singleton.mp new
      exact .inr holds.2

/-- A step on a logger, whose appenders may get fewer under its lock. -/
theorem updateLogger_triple {g : Logger → Logger}
    (formatter : ∀ logger : Logger, logger.formatter ≠ none → (g logger).formatter ≠ none)
    (fewer : ∀ logger, (g logger).appenders ⊆ logger.appenders)
    (lock : .logger l ∈ held ∨ ∀ logger, (g logger).appenders = logger.appenders) :
    (discipline forward τ root).Triple t held P (Program.modify (updateLogs (Logs.updateLogger l g))) fun _ _ => True :=
  updateLogs_triple (fun _ sound _ => ⟨sound.ready.updateLogger (formatter _) (fun _ member => .inl (fewer _ member))
    (lock.imp_right fun same => same _), trivial⟩) .true

theorem delAppender_triple :
    (discipline forward τ root).Triple t [] (fun _ => True) (delAppender l a) fun _ _ => True :=
  .locked (by simp) .true (updateLogger_triple (fun _ => id) (fun _ => List.erase_subset) (.inl List.mem_cons_self))
    fun _ => .true

theorem clearAppenders_triple :
    (discipline forward τ root).Triple t [] (fun _ => True) (clearAppenders l) fun _ _ => True :=
  .locked (by simp) .true
    (updateLogger_triple (fun _ => id) (fun _ => List.nil_subset _) (.inl List.mem_cons_self)) fun _ => .true

theorem setFormatter_triple {val : Option LogFormatterPtr} (given : val ≠ none) :
    (discipline forward τ root).Triple t [] (fun s => l < s.logs.loggers) (setFormatter l val) fun _ _ => True := by
  have known := steady_known (τ := τ) forward root l
  refine .locked (by simp) (known.stable t _) ?_ fun _ => .true
  refine .bind (Q := fun _ s => l < s.logs.loggers) ?_ fun _ => ?_
  · exact ((updateLogger_triple (g := fun logger => { logger with formatter := val }) (P := fun _ => True)
      (fun _ _ => given) (fun _ => List.Subset.refl _)
      (.inl List.mem_cons_self)).frame known).consequence
        (fun _ _ here => ⟨trivial, here⟩) fun _ _ _ after => after.2
  refine .bind (Q := fun _ s => l < s.logs.loggers) (get_triple (fun _ _ => id) fun _ => known.stable t _) fun all => ?_
  refine .post (.forEach (I := fun _ (s : Logging τ) => l < s.logs.loggers) all fun _ b _ _ => ?_)
    fun _ _ _ _ => trivial
  refine .locked ?_ (known.stable t _) ?_ fun _ => known.stable t _
  · intro h member
    obtain rfl := List.mem_singleton.mp member
    exact (rank_logger l).2
  refine updateLogs_triple (fun s sound here => ⟨sound.ready.inherit _ here b, ?_⟩) (known.stable t _)
  exact here.trans_le (sound.ready.inherit [] here b).2.loggers

theorem setFormatterText_triple (val : Text) :
    (discipline forward τ root).Triple t [] (fun s => l < s.logs.loggers) (setFormatterText l val) fun _ _ => True := by
  have known := steady_known (τ := τ) forward root l
  refine .bind (Q := fun _ s => l < s.logs.loggers) ?_ fun made => ?_
  · exact ((makeFormatter_triple val).frame known).consequence (fun _ _ here => ⟨trivial, here⟩)
      fun _ _ _ after => after.2
  cases made with
  | none => exact .done fun _ _ _ => trivial
  | some new_val =>
    dsimp only
    split_ifs
    · exact .done fun _ _ _ => trivial
    · exact setFormatter_triple (Option.some_ne_none new_val)

/-- A new logger is not the root. -/
theorem makeLogger_triple (order : ∀ h ∈ held, rank root h < 1) (name : Text) :
    (discipline forward τ root).Triple t held (fun _ => True) (makeLogger name) fun found s =>
      ∀ l, found = some l → l < s.logs.loggers ∧ l ≠ root := by
  refine .bind (makeFormatter_triple Logs.defaultPattern) fun made => ?_
  cases made with
  | none => exact .done fun _ _ _ _ found => by cases found
  | some formatter =>
    refine .bind (Q := fun l s => l < s.logs.loggers ∧ l ≠ root) ?_ fun l => ?_
    · refine .act (R := fun before s => before.logs.loggers < s.logs.loggers ∧ before.logs.loggers ≠ root) ?_ ?_ ?_
      · intro s sound _
        obtain ⟨inv, moves⟩ := sound.updateLogs t (f := Logs.initLogger name formatter) held
          (sound.ready.initLogger held name formatter)
        exact ⟨inv, moves, Nat.lt_succ_self _, sound.root_made.ne'⟩
      · intro before s s' inv inv' other _ locks _ moves holds
        exact ⟨holds.1.trans_le moves.logs.loggers, holds.2⟩
      · exact fun before => .done fun _ _ => id
    have known := steady_known (τ := τ) forward root l
    refine .bind (Q := fun _ s => l < s.logs.loggers ∧ l ≠ root) (.when (fun _ => ?_) fun _ _ _ => id) fun _ => ?_
    · -- A logger of the name `root` gets an appender.
      have low : ∀ h ∈ held, rank root h < 3 := fun h member => (order h member).trans (by decide)
      have steady : (discipline forward τ root).Steady fun s => l < s.logs.loggers ∧ l ≠ root := by
        intro t locks s s' inv inv' moves holds
        exact ⟨holds.1.trans_le moves.logs.loggers, holds.2⟩
      refine .bind (Q := fun a s => a < s.logs.appenders ∧ l < s.logs.loggers ∧ l ≠ root) ?_ fun a => ?_
      · exact ((makeAppender_triple low .stdout).frame steady).pre fun _ _ here => ⟨trivial, here⟩
      · exact ((addAppender_triple order).frame steady).consequence (fun _ _ here => ⟨⟨here.2.1, here.1⟩, here.2⟩)
          fun _ _ _ after => after.2
    · refine .done fun s _ holds k found => ?_
      obtain rfl := Option.some.inj found
      exact holds

theorem getLogger_triple (name : Text) :
    (discipline forward τ root).Triple t [] (fun _ => True) (getLogger name) fun _ _ => True := by
  unfold getLogger
  split_ifs
  · exact get_triple (fun _ _ _ => trivial) fun _ => .true
  refine .locked (by simp) .true ?_ fun _ => .true
  refine .bind (Q := fun _ _ => True) (get_triple (fun _ _ _ => trivial) fun _ => .true) fun found => ?_
  cases found with
  | some l => exact .done fun _ _ _ => trivial
  | none =>
    refine .bind (makeLogger_triple (by simp [rank]) name) fun made => ?_
    cases made with
    | none => exact .done fun _ _ _ => trivial
    | some l =>
      have known := steady_known (τ := τ) forward root l
      refine .bind (Q := fun _ s => l < s.logs.loggers) (.modify (fun s sound holds => ?_) (known.stable t _)) fun _ =>
        .bind (Q := fun _ _ => True) (.modify (fun s sound holds => ?_) .true) fun _ => .done fun _ _ _ => trivial
      · obtain ⟨here, different⟩ := holds l rfl
        have chain (k r : LoggerPtr) (chained : Function.update s.fallback l (some s.manager.root) k = some r) :
            r = root ∧ k ≠ root := by
          rw [Function.update_apply] at chained
          split_ifs at chained with same
          · exact ⟨(Option.some.inj chained).symm.trans sound.root_eq, same ▸ different⟩
          · exact sound.fallback k r chained
        obtain ⟨inv, moves⟩ := sound.registry t [.manager] s.names sound.found chain
        exact ⟨inv, moves, here⟩
      · have found (other : Text) (k : LoggerPtr)
            (there : Function.update s.manager.loggers name (some l) other = some k) : k < s.logs.loggers := by
          rw [Function.update_apply] at there
          split_ifs at there
          · exact Option.some.inj there ▸ holds
          · exact sound.found other k there
        obtain ⟨inv, moves⟩ := sound.registry t [.manager] (insertName name s.names) found sound.fallback
        exact ⟨inv, moves, trivial⟩

/-! ## Text forms -/

theorem appenderToYamlString_triple (y : Yaml) (order : ∀ h ∈ held, rank root h < 3) :
    (discipline forward τ root).Triple t held (fun _ => True) (appenderToYamlString y a) fun _ _ => True :=
  .locked order .true (get_triple (fun _ _ _ => trivial) fun _ => .true) fun _ => .true

theorem toYamlString_triple (y : Yaml) (order : ∀ h ∈ held, rank root h < 1) :
    (discipline forward τ root).Triple t held (fun _ => True) (toYamlString y l) fun _ _ => True := by
  refine .locked (fun h member => (order h member).trans_le (rank_logger l).1) .true ?_ fun _ => .true
  refine .bind (Q := fun _ _ => True) (get_triple (fun _ _ _ => trivial) fun _ => .true) fun logger => ?_
  refine .bind (Q := fun _ _ => True) (.collect _ (fun b _ => ?_) fun _ _ _ => id) fun _ => .done fun _ _ _ => trivial
  refine .bind (Q := fun _ _ => True) (appenderToYamlString_triple y fun h member => ?_)
    fun _ => .done fun _ _ _ => trivial
  rcases List.mem_cons.mp member with rfl | member
  · exact (rank_logger l).2
  · exact (order h member).trans (by decide)

theorem managerToYamlString_triple (y : Yaml) :
    (discipline forward τ root).Triple t [] (fun _ => True) (managerToYamlString y) fun _ _ => True := by
  refine .locked (by simp) .true ?_ fun _ => .true
  refine .bind (Q := fun _ _ => True) (get_triple (fun _ _ _ => trivial) fun _ => .true) fun all => ?_
  refine .bind (Q := fun _ _ => True) (.collect _ (fun l _ => ?_) fun _ _ _ => id) fun _ => .done fun _ _ _ => trivial
  exact .bind (Q := fun _ _ => True) (toYamlString_triple y (by simp [rank])) fun _ => .done fun _ _ _ => trivial

end Sylar.Logging
