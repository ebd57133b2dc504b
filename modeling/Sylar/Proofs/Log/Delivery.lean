import Mathlib.Data.List.Forall2
import Sylar.Proofs.Log.Calls

/-! # What becomes of an event

A call of `log` leaves a record of its thread for each appender of the logger, in their order, or says why nobody was
asked. The appenders are the same at each of the records: nobody can add or remove one while the event is delivered.
-/

namespace Sylar.Logging

open Discipline (Triple Stable)

variable {forward : Prop} {τ : Type} [DecidableEq τ] {root : LoggerPtr} {t : τ} {held : List Mutex} {l : LoggerPtr}
  {a : LogAppenderPtr} {s s' : Logging τ} {line : LogFormatter → Text}

/-! ## The records of a thread -/

/-- What a thread has recorded. -/
def mine (t : τ) (s : Logging τ) : List (LoggerPtr × Entry) :=
  (s.records.filter fun record => record.thread = t).map fun record => (record.logger, record.entry)

theorem mine_record (t : τ) (l : LoggerPtr) (entry : Entry) (s : Logging τ) :
    mine t (s.record t l entry) = mine t s ++ [(l, entry)] := by
  simp [mine, record]

/-- What an appender of the class makes of an event. -/
inductive Answers (line : LogFormatter → Text) : LogAppender.Kind → Answer → Prop
  | refused (kind : LogAppender.Kind) : Answers line kind .refused
  | console (f : LogFormatter) : Answers line .stdout (.console (line f))
  | file (filename : Text) (f : LogFormatter) (file : Option ℕ) (now : ℕ) :
      Answers line (.file filename) (.file file now (line f))

/-- The class of an appender that has been made. -/
def classOf (s : Logging τ) (a : LogAppenderPtr) : Option LogAppender.Kind :=
  if a < s.logs.appenders then some (s.logs.appender a).kind else none

/-- The records of a call of `log` of a logger, where the appenders are of these classes. -/
inductive Logged (class_ : LogAppenderPtr → Option LogAppender.Kind) (line : LogFormatter → Text) :
    LoggerPtr → List (LoggerPtr × Entry) → Prop
  | lower (l : LoggerPtr) : Logged class_ line l [(l, .lower)]
  | unheard (l : LoggerPtr) : Logged class_ line l [(l, .unheard)]
  | forwarded {l root : LoggerPtr} {rest : List (LoggerPtr × Entry)} : Logged class_ line root rest →
      Logged class_ line l ((l, .forwarded root) :: rest)
  | asked {l : LoggerPtr} {appenders : List LogAppenderPtr} {answers : List Answer} : appenders ≠ [] →
      List.Forall₂ (fun a answer => ∃ kind, class_ a = some kind ∧ Answers line kind answer) appenders answers →
      Logged class_ line l (List.zipWith (fun a answer => (l, Entry.asked appenders a answer)) appenders answers)

theorem Logged.mono {class_ class' : LogAppenderPtr → Option LogAppender.Kind} {records : List (LoggerPtr × Entry)}
    (more : ∀ a kind, class_ a = some kind → class' a = some kind) (logged : Logged class_ line l records) :
    Logged class' line l records := by
  induction logged with
  | lower l => exact .lower l
  | unheard l => exact .unheard l
  | forwarded _ ih => exact .forwarded ih
  | asked some_ answers =>
    refine .asked some_ (answers.imp fun a answer => ?_)
    rintro ⟨kind, known, answers⟩
    exact ⟨kind, more a kind known, answers⟩

/-! ## One appender -/

/-- The logger has these appenders, and this is what the thread has recorded. -/
structure Delivering (t : τ) (l : LoggerPtr) (appenders : List LogAppenderPtr)
    (kind : LogAppenderPtr → LogAppender.Kind) (said : List (LoggerPtr × Entry)) (s : Logging τ) : Prop where
  known : l < s.logs.loggers
  same : (s.logs.logger l).appenders = appenders
  classes : ∀ a ∈ appenders, (s.logs.appender a).kind = kind a
  recorded : mine t s = said

variable {appenders : List LogAppenderPtr} {kind : LogAppenderPtr → LogAppender.Kind}
  {said : List (LoggerPtr × Entry)}

theorem mine_moves {other : τ} (moves : Moves forward other held s s') (different : other ≠ t) :
    mine t s' = mine t s := by
  obtain ⟨new, records, theirs⟩ := moves.records
  have none_mine : new.filter (fun record => record.thread = t) = [] := by
    rw [List.filter_eq_nil_iff]
    intro record member
    simpa [theirs record member] using different
  rw [mine, records, List.filter_append, none_mine, List.append_nil]
  rfl

theorem stable_mine : (discipline forward τ root).Stable t held fun s => mine t s = said := by
  intro s s' _ _ other different _ _ moves same
  exact (mine_moves moves different).trans same

/-- Under the lock of the logger nobody changes its appenders. -/
theorem stable_delivering (locked : .logger l ∈ held) :
    (discipline forward τ root).Stable t held (Delivering t l appenders kind said) := by
  intro s s' inv _ other different locks disjoint moves here
  refine ⟨here.known.trans_le moves.logs.loggers, ?_, fun a member => ?_, ?_⟩
  · rw [moves.logs.kept l here.known fun member => disjoint member locked]
    exact here.same
  · have made := (inv.ready.attached l a (here.same ▸ member)).1
    exact (moves.logs.kind a made).trans (here.classes a member)
  · exact (mine_moves moves different).trans here.recorded

theorem Delivering.apart : Apart (Delivering t l appenders kind said) :=
  fun _ _ _ _ here => ⟨here.known, here.same, here.classes, here.recorded⟩

/-- An answer is recorded. -/
theorem Delivering.answer (here : Delivering t l appenders kind said s) (a : LogAppenderPtr) (answer : Answer) :
    Delivering t l appenders kind (said ++ [(l, .asked appenders a answer)]) (s.answer t l a answer) where
  known := here.known
  same := here.same
  classes := here.classes
  recorded := by
    rw [Logging.answer, mine_record, here.recorded, here.same]

/-- An answer of the appender has been recorded. -/
def Answered (t : τ) (l : LoggerPtr) (appenders : List LogAppenderPtr) (kind : LogAppenderPtr → LogAppender.Kind)
    (line : LogFormatter → Text) (said : List (LoggerPtr × Entry)) (a : LogAppenderPtr) (s : Logging τ) : Prop :=
  ∃ answer, Answers line (kind a) answer ∧
    Delivering t l appenders kind (said ++ [(l, .asked appenders a answer)]) s

theorem stable_answered (locked : .logger l ∈ held) :
    (discipline forward τ root).Stable t held (Answered t l appenders kind line said a) := by
  rintro s s' inv inv' other different locks disjoint moves ⟨answer, answers, here⟩
  exact ⟨answer, answers, stable_delivering locked s s' inv inv' other different locks disjoint moves here⟩

theorem ifAccepted_triple {level : LogLevel} {block : Code τ Unit} (locked : .logger l ∈ held)
    (accepted : (discipline forward τ root).Triple t held (Delivering t l appenders kind said) block fun _ =>
      Answered t l appenders kind line said a) :
    (discipline forward τ root).Triple t held (Delivering t l appenders kind said)
      (ifAccepted t l a level block) fun _ =>
      Answered t l appenders kind line said a := by
  refine .act (R := fun before s => if level ≥ (before.logs.appender a).level then Delivering t l appenders kind said s
    else Answered t l appenders kind line said a s) (fun s sound here => ?_) (fun before => ?_) fun before => ?_
  · split_ifs
    · exact ⟨sound, .refl t held s, here⟩
    · obtain ⟨inv, moves⟩ := sound.record t held l (.asked (s.logs.logger l).appenders a .refused) fun _ => trivial
      exact ⟨inv, moves, .refused, .refused _, here.answer a .refused⟩
  · split_ifs
    · exact stable_delivering locked
    · exact stable_answered locked
  · split_ifs
    · exact accepted
    · exact .done fun _ _ => id

/-- The line is written with the formatter that the appender has then. -/
theorem write_triple {sink : Logging τ → Text → Answer} {P : Logging τ → Prop} (locked : .logger l ∈ held)
    (member : a ∈ appenders)
    (fits : ∀ s f, Sound forward root s → P s →
      Answers line (kind a) (sink s (line f)) ∧ (forward → (sink s (line f)).Dated s.disk)) :
    (discipline forward τ root).Triple t held (fun s => Delivering t l appenders kind said s ∧ P s)
      (write t l a line sink)
      fun _ => Answered t l appenders kind line said a := by
  refine .act (R := fun before s => (before.logs.appender a).formatter ≠ none ∧
      Answered t l appenders kind line said a s)
    (fun s sound here => ?_) (fun before => ?_) fun before => ?_
  · obtain ⟨formatter, had⟩ := Option.ne_none_iff_exists'.mp
      (sound.ready.attached l a (here.1.same.symm ▸ member)).2
    obtain ⟨answers, dated⟩ := fits s formatter.object sound here.2
    obtain ⟨inv, moves⟩ := sound.record t held l
      (.asked (s.logs.logger l).appenders a (sink s (line formatter.object))) dated
    rw [had]
    exact ⟨inv, moves, Option.some_ne_none _, _, answers, here.1.answer a _⟩
  · intro s s' inv inv' other different locks disjoint moves holds
    exact ⟨holds.1, stable_answered locked s s' inv inv' other different locks disjoint moves holds.2⟩
  · cases had : (before.logs.appender a).formatter with
    | some _ => exact .done fun _ _ holds => holds.2
    | none => exact fun _ _ holds => absurd rfl holds.1

section Log

variable {strftime : Text → BitVec 64 → Text} {level : LogLevel} {event : LogEvent}

/-- What a formatter makes of the event. -/
def lineOf (strftime : Text → BitVec 64 → Text) (level : LogLevel) (event : LogEvent) (f : LogFormatter) : Text :=
  f.format strftime level event

theorem stdoutLog_triple (order : ∀ h ∈ held, rank root h < 3) (locked : .logger l ∈ held) (member : a ∈ appenders)
    (console : kind a = .stdout) :
    (discipline forward τ root).Triple t held (Delivering t l appenders kind said)
      (stdoutLog strftime t level event l a)
      fun _ => Answered t l appenders kind (lineOf strftime level event) said a := by
  have inner := List.mem_cons_of_mem (Mutex.appender a) locked
  refine ifAccepted_triple locked (.locked order (stable_delivering inner) ?_ fun _ => stable_answered locked)
  refine (write_triple (P := fun _ => True) inner member fun s f _ _ => ?_).pre fun _ _ here => ⟨here, trivial⟩
  rw [console]
  exact ⟨.console f, fun _ => trivial⟩

theorem fileLog_triple {filename : Text} (order : ∀ h ∈ held, rank root h < 3) (locked : .logger l ∈ held)
    (member : a ∈ appenders) (file : kind a = .file filename) :
    (discipline forward τ root).Triple t held (Delivering t l appenders kind said)
      (fileLog strftime t level event filename l a)
      fun _ => Answered t l appenders kind (lineOf strftime level event) said a := by
  have inner := List.mem_cons_of_mem (Mutex.appender a) locked
  have delivering : (discipline forward τ root).Stable t held (Delivering t l appenders kind said) :=
    stable_delivering locked
  refine ifAccepted_triple locked ?_
  refine .bind (Q := fun now s => Delivering t l appenders kind said s ∧ MadeBy forward a now s) (get_triple ?_ ?_)
    fun now => ?_
  · intro s sound here
    exact ⟨here, (sound.ready.attached l a (here.same.symm ▸ member)).1, fun _ => Nat.le_refl _⟩
  · exact fun now => delivering.and (steady_madeBy.stable t held)
  have dated : (discipline forward τ root).Stable t held fun s =>
      Delivering t l appenders kind said s ∧ MadeBy forward a now s ∧ (forward → Dated a now s) :=
    delivering.and (steady_dated.stable t held)
  -- If this second is noted already, the stream has been opened in it.
  refine .bind (Q := fun lastTime s => Delivering t l appenders kind said s ∧ MadeBy forward a now s ∧
    (lastTime = now → forward → Dated a now s)) (get_triple ?_ ?_) fun lastTime => ?_
  · intro s sound here
    exact ⟨here.1, here.2, fun same goes => same ▸ sound.dated goes a⟩
  · intro lastTime
    by_cases same : lastTime = now
    · intro s s' inv inv' other different locks disjoint moves holds
      have after := dated s s' inv inv' other different locks disjoint moves ⟨holds.1, holds.2.1, holds.2.2 same⟩
      exact ⟨after.1, after.2.1, fun _ => after.2.2⟩
    · intro s s' inv inv' other different locks disjoint moves holds
      have after := (delivering.and (steady_madeBy.stable t held)) s s' inv inv' other different locks disjoint moves
        ⟨holds.1, holds.2.1⟩
      exact ⟨after.1, after.2, fun here => absurd here same⟩
  refine .bind (Q := fun _ s => Delivering t l appenders kind said s ∧ MadeBy forward a now s ∧
    (forward → Dated a now s)) (.when ?_ ?_) fun _ => ?_
  · intro _
    refine .bind ((reopen_triple now order delivering Delivering.apart filename).pre fun _ _ holds =>
      ⟨holds.1, holds.2.1⟩) fun _ => files_triple _ _ _ (fun s sound holds => ?_) dated
    have noted (goes : forward) (b : LogAppenderPtr) : Function.update s.lastTime a now b ≤ s.disk.clock ∧
        Dated b (Function.update s.lastTime a now b) s := by
      rw [Function.update_apply]
      split_ifs with same
      · exact ⟨holds.2.1.2 goes, same ▸ holds.2.2 goes⟩
      · exact ⟨sound.lastTime goes b, sound.dated goes b⟩
    exact ⟨sound.disk, .refl _, fun goes b => (noted goes b).1, fun goes b => (noted goes b).2, fun _ _ _ _ _ => id,
      Delivering.apart _ _ _ _ holds.1, holds.2⟩
  · intro same s _ holds
    exact ⟨holds.1, holds.2.1, holds.2.2 (not_not.mp (decide_eq_false_iff_not.mp same)).symm⟩
  · refine .locked order (dated.mono (List.subset_cons_self _ _)) ?_ fun _ => stable_answered locked
    refine write_triple inner member fun s f _ holds => ?_
    rw [file]
    refine ⟨.file filename f (s.stream a) now, fun goes => ?_⟩
    cases opened : s.stream a with
    | none => trivial
    | some n => exact ⟨holds.1.2 goes, holds.2 goes n opened⟩

theorem appenderLog_triple (order : ∀ h ∈ held, rank root h < 3) (locked : .logger l ∈ held) (member : a ∈ appenders) :
    (discipline forward τ root).Triple t held (Delivering t l appenders kind said)
      (appenderLog strftime t level event l a)
      fun _ => Answered t l appenders kind (lineOf strftime level event) said a := by
  refine .bind (Q := fun class_ s => class_ = kind a ∧ Delivering t l appenders kind said s) ?_ fun class_ => ?_
  · refine get_triple (fun s _ here => ⟨here.classes a member, here⟩) fun class_ => ?_
    intro s s' inv inv' other different locks disjoint moves holds
    exact ⟨holds.1, stable_delivering locked s s' inv inv' other different locks disjoint moves holds.2⟩
  · cases class_ with
    | stdout =>
      intro s inv holds
      exact stdoutLog_triple order locked member holds.1.symm s inv holds.2
    | file filename =>
      intro s inv holds
      exact fileLog_triple order locked member holds.1.symm s inv holds.2

/-! ## One logger -/

/-- A call of `log` of the logger has been recorded. -/
def Recorded (t : τ) (line : LogFormatter → Text) (l : LoggerPtr) (said : List (LoggerPtr × Entry)) (s : Logging τ) :
    Prop :=
  ∃ records, mine t s = said ++ records ∧ Logged (classOf s) line l records

theorem stable_recorded : (discipline forward τ root).Stable t held (Recorded t line l said) := by
  rintro s s' _ _ other different _ _ moves ⟨records, same, logged⟩
  refine ⟨records, (mine_moves moves different).trans same, logged.mono fun a kind known => ?_⟩
  unfold classOf at known ⊢
  split_ifs at known with made
  rw [if_pos (made.trans_le moves.logs.appenders), moves.logs.kind a made]
  exact known

/-- The logger and what the thread has recorded. -/
def Before (t : τ) (l : LoggerPtr) (said : List (LoggerPtr × Entry)) (s : Logging τ) : Prop :=
  l < s.logs.loggers ∧ mine t s = said

theorem stable_before : (discipline forward τ root).Stable t held (Before t l said) :=
  ((steady_known forward root l).stable t held).and stable_mine

/-- All appenders of the logger are asked. -/
theorem deliver_triple (order : ∀ h ∈ held, rank root h < 3) (locked : .logger l ∈ held) (some_ : appenders ≠ []) :
    (discipline forward τ root).Triple t held (Delivering t l appenders kind said)
      (Program.forEach (appenderLog strftime t level event l) appenders) fun _ =>
        Recorded t (lineOf strftime level event) l said := by
  let asked (a : LogAppenderPtr) (answer : Answer) : LoggerPtr × Entry := (l, .asked appenders a answer)
  let I (done : List LogAppenderPtr) (s : Logging τ) : Prop := ∃ answers,
    List.Forall₂ (fun a answer => Answers (lineOf strftime level event) (kind a) answer) done answers ∧
      Delivering t l appenders kind (said ++ List.zipWith asked done answers) s
  refine (Triple.forEach (I := I) appenders fun before a after split => ?_).consequence (fun s _ here => ?_)
    fun _ s sound holds => ?_
  · refine .exists_pre fun answers => ?_
    intro s inv holds
    have member : a ∈ appenders := split ▸ List.mem_append_right _ List.mem_cons_self
    refine (appenderLog_triple order locked member).post ?_ s inv holds.2
    rintro _ s _ ⟨answer, fits, here⟩
    refine ⟨answers ++ [answer], List.rel_append holds.1 (.cons fits .nil), ?_⟩
    rw [List.zipWith_append holds.1.length_eq, ← List.append_assoc]
    exact here
  · exact ⟨[], .nil, by simpa [asked] using here⟩
  · obtain ⟨answers, fits, here⟩ := holds
    refine ⟨_, here.recorded, .asked some_ ?_⟩
    refine List.forall₂_iff_get.mpr ⟨fits.length_eq, fun i before after => ?_⟩
    have member := List.get_mem appenders ⟨i, before⟩
    have made := (sound.ready.attached l _ (by rw [here.same]; exact member)).1
    refine ⟨kind (appenders.get ⟨i, before⟩), ?_, fits.get before after⟩
    rw [classOf, if_pos made, here.classes _ member]

/-- `log` of a logger, if `log` of the root is as it should be. -/
theorem log_triple_of {depth : ℕ} (order : ∀ h ∈ held, rank root h < rank root (.logger l))
    (rootLog : ∀ said, l ≠ root → (discipline forward τ root).Triple t (.logger l :: held) (Before t root said)
      (log strftime t level event depth root) fun _ => Recorded t (lineOf strftime level event) root said) :
    (discipline forward τ root).Triple t held (Before t l said) (log strftime t level event (depth + 1) l) fun _ =>
      Recorded t (lineOf strftime level event) l said := by
  have inner : ∀ h ∈ Mutex.logger l :: held, rank root h < 3 := by
    intro h member
    rcases List.mem_cons.mp member with rfl | member
    · exact (rank_logger l).2
    · exact (order h member).trans (rank_logger l).2
  refine .act (R := fun before s => if level ≥ (before.logs.logger l).level then Before t l said s
    else Recorded t (lineOf strftime level event) l said s) (fun s sound here => ?_) (fun before => ?_) fun before => ?_
  · split_ifs
    · exact ⟨sound, .refl t held s, here⟩
    · obtain ⟨inv, moves⟩ := sound.record t held l (.lower) fun _ => trivial
      exact ⟨inv, moves, [(l, .lower)], by rw [mine_record, here.2], .lower l⟩
  · split_ifs
    · exact stable_before
    · exact stable_recorded
  split_ifs
  swap
  · exact .done fun _ _ => id
  refine .locked order stable_before ?_ fun _ => stable_recorded
  refine .bind (Q := fun appenders s => ∃ kind, Delivering t l appenders kind said s) (get_triple ?_ ?_) fun all => ?_
  · intro s _ here
    exact ⟨fun a => (s.logs.appender a).kind, here.1, rfl, fun _ _ => rfl, here.2⟩
  · exact fun all => .exists fun kind => stable_delivering List.mem_cons_self
  split_ifs with some_
  · exact .exists_pre fun kind => deliver_triple inner List.mem_cons_self some_
  -- There are no appenders, and the root is the only logger that `m_root` can point to.
  refine .act (R := fun before s =>
      (∀ k, before.fallback l = some k → k = root ∧ l ≠ root ∧ Before t root (said ++ [(l, .forwarded root)]) s) ∧
      (before.fallback l = none → Recorded t (lineOf strftime level event) l said s))
    (fun s sound here => ?_) (fun before => ?_) fun before => ?_
  · obtain ⟨kind, here⟩ := here
    cases chained : s.fallback l with
    | some k =>
      obtain ⟨rfl, different⟩ := sound.fallback l k chained
      obtain ⟨inv, moves⟩ := sound.record t (.logger l :: held) l (.forwarded k) fun _ => trivial
      refine ⟨inv, moves, fun k same => ?_, fun none_ => by cases none_⟩
      exact ⟨(Option.some.inj same).symm, different, inv.root_made, by rw [mine_record, here.recorded]⟩
    | none =>
      obtain ⟨inv, moves⟩ := sound.record t (.logger l :: held) l (.unheard) fun _ => trivial
      refine ⟨inv, moves, ?_, fun _ => ?_⟩
      · intro k same
        cases same
      exact ⟨[(l, .unheard)], by rw [mine_record, here.recorded], .unheard l⟩
  · intro s s' inv inv' other different locks disjoint moves holds
    refine ⟨fun k same => ?_, fun same =>
      stable_recorded s s' inv inv' other different locks disjoint moves (holds.2 same)⟩
    obtain ⟨rfl, apart, here⟩ := holds.1 k same
    exact ⟨rfl, apart, stable_before s s' inv inv' other different locks disjoint moves here⟩
  · cases before.fallback l with
    | some k =>
      intro s inv holds
      obtain ⟨rfl, different, holds⟩ := holds.1 k rfl
      refine (rootLog _ different).post ?_ s inv holds
      rintro _ s _ ⟨records, same, logged⟩
      exact ⟨(l, .forwarded k) :: records, by rw [same, List.append_assoc]; rfl, .forwarded logged⟩
    | none => exact .done fun _ _ holds => holds.2 rfl

/-- `Logger::log`: the chain of `m_root` ends at the root. -/
theorem log_triple : (discipline forward τ root).Triple t [] (Before t l said) (log strftime t level event 2 l) fun _ =>
    Recorded t (lineOf strftime level event) l said := by
  refine log_triple_of (by simp) fun said different => log_triple_of ?_ fun _ same => absurd rfl same
  intro h member
  obtain rfl := List.mem_singleton.mp member
  simp [rank, different]

/-- What `SYLAR_LOG_LEVEL` expands to. -/
theorem logLevel_triple :
    (discipline forward τ root).Triple t [] (Before t l said) (logLevel strftime t level event l) fun _ s =>
    mine t s = said ∨ ∃ event, Recorded t (lineOf strftime level event) l said s := by
  have stable : (discipline forward τ root).Stable t [] (Before t l said) := stable_before
  refine .bind (Q := fun _ => Before t l said) (get_triple (fun _ _ => id) fun _ => stable) fun loggerLevel => ?_
  refine .when (fun _ => ?_) fun _ _ _ here => .inl here.2
  refine .bind (Q := fun _ => Before t l said) (get_triple (fun _ _ => id) fun _ => stable) fun loggerName => ?_
  exact log_triple.post fun _ _ _ recorded => .inr ⟨_, recorded⟩

end Log

end Sylar.Logging
