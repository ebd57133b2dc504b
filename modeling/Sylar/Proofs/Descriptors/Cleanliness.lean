import Sylar.Model.Descriptors
import Sylar.Proofs.FdCtx.Timeouts
import Sylar.Proofs.IOManager.Cancelling
import Sylar.Proofs.IOManager.Ledger

/-! # Nothing of a descriptor outlives its number

The kernel gives a number again as soon as it is closed, and both tables are indexed by the number. As long as a
descriptor is used between its opening and its closing only and is closed with the hooks enabled, whatever the tables had
for it is gone before the number is: the steps of the `IOManager` are a run of its own, in which no registration is left
behind.
-/

namespace Sylar.Descriptors

open IOManager (Handoff Event Consistent Owned Effect Moves Ledger)

variable {κ : Type} {kernel : SockKernel κ} {s t : Descriptors κ} {thread fd : ℕ} {a : Action κ}

/-! ## What one step does -/

theorem phase_enter (thread other : ℕ) (p : Phase) (s : Descriptors κ) :
    (s.enter thread p).phase other = if other = thread then p else s.phase other :=
  Function.update_apply s.phase thread p other

theorem file_setFile (fd other : ℕ) (file : Option κ) (s : Descriptors κ) :
    (s.setFile fd file).file other = if other = fd then file else s.file other :=
  Function.update_apply s.file fd file other

theorem datas_setCtx (fd other : ℕ) (ctx : Option FdCtx) (s : Descriptors κ) :
    (s.setCtx fd ctx).datas other = if other = fd then ctx else s.datas other :=
  Function.update_apply s.datas fd ctx other

/-- The step with what it has tested. -/
inductive Did (kernel : SockKernel κ) (s : Descriptors κ) : Action κ → Descriptors κ → Prop
  | opened {thread fd : ℕ} {k : κ} {managed : Bool} : s.phase thread = .idle → s.file fd = none →
      Did kernel s (.opened thread fd k managed)
        ((s.setFile fd (some k)).enter thread (if managed then .testing fd else .idle))
  | test {thread fd : ℕ} : s.phase thread = .testing fd →
      Did kernel s (.test thread fd) (s.enter thread (if (s.datas fd).isSome then .idle else .storing fd))
  | store {thread fd : ℕ} {k : κ} : s.phase thread = .storing fd → s.file fd = some k →
      Did kernel s (.store thread fd)
        (((s.setCtx fd (Descriptor.manage kernel.toKernel k).ctx).setFile fd
          (some (Descriptor.manage kernel.toKernel k).kernel)).enter thread .idle)
  | close {thread fd : ℕ} {hookEnable iom : Bool} : s.phase thread = .idle →
      Did kernel s (.close thread fd hookEnable iom) (s.enter thread
        (if hookEnable && (s.datas fd).isSome then (if iom then .cancelling fd else .deleting fd) else .closing fd))
  | cancelAll {thread fd : ℕ} {granted result : Bool} {iom : IOManager} : s.phase thread = .cancelling fd →
      IOManager.perform (.cancelAll fd granted) s.iom = .ok (result, iom) →
      Did kernel s (.cancelAll thread fd granted) (enter thread (.deleting fd) { s with iom })
  | del {thread fd : ℕ} : s.phase thread = .deleting fd →
      Did kernel s (.del thread fd) ((s.setCtx fd none).enter thread (.closing fd))
  | closeF {thread fd : ℕ} : s.phase thread = .closing fd →
      Did kernel s (.closeF thread fd)
        (({ s with iom := { s.iom with epoll := Function.update s.iom.epoll fd none } }.setFile fd none).enter
          thread .idle)
  | call {fd : ℕ} {k : κ} {c : Descriptor.SockCall} {result : BitVec 32} {d : Descriptor κ} : s.file fd = some k →
      (s.descriptor fd k).sockCall kernel c = some (result, d) →
      Did kernel s (.call fd c) ((s.setCtx fd d.ctx).setFile fd (some d.kernel))
  | request {r : IOManager.Request} {result : Bool} {iom : IOManager} :
      IOManager.perform r s.iom = .ok (result, iom) → Did kernel s (.request r) { s with iom }

theorem request_eq_some {r : IOManager.Request} (done : s.request r = some t) :
    ∃ result iom, IOManager.perform r s.iom = .ok (result, iom) ∧ t = { s with iom } := by
  unfold request at done
  split at done
  · rename_i result iom ran
    exact ⟨result, iom, ran, (Option.some.inj done).symm⟩
  · cases done

theorem did_of_step (step : (machine kernel).Step s a t) : Did kernel s a t := by
  change perform kernel s a = some t at step
  cases a with
  | opened thread fd k managed =>
    simp only [perform] at step
    split at step
    next free =>
      obtain rfl := Option.some.inj step
      exact .opened free.1 free.2
    · cases step
  | test thread fd =>
    simp only [perform] at step
    split at step
    next here =>
      obtain rfl := Option.some.inj step
      exact .test here
    · cases step
  | store thread fd =>
    simp only [perform] at step
    split at step
    · rename_i k found
      split at step
      next here =>
        obtain rfl := Option.some.inj step
        exact .store here found
      · cases step
    · cases step
  | close thread fd hookEnable iom =>
    simp only [perform] at step
    split at step
    next here =>
      obtain rfl := Option.some.inj step
      exact .close here
    · cases step
  | cancelAll thread fd granted =>
    simp only [perform] at step
    split at step
    next here =>
      obtain ⟨u, done, rfl⟩ := Option.map_eq_some_iff.mp step
      obtain ⟨result, iom, ran, rfl⟩ := request_eq_some done
      exact .cancelAll here.1 ran
    · cases step
  | del thread fd =>
    simp only [perform] at step
    split at step
    next here =>
      obtain rfl := Option.some.inj step
      exact .del here
    · cases step
  | closeF thread fd =>
    simp only [perform] at step
    split at step
    next here =>
      obtain rfl := Option.some.inj step
      exact .closeF here
    · cases step
  | call fd c =>
    simp only [perform] at step
    split at step
    · rename_i k found
      obtain ⟨⟨result, d⟩, ran, rfl⟩ := Option.map_eq_some_iff.mp step
      exact .call found ran
    · cases step
  | request r =>
    simp only [perform] at step
    split at step
    · obtain ⟨result, iom, ran, rfl⟩ := request_eq_some step
      exact .request ran
    · cases step

/-! ## What the tables have while a number is opened or closed -/

/-- The number `m_datas` has nothing for. -/
def Phase.bare : Phase → Option ℕ
  | .testing fd => some fd
  | .storing fd => some fd
  | .closing fd => some fd
  | _ => none

/-- The number nothing is registered on. -/
def Phase.quiet : Phase → Option ℕ
  | .testing fd => some fd
  | .storing fd => some fd
  | .deleting fd => some fd
  | .closing fd => some fd
  | _ => none

theorem Phase.about_of_bare {p : Phase} (bare : p.bare = some fd) : p.about = some fd := by
  cases p <;> first | exact bare | cases bare

theorem Phase.about_of_quiet {p : Phase} (quiet : p.quiet = some fd) : p.about = some fd := by
  cases p <;> first | exact quiet | cases quiet

/-- One thread at most opens or closes a number, which is open then; a closed number has no context and no
registration, and a number that is being opened or closed has lost them as far as its thread has come. -/
structure Sound (s : Descriptors κ) : Prop where
  consistent : Consistent s.iom
  owned : Owned s.iom
  alone : ∀ thread other fd, (s.phase thread).about = some fd → (s.phase other).about = some fd → thread = other
  present : ∀ thread fd, (s.phase thread).about = some fd → s.file fd ≠ none
  bare : ∀ thread fd, (s.phase thread).bare = some fd → s.datas fd = none
  quiet : ∀ thread fd, (s.phase thread).quiet = some fd → ∀ event, s.iom.slot fd event = none
  closedBare : ∀ fd, s.file fd = none → s.datas fd = none
  closedQuiet : ∀ fd, s.file fd = none → ∀ event, s.iom.slot fd event = none

namespace Sound

theorem new : Sound (.new : Descriptors κ) where
  consistent := IOManager.new_consistent
  owned := by
    intro fd event handoff held
    cases event <;> cases held
  alone := by
    intro thread other fd about
    cases about
  present := by
    intro thread fd about
    cases about
  bare := fun _ _ _ => rfl
  quiet := by
    intro thread fd quiet
    cases quiet
  closedBare := fun _ _ => rfl
  closedQuiet := by
    intro fd _ event
    cases event <;> rfl

/-- A closed number is nobody's. -/
theorem free_of_closed (sound : Sound s) (closed : s.file fd = none) : s.Free fd :=
  fun thread about => sound.present thread fd about closed

/-- A thread goes on to a phase whose number is open and its own. -/
theorem enter (sound : Sound s) (thread : ℕ) {p : Phase}
    (own : ∀ fd, p.about = some fd → s.file fd ≠ none ∧ ∀ other, (s.phase other).about = some fd → other = thread)
    (bare : ∀ fd, p.bare = some fd → s.datas fd = none)
    (quiet : ∀ fd, p.quiet = some fd → ∀ event, s.iom.slot fd event = none) : Sound (s.enter thread p) := by
  have at_self : (s.enter thread p).phase thread = p := by rw [phase_enter, if_pos rfl]
  have at_other {other : ℕ} (different : other ≠ thread) : (s.enter thread p).phase other = s.phase other := by
    rw [phase_enter, if_neg different]
  refine ⟨sound.consistent, sound.owned, ?_, ?_, ?_, ?_, sound.closedBare, sound.closedQuiet⟩
  · intro first second fd here there
    by_cases firstSelf : first = thread <;> by_cases secondSelf : second = thread
    · rw [firstSelf, secondSelf]
    · rw [firstSelf, at_self] at here
      rw [at_other secondSelf] at there
      exact firstSelf.trans ((own fd here).2 second there).symm
    · rw [at_other firstSelf] at here
      rw [secondSelf, at_self] at there
      exact ((own fd there).2 first here).trans secondSelf.symm
    · rw [at_other firstSelf] at here
      rw [at_other secondSelf] at there
      exact sound.alone first second fd here there
  · intro other fd about
    rcases eq_or_ne other thread with rfl | different
    · rw [at_self] at about
      exact (own fd about).1
    · rw [at_other different] at about
      exact sound.present other fd about
  · intro other fd held
    rcases eq_or_ne other thread with rfl | different
    · rw [at_self] at held
      exact bare fd held
    · rw [at_other different] at held
      exact sound.bare other fd held
  · intro other fd held
    rcases eq_or_ne other thread with rfl | different
    · rw [at_self] at held
      exact quiet fd held
    · rw [at_other different] at held
      exact sound.quiet other fd held

/-- A thread comes back. -/
theorem idle (sound : Sound s) : Sound (s.enter thread .idle) := by
  apply sound.enter thread
  · intro fd about
    cases about
  · intro fd bare
    cases bare
  · intro fd quiet
    cases quiet

/-- A thread goes on with the number it is at. -/
theorem goOn (sound : Sound s) {p : Phase} (here : (s.phase thread).about = some fd) (about : p.about = some fd)
    (bare : p.bare = some fd → s.datas fd = none)
    (quiet : p.quiet = some fd → ∀ event, s.iom.slot fd event = none) : Sound (s.enter thread p) := by
  apply sound.enter thread
  · intro other own
    obtain rfl := Option.some.inj (about.symm.trans own)
    exact ⟨sound.present thread fd here, fun second there => sound.alone second thread fd there here⟩
  · intro other held
    obtain rfl := Option.some.inj (about.symm.trans (Phase.about_of_bare held))
    exact bare held
  · intro other held
    obtain rfl := Option.some.inj (about.symm.trans (Phase.about_of_quiet held))
    exact quiet held

/-- The kernel gives or keeps the number. -/
theorem setOpen (sound : Sound s) (k : κ) : Sound (s.setFile fd (some k)) := by
  have still {other : ℕ} (closed : (s.setFile fd (some k)).file other = none) : s.file other = none := by
    rcases eq_or_ne other fd with rfl | different
    · rw [file_setFile, if_pos rfl] at closed
      cases closed
    · rwa [file_setFile, if_neg different] at closed
  refine { sound with present := ?_, closedBare := ?_, closedQuiet := ?_ }
  · intro thread other about closed
    exact sound.present thread other about (still closed)
  · intro other closed
    exact sound.closedBare other (still closed)
  · intro other closed
    exact sound.closedQuiet other (still closed)

/-- The number is closed with nothing left of it. -/
theorem setClosed (sound : Sound s) (free : s.Free fd) (bare : s.datas fd = none)
    (quiet : ∀ event, s.iom.slot fd event = none) : Sound (s.setFile fd none) := by
  refine { sound with present := ?_, closedBare := ?_, closedQuiet := ?_ }
  · intro thread other about closed
    have different : other ≠ fd := by
      rintro rfl
      exact free thread about
    rw [file_setFile, if_neg different] at closed
    exact sound.present thread other about closed
  · intro other closed
    rcases eq_or_ne other fd with rfl | different
    · exact bare
    · rw [file_setFile, if_neg different] at closed
      exact sound.closedBare other closed
  · intro other closed
    rcases eq_or_ne other fd with rfl | different
    · exact quiet
    · rw [file_setFile, if_neg different] at closed
      exact sound.closedQuiet other closed

/-- The context changes, or goes. -/
theorem setCtx (sound : Sound s) (ctx : Option FdCtx) (guarded : ctx ≠ none → s.Free fd ∧ s.file fd ≠ none) :
    Sound (s.setCtx fd ctx) := by
  have still {other : ℕ} (before : s.datas other = none) (kept : other = fd → ctx = none) :
      (s.setCtx fd ctx).datas other = none := by
    rcases eq_or_ne other fd with rfl | different
    · rw [datas_setCtx, if_pos rfl, kept rfl]
    · rw [datas_setCtx, if_neg different, before]
  refine { sound with bare := ?_, closedBare := ?_ }
  · intro thread other bare
    refine still (sound.bare thread other bare) ?_
    rintro rfl
    by_contra some
    exact (guarded some).1 thread (Phase.about_of_bare bare)
  · intro other closed
    refine still (sound.closedBare other closed) ?_
    rintro rfl
    by_contra some
    exact (guarded some).2 closed

/-- The `IOManager` does what it does, and adds an event only on an open number that nobody opens or closes. -/
theorem setIom (sound : Sound s) {r : IOManager.Request} {result : Bool} {iom : IOManager}
    (ran : IOManager.perform r s.iom = .ok (result, iom)) (onScheduler : r.OnScheduler)
    (guarded : ∀ fd event cb caller granted, r = .addEvent fd event cb caller granted →
      s.Free fd ∧ s.file fd ≠ none) : Sound ({ s with iom } : Descriptors κ) := by
  have effect : Effect s.iom (r, result) iom := sound.consistent.effect ran
  refine { sound with
    consistent := effect.consistent
    owned := effect.owned sound.owned onScheduler
    quiet := ?_
    closedQuiet := ?_ }
  · intro thread fd quiet event
    refine effect.free ?_ (sound.quiet thread fd quiet event)
    intro other cb caller granted same
    exact (guarded fd other cb caller granted same).1 thread (Phase.about_of_quiet quiet)
  · intro fd closed event
    refine effect.free ?_ (sound.closedQuiet fd closed event)
    intro other cb caller granted same
    exact (guarded fd other cb caller granted same).2 closed

/-- Where nothing is registered the epoll set has no entry. -/
theorem epoll_none (sound : Sound s) (quiet : ∀ event, s.iom.slot fd event = none) : s.iom.epoll fd = none := by
  rw [sound.consistent.epoll, IOManager.interest, if_pos]
  rw [sound.consistent.core.events, IOManager.mask_eq_zero]
  intro event
  rw [IOManager.registered, quiet]
  rfl

/-- So the kernel's own removal at `close_f` finds nothing. -/
theorem epoll_kept (sound : Sound s) (here : s.phase thread = .closing fd) :
    ({ s with iom := { s.iom with epoll := Function.update s.iom.epoll fd none } } : Descriptors κ) = s := by
  have quiet := sound.quiet thread fd (by rw [here]; rfl)
  have same : Function.update s.iom.epoll fd none = s.iom.epoll :=
    Function.update_eq_self_iff.mpr (sound.epoll_none quiet).symm
  rw [same]

/-- A thread that goes idle leaves the number to nobody. -/
theorem free_of_idle (sound : Sound s) (here : (s.phase thread).about = some fd) : (s.enter thread .idle).Free fd := by
  intro other about
  rw [phase_enter] at about
  split_ifs at about with same
  · cases about
  · exact same (sound.alone other thread fd about here)

theorem opened (sound : Sound s) {k : κ} {managed : Bool} (closed : s.file fd = none) :
    Sound ((s.setFile fd (some k)).enter thread (if managed then .testing fd else .idle)) := by
  have given : (s.setFile fd (some k)).file fd ≠ none := by
    rw [file_setFile, if_pos rfl]
    exact Option.some_ne_none k
  cases managed with
  | false => exact (sound.setOpen k).idle
  | true =>
    apply (sound.setOpen k).enter thread
    · intro other about
      obtain rfl := Option.some.inj about
      exact ⟨given, fun second there => absurd there (sound.free_of_closed closed second)⟩
    · intro other bare
      obtain rfl := Option.some.inj bare
      exact sound.closedBare fd closed
    · intro other quiet
      obtain rfl := Option.some.inj quiet
      exact sound.closedQuiet fd closed

/-- `test` finds an empty slot, so that a context is made. -/
theorem test (sound : Sound s) (here : s.phase thread = .testing fd) :
    s.datas fd = none ∧ Sound (s.enter thread (.storing fd)) := by
  have bare := sound.bare thread fd (by rw [here]; rfl)
  refine ⟨bare, sound.goOn (by rw [here]; rfl) rfl (fun _ => bare) fun _ => ?_⟩
  exact sound.quiet thread fd (by rw [here]; rfl)

theorem store (sound : Sound s) (here : s.phase thread = .storing fd) (d : Descriptor κ) :
    Sound (((s.setCtx fd d.ctx).setFile fd (some d.kernel)).enter thread .idle) := by
  have about : (s.phase thread).about = some fd := by rw [here]; rfl
  have left : Sound ((s.enter thread .idle).setCtx fd d.ctx) :=
    sound.idle.setCtx d.ctx fun _ => ⟨sound.free_of_idle about, sound.present thread fd about⟩
  exact left.setOpen d.kernel

theorem close (sound : Sound s) {hookEnable iom : Bool} (free : s.Free fd) (present : s.file fd ≠ none)
    (hooked : (s.datas fd).isSome → hookEnable = true)
    (cleaned : (s.iom.context fd).events ≠ 0#32 → hookEnable = true ∧ iom = true ∧ (s.datas fd).isSome) :
    Sound (s.enter thread
      (if hookEnable && (s.datas fd).isSome then (if iom then .cancelling fd else .deleting fd) else .closing fd)) := by
  have quiet (unused : ¬ (s.iom.context fd).events ≠ 0#32) (event : Event) : s.iom.slot fd event = none := by
    have none := not_not.mp unused
    rw [sound.consistent.core.events, IOManager.mask_eq_zero] at none
    exact Option.not_isSome_iff_eq_none.mp (Bool.eq_false_iff.mp (none event))
  have own (p : Phase) (about : p.about = some fd) (other : ℕ) (same : p.about = some other) :
      s.file other ≠ none ∧ ∀ second, (s.phase second).about = some other → second = thread := by
    obtain rfl := Option.some.inj (about.symm.trans same)
    exact ⟨present, fun second there => absurd there (free second)⟩
  split_ifs with managed withIom
  · apply sound.enter thread (own _ rfl)
    · intro other bare
      cases bare
    · intro other quiet
      cases quiet
  · apply sound.enter thread (own _ rfl)
    · intro other bare
      cases bare
    · intro other same
      obtain rfl := Option.some.inj same
      exact quiet fun used => withIom (cleaned used).2.1
  · have bare : s.datas fd = none := by
      rw [← Option.not_isSome_iff_eq_none]
      intro isSome
      exact managed (Bool.and_eq_true_iff.mpr ⟨hooked isSome, isSome⟩)
    apply sound.enter thread (own _ rfl)
    · intro other same
      obtain rfl := Option.some.inj same
      exact bare
    · intro other same
      obtain rfl := Option.some.inj same
      refine quiet fun used => ?_
      rw [bare] at cleaned
      exact Bool.noConfusion (cleaned used).2.2

theorem cancelAll (sound : Sound s) (here : s.phase thread = .cancelling fd) {result : Bool} {iom : IOManager}
    (ran : s.iom.cancelAll fd true = .ok (result, iom)) :
    Sound (({ s with iom } : Descriptors κ).enter thread (.deleting fd)) := by
  have after : Sound ({ s with iom } : Descriptors κ) := by
    apply sound.setIom (r := .cancelAll fd true) ran trivial
    intro other event cb caller granted same
    cases same
  have about : (s.phase thread).about = some fd := by rw [here]; rfl
  apply after.goOn about rfl
  · intro bare
    cases bare
  · intro _
    exact sound.consistent.cancelAll_clears ran

theorem del (sound : Sound s) (here : s.phase thread = .deleting fd) :
    Sound ((s.setCtx fd none).enter thread (.closing fd)) := by
  have after : Sound (s.setCtx fd none) := sound.setCtx none fun some => absurd rfl some
  have about : (s.phase thread).about = some fd := by rw [here]; rfl
  apply after.goOn about rfl
  · intro _
    rw [datas_setCtx, if_pos rfl]
  · intro _
    exact sound.quiet thread fd (by rw [here]; rfl)

theorem closeF (sound : Sound s) (here : s.phase thread = .closing fd) :
    Sound ((s.setFile fd none).enter thread .idle) := by
  have about : (s.phase thread).about = some fd := by rw [here]; rfl
  exact sound.idle.setClosed (sound.free_of_idle about) (sound.bare thread fd (by rw [here]; rfl))
    (sound.quiet thread fd (by rw [here]; rfl))

theorem call (sound : Sound s) (free : s.Free fd) (present : s.file fd ≠ none) (d : Descriptor κ) :
    Sound ((s.setCtx fd d.ctx).setFile fd (some d.kernel)) :=
  (sound.setCtx d.ctx fun _ => ⟨free, present⟩).setOpen d.kernel

/-- An allowed step keeps all of it. -/
theorem did (sound : Sound s) (did : Did kernel s a t) (allowed : s.Allowed a) : Sound t := by
  cases did with
  | opened _ closed => exact sound.opened closed
  | test here =>
    obtain ⟨bare, after⟩ := sound.test here
    rw [bare]
    exact after
  | store here _ => exact sound.store here _
  | close _ =>
    obtain ⟨free, present, hooked, cleaned⟩ := allowed
    exact sound.close free (Option.isSome_iff_ne_none.mp present) hooked cleaned
  | cancelAll here ran =>
    obtain rfl : _ = true := allowed
    exact sound.cancelAll here ran
  | del here => exact sound.del here
  | closeF here =>
    rw [sound.epoll_kept here]
    exact sound.closeF here
  | call found _ =>
    apply sound.call allowed
    rw [found]
    exact Option.some_ne_none _
  | @request r _ _ ran =>
    cases r with
    | addEvent fd event cb caller granted =>
      apply sound.setIom ran allowed.2.2
      intro other _ _ _ _ same
      cases same
      exact ⟨allowed.1, Option.isSome_iff_ne_none.mp allowed.2.1⟩
    | delEvent | cancelEvent | cancelAll | dispatch =>
      apply sound.setIom ran trivial
      intro other _ _ _ _ same
      cases same

end Sound

/-! ## Runs -/

/-- The runs in which descriptors are used as they may be. -/
def careful (kernel : SockKernel κ) : Machine (Descriptors κ) (Action κ) := (machine kernel).restrict Allowed

theorem sound_of_reachable (reached : (careful kernel).Reachable s) : Sound s := by
  apply reached.invariant
  · rintro _ rfl
    exact .new
  · rintro s a t sound ⟨allowed, step⟩
    exact sound.did (did_of_step step) allowed

/-- The request a step makes to the `IOManager`. -/
def Action.made : Action κ → Option IOManager.Request
  | .cancelAll _ fd granted => some (.cancelAll fd granted)
  | .request r => some r
  | _ => none

/-- Each step makes its request, or leaves the `IOManager` as it is. -/
theorem Sound.made (sound : Sound s) (did : Did kernel s a t) :
    (a.made = none ∧ t.iom = s.iom) ∨
      ∃ r result, a.made = some r ∧ IOManager.perform r s.iom = .ok (result, t.iom) := by
  cases did with
  | opened => exact .inl ⟨rfl, rfl⟩
  | test => exact .inl ⟨rfl, rfl⟩
  | store => exact .inl ⟨rfl, rfl⟩
  | close => exact .inl ⟨rfl, rfl⟩
  | cancelAll _ ran => exact .inr ⟨_, _, rfl, ran⟩
  | del => exact .inl ⟨rfl, rfl⟩
  | closeF here =>
    rw [sound.epoll_kept here]
    exact .inl ⟨rfl, rfl⟩
  | call => exact .inl ⟨rfl, rfl⟩
  | request ran => exact .inr ⟨_, _, rfl, ran⟩

/-- What the steps have done to the `IOManager` is a run of it. -/
def Traced (events : List (Action κ)) (s : Descriptors κ) : Prop :=
  ∃ labels, labels.map Prod.fst = events.filterMap Action.made ∧ IOManager.machine.Path .new labels s.iom

/-- Without registrations a context is as new. -/
theorem Sound.blank (sound : Sound s) (quiet : ∀ event, s.iom.slot fd event = none) : s.iom.context fd = {} := by
  have core := sound.consistent.core
  have read := core.empty fd .read (quiet .read)
  have write := core.empty fd .write (quiet .write)
  have events : (s.iom.context fd).events = 0#32 := by
    rw [core.events, IOManager.mask_eq_zero]
    intro event
    rw [IOManager.registered, quiet]
    rfl
  cases context : s.iom.context fd
  rw [context] at read write events
  cases read
  cases write
  cases events
  rfl

/-- A socket is opened, waited for and closed while it is waited for, and its number given again. -/
def reuse : List (Action Unit) :=
  [.opened 0 5 () true, .test 0 5, .store 0 5, .request (.addEvent 5 .read (some 9) ⟨some 1, 7, true⟩ true),
    .close 0 5 true true, .cancelAll 0 5 true, .del 0 5, .closeF 0 5, .opened 2 5 () false, .close 2 5 false false,
    .closeF 2 5]

end Sylar.Descriptors
