import Sylar.Proofs.Descriptors.Cleanliness

/-! # Each descriptor has a life of its own

To its users a number is closed, being opened, open or being closed, and an open one is a `Descriptor`: what the kernel
keeps of it, and the context that the hooks made when it was opened and have kept since. In this view there are no tables
and no threads, and a number that is given again has nothing of what it was before. The tables, with `m_datas`,
the `IOManager` and every thread's place in `socket`, `accept` and `close`, refine it.
-/

namespace Sylar.Descriptors

variable {κ : Type} {kernel : SockKernel κ} {s t : Descriptors κ} {thread fd : ℕ} {k : κ} {a : Action κ}

/-! ## The view -/

/-- A number as its users see it. -/
inductive Slot (κ : Type) where
  | closed
  | opening (k : κ)
  | opened (d : Descriptor κ)
  | closing

/-- A step on the one number it is about. -/
def Slot.next (kernel : SockKernel κ) : Action κ → Slot κ → Option (Slot κ)
  | .opened _ _ k managed, .closed => some (if managed then .opening k else .opened ⟨none, k⟩)
  | .test _ _, .opening k => some (.opening k)
  | .store _ _, .opening k => some (.opened (Descriptor.manage kernel.toKernel k))
  | .close _ _ _ _, .opened _ => some .closing
  | .cancelAll _ _ _, .closing => some .closing
  | .del _ _, .closing => some .closing
  | .closeF _ _, .closing => some .closed
  | .call _ c, .opened d => (d.sockCall kernel c).map fun after => .opened after.2
  | .request (.addEvent _ _ _ _ _), .opened d => some (.opened d)
  | .request (.delEvent _ _ _), slot => some slot
  | .request (.cancelEvent _ _ _), slot => some slot
  | .request (.cancelAll _ _), slot => some slot
  | .request (.dispatch _ _ _), slot => some slot
  | _, _ => none

/-- The number a step is about. -/
def Action.number : Action κ → ℕ
  | .opened _ fd _ _ => fd
  | .test _ fd => fd
  | .store _ fd => fd
  | .close _ fd _ _ => fd
  | .cancelAll _ fd _ => fd
  | .del _ fd => fd
  | .closeF _ fd => fd
  | .call fd _ => fd
  | .request r => target r

/-- All numbers, each by itself. -/
def lives (kernel : SockKernel κ) : Machine (ℕ → Slot κ) (Action κ) :=
  .ofNext (· = fun _ => .closed) fun l a => (Slot.next kernel a (l a.number)).map (Function.update l a.number)

open scoped Classical in
/-- What the tables and the threads have for the number. -/
noncomputable def slot (s : Descriptors κ) (fd : ℕ) : Slot κ :=
  match s.file fd with
  | none => .closed
  | some k =>
      if ∃ thread, s.phase thread = .testing fd ∨ s.phase thread = .storing fd then .opening k
      else if ∃ thread, (s.phase thread).about = some fd then .closing
      else .opened (s.descriptor fd k)

theorem slot_closed (closed : s.file fd = none) : s.slot fd = .closed := by
  unfold slot
  rw [closed]

theorem slot_opening (found : s.file fd = some k)
    (here : s.phase thread = .testing fd ∨ s.phase thread = .storing fd) : s.slot fd = .opening k := by
  unfold slot
  rw [found]
  exact if_pos ⟨thread, here⟩

theorem slot_opened (found : s.file fd = some k) (free : s.Free fd) : s.slot fd = .opened (s.descriptor fd k) := by
  have nobody : ¬ ∃ thread, (s.phase thread).about = some fd := by
    rintro ⟨thread, about⟩
    exact free thread about
  have opening : ¬ ∃ thread, s.phase thread = .testing fd ∨ s.phase thread = .storing fd := by
    rintro ⟨thread, here | here⟩
    · exact free thread (by rw [here]; rfl)
    · exact free thread (by rw [here]; rfl)
  unfold slot
  rw [found]
  exact (if_neg opening).trans (if_neg nobody)

theorem Sound.slot_closing (sound : Sound s)
    (here : s.phase thread = .cancelling fd ∨ s.phase thread = .deleting fd ∨ s.phase thread = .closing fd) :
    s.slot fd = .closing := by
  have about : (s.phase thread).about = some fd := by
    obtain here | here | here := here <;> rw [here] <;> rfl
  have opening : ¬ ∃ thread, s.phase thread = .testing fd ∨ s.phase thread = .storing fd := by
    rintro ⟨other, there⟩
    have same : (s.phase other).about = some fd := by
      obtain there | there := there <;> rw [there] <;> rfl
    obtain rfl := sound.alone thread other fd about same
    obtain here | here | here := here <;> rw [here] at there <;> obtain there | there := there <;> cases there
  obtain ⟨k, found⟩ := Option.ne_none_iff_exists'.mp (sound.present thread fd about)
  unfold slot
  rw [found]
  exact (if_neg opening).trans (if_pos ⟨thread, about⟩)

/-- The view of a number depends on what is about it only. -/
theorem slot_congr (file : t.file fd = s.file fd) (datas : t.datas fd = s.datas fd)
    (phases : ∀ thread, t.phase thread = s.phase thread ∨
      (t.phase thread).about ≠ some fd ∧ (s.phase thread).about ≠ some fd) : t.slot fd = s.slot fd := by
  classical
  have same (p : Phase) (about : p.about = some fd) (thread : ℕ) : t.phase thread = p ↔ s.phase thread = p := by
    rcases phases thread with equal | ⟨notAfter, notBefore⟩
    · rw [equal]
    · constructor
      · rintro rfl
        exact absurd about notAfter
      · rintro rfl
        exact absurd about notBefore
  have abouts (thread : ℕ) : (t.phase thread).about = some fd ↔ (s.phase thread).about = some fd := by
    rcases phases thread with equal | ⟨notAfter, notBefore⟩
    · rw [equal]
    · exact iff_of_false notAfter notBefore
  have opening : (∃ thread, t.phase thread = .testing fd ∨ t.phase thread = .storing fd) ↔
      ∃ thread, s.phase thread = .testing fd ∨ s.phase thread = .storing fd :=
    exists_congr fun thread => or_congr (same _ rfl thread) (same _ rfl thread)
  have anybody := exists_congr abouts
  unfold slot descriptor
  rw [file, datas]
  cases s.file fd with
  | none => rfl
  | some k => exact if_congr opening rfl (if_congr anybody rfl rfl)

/-! ## The refinement -/

/-- A thread that is at another number and stays there or goes. -/
theorem slot_enter {p : Phase} (before : (s.phase thread).about ≠ some fd) (after : p.about ≠ some fd) :
    (s.enter thread p).slot fd = s.slot fd := by
  refine slot_congr rfl rfl fun other => ?_
  rw [phase_enter]
  split_ifs with same
  · subst same
    exact .inr ⟨after, before⟩
  · exact .inl rfl

theorem slot_setFile {other : ℕ} {file : Option κ} (different : fd ≠ other) :
    (s.setFile other file).slot fd = s.slot fd :=
  slot_congr (by rw [file_setFile, if_neg different]) rfl fun _ => .inl rfl

theorem slot_setCtx {other : ℕ} {ctx : Option FdCtx} (different : fd ≠ other) :
    (s.setCtx other ctx).slot fd = s.slot fd :=
  slot_congr rfl (by rw [datas_setCtx, if_neg different]) fun _ => .inl rfl

theorem Phase.about_idle : Phase.idle.about ≠ some fd := (Option.some_ne_none fd).symm

/-- Nothing changes but the number a step is about. -/
theorem Did.frame (did : Did kernel s a t) (different : fd ≠ a.number) : t.slot fd = s.slot fd := by
  have apart : some a.number ≠ some fd := fun same => different (Option.some.inj same).symm
  have leaves {u : Descriptors κ} {thread : ℕ} {p : Phase} (here : u.phase thread = p) (about : p.about ≠ some fd)
      (q : Phase) (after : q.about ≠ some fd) : (u.enter thread q).slot fd = u.slot fd := by
    refine slot_enter ?_ after
    rwa [here]
  cases did with
  | @opened thread number k managed idle closed =>
    have after : (if managed then Phase.testing number else .idle).about ≠ some fd := by
      split_ifs
      · exact apart
      · exact Phase.about_idle
    exact (leaves (u := s.setFile number (some k)) idle Phase.about_idle _ after).trans (slot_setFile different)
  | test here =>
    refine leaves here apart _ ?_
    split_ifs
    · exact Phase.about_idle
    · exact apart
  | @store thread number k here found =>
    let d := Descriptor.manage kernel.toKernel k
    have entered := leaves (u := (s.setCtx number d.ctx).setFile number (some d.kernel)) here apart .idle Phase.about_idle
    exact entered.trans ((slot_setFile different).trans (slot_setCtx different))
  | close idle =>
    refine leaves idle Phase.about_idle _ ?_
    split_ifs <;> exact apart
  | @cancelAll thread number granted result iom here ran =>
    exact leaves (u := { s with iom }) here apart (.deleting number) apart
  | @del thread number here =>
    exact (leaves (u := s.setCtx number none) here apart (.closing number) apart).trans (slot_setCtx different)
  | @closeF thread number here =>
    let u : Descriptors κ := { s with iom := { s.iom with epoll := Function.update s.iom.epoll number none } }
    have entered := leaves (u := u.setFile number none) (p := .closing number) here apart .idle Phase.about_idle
    exact entered.trans (slot_setFile different)
  | call => exact (slot_setFile different).trans (slot_setCtx different)
  | request => rfl

/-- The number a step is about moves as its users think. -/
theorem Sound.moves (sound : Sound s) (did : Did kernel s a t) (allowed : s.Allowed a) :
    Slot.next kernel a (s.slot a.number) = some (t.slot a.number) := by
  have entered (u : Descriptors κ) (thread : ℕ) (p : Phase) : (u.enter thread p).phase thread = p := by
    rw [phase_enter, if_pos rfl]
  have after := sound.did did allowed
  cases did with
  | @opened thread number k managed idle closed =>
    have given : (s.setFile number (some k)).file number = some k := by rw [file_setFile, if_pos rfl]
    have before := slot_closed closed
    cases managed with
    | true =>
      have opening := slot_opening (s := (s.setFile number (some k)).enter thread (.testing number)) given
        (.inl (entered _ thread _))
      exact (congrArg (Slot.next kernel _) before).trans (congrArg some opening.symm)
    | false =>
      have free : ((s.setFile number (some k)).enter thread .idle).Free number := by
        intro other about
        rw [phase_enter] at about
        split_ifs at about
        · cases about
        · exact sound.free_of_closed closed other about
      have opened := slot_opened (s := (s.setFile number (some k)).enter thread .idle) given free
      have bare : ((s.setFile number (some k)).enter thread .idle).datas number = none := sound.closedBare number closed
      rw [descriptor, bare] at opened
      exact (congrArg (Slot.next kernel _) before).trans (congrArg some opened.symm)
  | @test thread number here =>
    obtain ⟨k, found⟩ := Option.ne_none_iff_exists'.mp (sound.present thread number (by rw [here]; rfl))
    have before := slot_opening found (.inl here)
    have opening := slot_opening (s := s.enter thread (.storing number)) found (.inr (entered s thread _))
    rw [(sound.test here).1]
    exact (congrArg (Slot.next kernel _) before).trans (congrArg some opening.symm)
  | @store thread number k here found =>
    have before := slot_opening found (.inr here)
    let d := Descriptor.manage kernel.toKernel k
    let u := ((s.setCtx number d.ctx).setFile number (some d.kernel)).enter thread .idle
    have given : u.file number = some d.kernel := (file_setFile number number _ _).trans (if_pos rfl)
    have kept : u.datas number = d.ctx := (datas_setCtx number number _ _).trans (if_pos rfl)
    have free : u.Free number := sound.free_of_idle (by rw [here]; rfl)
    have opened := slot_opened given free
    rw [descriptor, kept] at opened
    exact (congrArg (Slot.next kernel _) before).trans (congrArg some opened.symm)
  | @close thread number hookEnable iom idle =>
    obtain ⟨k, found⟩ := Option.isSome_iff_exists.mp allowed.2.1
    have before := slot_opened found allowed.1
    have closing : (s.enter thread (if hookEnable && (s.datas number).isSome then
        (if iom then .cancelling number else .deleting number) else .closing number)).slot number = .closing := by
      apply after.slot_closing
      rw [entered]
      split_ifs
      · exact .inl rfl
      · exact .inr (.inl rfl)
      · exact .inr (.inr rfl)
    exact (congrArg (Slot.next kernel _) before).trans (congrArg some closing.symm)
  | @cancelAll thread number granted result iom here ran =>
    have closing : slot _ number = .closing := after.slot_closing (.inr (.inl (entered _ thread _)))
    exact (congrArg (Slot.next kernel _) (sound.slot_closing (.inl here))).trans (congrArg some closing.symm)
  | @del thread number here =>
    have closing : slot _ number = .closing := after.slot_closing (.inr (.inr (entered _ thread _)))
    exact (congrArg (Slot.next kernel _) (sound.slot_closing (.inr (.inl here)))).trans (congrArg some closing.symm)
  | @closeF thread number here =>
    have before := sound.slot_closing (.inr (.inr here))
    rw [sound.epoll_kept here]
    have gone : ((s.setFile number none).enter thread .idle).file number = none :=
      (file_setFile number number none s).trans (if_pos rfl)
    exact (congrArg (Slot.next kernel _) before).trans (congrArg some (slot_closed gone).symm)
  | @call number k c result d found ran =>
    have before := slot_opened found allowed
    let u := (s.setCtx number d.ctx).setFile number (some d.kernel)
    have given : u.file number = some d.kernel := (file_setFile number number _ _).trans (if_pos rfl)
    have kept : u.datas number = d.ctx := (datas_setCtx number number _ _).trans (if_pos rfl)
    have opened := slot_opened given (show u.Free number from allowed)
    rw [descriptor, kept] at opened
    refine (congrArg (Slot.next kernel _) before).trans ?_
    exact (congrArg (Option.map _) ran).trans (congrArg some opened.symm)
  | @request r result iom ran =>
    cases r with
    | addEvent number event cb caller granted =>
      obtain ⟨k, found⟩ := Option.isSome_iff_exists.mp allowed.2.1
      have before := slot_opened found allowed.1
      exact (congrArg (Slot.next kernel _) before).trans (congrArg some before.symm)
    | delEvent | cancelEvent | cancelAll | dispatch => rfl

end Sylar.Descriptors
